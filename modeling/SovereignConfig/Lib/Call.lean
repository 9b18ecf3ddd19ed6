/-
Calls as trees of requests. `run` answers by a function, `Runs` is one call on its own, `Step` is a
pool of calls in any order, any of them able to crash.
-/
import Mathlib.Logic.Function.Basic
import Mathlib.Logic.Relation

namespace SovereignConfig.Lib

inductive Call (Q : Type) (A : Q → Type) (ε α : Type) : Type where
  | done (r : Except ε α)
  | ask (q : Q) (k : A q → Call Q A ε α)

namespace Call

variable {Q : Type} {A : Q → Type} {ε ε' α β γ : Type}

/-! ## Sequencing -/

/-- Run `x`, then `f` on its value; a failure of `x` is the failure of both. -/
def bind : Call Q A ε α → (α → Call Q A ε β) → Call Q A ε β
  | done (.ok a), f => f a
  | done (.error e), _ => done (.error e)
  | ask q k, f => ask q (fun a => (k a).bind f)

instance : Monad (Call Q A ε) where
  pure a := done (.ok a)
  bind := bind

def fail (e : ε) : Call Q A ε α := done (.error e)

def lift (r : Except ε α) : Call Q A ε α := done r

def attempt : Call Q A ε α → Call Q A ε' (Except ε α)
  | done r => done (.ok r)
  | ask q k => ask q (fun a => (k a).attempt)

@[simp] theorem pure_eq (a : α) : (pure a : Call Q A ε α) = done (.ok a) := rfl

@[simp] theorem bind_eq (x : Call Q A ε α) (f : α → Call Q A ε β) : (x >>= f) = x.bind f := rfl

@[simp] theorem done_ok_bind (a : α) (f : α → Call Q A ε β) :
    (done (.ok a) : Call Q A ε α).bind f = f a := rfl

@[simp] theorem done_error_bind (e : ε) (f : α → Call Q A ε β) :
    (done (.error e) : Call Q A ε α).bind f = done (.error e) := rfl

@[simp] theorem ask_bind (q : Q) (k : A q → Call Q A ε α) (f : α → Call Q A ε β) :
    (ask q k).bind f = ask q (fun a => (k a).bind f) := rfl

@[simp] theorem fail_eq (e : ε) : (fail e : Call Q A ε α) = done (.error e) := rfl

@[simp] theorem lift_eq (r : Except ε α) : (lift r : Call Q A ε α) = done r := rfl

@[simp] theorem done_attempt (r : Except ε α) :
    (done r : Call Q A ε α).attempt = (done (.ok r) : Call Q A ε' (Except ε α)) := rfl

@[simp] theorem ask_attempt (q : Q) (k : A q → Call Q A ε α) :
    (ask q k).attempt = (ask q (fun a => (k a).attempt) : Call Q A ε' (Except ε α)) := rfl

theorem bind_assoc (x : Call Q A ε α) (f : α → Call Q A ε β) (g : β → Call Q A ε γ) :
    (x.bind f).bind g = x.bind fun a => (f a).bind g := by
  induction x with
  | done r => cases r <;> rfl
  | ask q k ih => exact congrArg (ask q) (funext ih)

def Asks (ok : Q → Prop) : Call Q A ε α → Prop
  | done _ => True
  | ask q k => ok q ∧ ∀ a, (k a).Asks ok

variable {ok : Q → Prop} {x : Call Q A ε α}

theorem Asks.imp {ok' : Q → Prop} (h : ∀ q, ok q → ok' q) (hx : x.Asks ok) : x.Asks ok' := by
  induction x with
  | done r => trivial
  | ask q k ih => exact ⟨h q hx.1, fun a => ih a (hx.2 a)⟩

theorem Asks.bind {f : α → Call Q A ε β} (hx : x.Asks ok) (hf : ∀ a, (f a).Asks ok) :
    (x.bind f).Asks ok := by
  induction x with
  | done r =>
    cases r with
    | ok a => exact hf a
    | error e => trivial
  | ask q k ih => exact ⟨hx.1, fun a => ih a (hx.2 a)⟩

theorem Asks.attempt (hx : x.Asks ok) : (x.attempt : Call Q A ε' (Except ε α)).Asks ok := by
  induction x with
  | done r => trivial
  | ask q k ih => exact ⟨hx.1, fun a => ih a (hx.2 a)⟩

theorem Asks.forM {f : α → Call Q A ε PUnit} (hf : ∀ a, (f a).Asks ok) :
    ∀ l : List α, (l.forM f).Asks ok
  | [] => trivial
  | a :: l => (hf a).bind fun _ => Asks.forM hf l

variable {f : β → α → Call Q A ε β}

theorem Asks.foldlM (hf : ∀ b a, (f b a).Asks ok) :
    ∀ (l : List α) (b : β), (l.foldlM f b).Asks ok
  | [], _ => trivial
  | a :: l, b => (hf b a).bind fun b' => Asks.foldlM hf l b'

theorem Asks.foldlM_of_mem {l : List α} (hf : ∀ a ∈ l, ∀ b, (f b a).Asks ok) :
    ∀ b : β, (l.foldlM f b).Asks ok := by
  induction l with
  | nil => exact fun _ => trivial
  | cons a l ih =>
    exact fun b => (hf a List.mem_cons_self b).bind
      (ih fun a' ha => hf a' (List.mem_cons_of_mem a ha))

section Sequential

variable {W : Type} (serve : (q : Q) → W → A q → W → Prop) (between : W → W → Prop)

/-- A run of one call to its result. `between` is what may happen to the world
before each request and before the result is returned; the list holds the
requests made, with their answers. -/
inductive Runs : Call Q A ε α → W → List ((q : Q) × A q) → Except ε α → W → Prop
  | done {r w w'} : between w w' → Runs (done r) w [] r w'
  | ask {q k a w w₁ w₂ w' tr r} : between w w₁ → serve q w₁ a w₂ →
      Runs (k a) w₂ tr r w' → Runs (ask q k) w (⟨q, a⟩ :: tr) r w'

end Sequential

/-! ## Answers by a function -/

section Handled

variable {W : Type} (handle : (q : Q) → W → A q × W)

def run : Call Q A ε α → W → Except ε α × W
  | done r, w => (r, w)
  | ask q k, w => run (k (handle q w).1) (handle q w).2

@[simp] theorem run_done (r : Except ε α) (w : W) : run handle (done r) w = (r, w) := rfl

@[simp] theorem run_ask (q : Q) (k : A q → Call Q A ε α) (w : W) :
    run handle (ask q k) w = run handle (k (handle q w).1) (handle q w).2 := rfl

theorem run_bind (x : Call Q A ε α) (f : α → Call Q A ε β) : ∀ w : W,
    run handle (x.bind f) w = match run handle x w with
      | (.ok a, w') => run handle (f a) w'
      | (.error e, w') => (.error e, w') := by
  induction x with
  | done r => intro w; cases r <;> rfl
  | ask q k ih => intro w; exact ih _ _

theorem run_foldlM_reads {f : β → α → Call Q A ε β} {g : β → α → Except ε β} {w : W}
    (h : ∀ b a, run handle (f b a) w = (g b a, w)) (l : List α) :
    ∀ b, run handle (l.foldlM f b) w = (l.foldlM g b, w) := by
  induction l with
  | nil => exact fun _ => rfl
  | cons a l ih =>
    intro b
    rw [List.foldlM_cons, List.foldlM_cons, bind_eq, run_bind, h]
    cases hg : g b a with
    | ok b' => exact ih b'
    | error e => rfl

def Returns (x : Call Q A ε α) (w : W) (a : α) (w' : W) : Prop := run handle x w = (.ok a, w')

variable {handle} {w w' : W}

@[simp] theorem returns_done {r : Except ε α} {a : α} :
    Returns handle (done r) w a w' ↔ r = .ok a ∧ w = w' := by
  simp [Returns]

variable {b : β} {x : Call Q A ε α}

theorem returns_bind {f : α → Call Q A ε β} :
    Returns handle (x.bind f) w b w' ↔
      ∃ a w₁, Returns handle x w a w₁ ∧ Returns handle (f a) w₁ b w' := by
  unfold Returns
  rw [run_bind]
  rcases hx : run handle x w with ⟨r, w₁⟩
  cases r with
  | ok a =>
    constructor
    · exact fun h => ⟨a, w₁, rfl, h⟩
    · rintro ⟨a', w₁', heq, h⟩
      cases heq
      exact h
  | error e => simp

theorem returns_map {f : α → β} :
    Returns handle (f <$> x) w b w' ↔ ∃ a, Returns handle x w a w' ∧ f a = b := by
  show Returns handle (x.bind fun a => done (.ok (f a))) w b w' ↔ _
  simp only [returns_bind, returns_done, Except.ok.injEq]
  constructor
  · rintro ⟨a, w₁, hx, rfl, rfl⟩
    exact ⟨a, hx, rfl⟩
  · rintro ⟨a, hx, rfl⟩
    exact ⟨a, w', hx, rfl, rfl⟩

theorem run_invariant {I : W → Prop} (hste : ∀ q w, ok q → I w → I (handle q w).2) :
    ∀ (x : Call Q A ε α) (w : W), x.Asks ok → I w → I (run handle x w).2 := by
  intro x
  induction x with
  | done r => exact fun _ _ h => h
  | ask q k ih => exact fun w hask h => ih _ _ (hask.2 _) (hste q w hask.1 h)

end Handled

end Call

/-! ## A pool of calls -/

section Pool

variable {ι W Q : Type} {A : Q → Type} {ε α : Type}

/-- What runs calls: how the world serves a request of call `i`, what it becomes
when call `i` crashes, and how it moves on its own. -/
structure System (ι W Q : Type) (A : Q → Type) where
  serve : ι → (q : Q) → W → A q → W → Prop
  crash : ι → W → W → Prop
  idle : W → W → Prop

inductive Thread (Q : Type) (A : Q → Type) (ε α : Type) : Type where
  | live (c : Call Q A ε α)
  | crashed

def Thread.running : Thread Q A ε α → Bool
  | live (.ask _ _) => true
  | _ => false

structure Config (ι W Q : Type) (A : Q → Type) (ε α : Type) where
  world : W
  pool : ι → Thread Q A ε α

inductive Label (ι Q : Type) (A : Q → Type) : Type where
  | asked (i : ι) (q : Q) (a : A q)
  | crashed (i : ι)
  | idled

variable [DecidableEq ι]

/-- One step of the pool: some call's next request is served, some unfinished
call crashes, or the world moves on its own. -/
inductive Step (S : System ι W Q A) :
    Config ι W Q A ε α → Label ι Q A → Config ι W Q A ε α → Prop
  | asked {c : Config ι W Q A ε α} {i : ι} {q : Q} {k : A q → Call Q A ε α} {a : A q} {w : W} :
      c.pool i = .live (.ask q k) → S.serve i q c.world a w →
      Step S c (.asked i q a) ⟨w, Function.update c.pool i (.live (k a))⟩
  | crashed {c : Config ι W Q A ε α} {i : ι} {q : Q} {k : A q → Call Q A ε α} {w : W} :
      c.pool i = .live (.ask q k) → S.crash i c.world w →
      Step S c (.crashed i) ⟨w, Function.update c.pool i .crashed⟩
  | idled {c : Config ι W Q A ε α} {w : W} :
      S.idle c.world w → Step S c .idled ⟨w, c.pool⟩

/-- The configurations reached from `c₀` by runs every step of which meets `cond`, a condition
on the world the step is taken in, the step, and the world it leaves. -/
inductive Reach (S : System ι W Q A) (cond : W → Label ι Q A → W → Prop)
    (c₀ : Config ι W Q A ε α) : Config ι W Q A ε α → Prop
  | refl : Reach S cond c₀ c₀
  | step {c c' : Config ι W Q A ε α} {l : Label ι Q A} :
      Reach S cond c₀ c → Step S c l c' → cond c.world l c'.world → Reach S cond c₀ c'

variable {S : System ι W Q A} {cond cond' : W → Label ι Q A → W → Prop}
  {c₀ c c' : Config ι W Q A ε α}

/-- The same system, remembering something of what has happened: `note` says how a step changes
what is remembered. -/
def System.remember {H : Type} (S : System ι W Q A) (note : W → Label ι Q A → W → H → H) :
    System ι (W × H) Q A where
  serve i q u a v := S.serve i q u.1 a v.1 ∧ v.2 = note u.1 (.asked i q a) v.1 u.2
  crash i u v := S.crash i u.1 v.1 ∧ v.2 = note u.1 (.crashed i) v.1 u.2
  idle u v := S.idle u.1 v.1 ∧ v.2 = note u.1 .idled v.1 u.2

theorem Step.remembered {H : Type} {note : W → Label ι Q A → W → H → H}
    {c : Config ι (W × H) Q A ε α} {i : ι} {q : Q} {k : A q → Call Q A ε α} {a : A q} {w : W}
    (hi : c.pool i = .live (.ask q k)) (hser : S.serve i q c.world.1 a w) :
    Step (S.remember note) c (.asked i q a)
      ⟨(w, note c.world.1 (.asked i q a) w c.world.2), Function.update c.pool i (.live (k a))⟩ :=
  .asked hi ⟨hser, rfl⟩

theorem Reach.imp (h : Reach S cond c₀ c) (himp : ∀ w l w', cond w l w' → cond' w l w') :
    Reach S cond' c₀ c := by
  induction h with
  | refl => exact .refl
  | step _ hste hc ih => exact ih.step hste (himp _ _ _ hc)

theorem Reach.remember {H : Type} (note : W → Label ι Q A → W → H → H) (r₀ : H)
    (h : Reach S cond c₀ c) : ∃ r, Reach (S.remember note) (fun u l v => cond u.1 l v.1)
      ⟨(c₀.world, r₀), c₀.pool⟩ ⟨(c.world, r), c.pool⟩ := by
  induction h with
  | refl => exact ⟨r₀, .refl⟩
  | @step c c' l _ hste hc ih =>
    obtain ⟨r, hr⟩ := ih
    refine ⟨note c.world l c'.world r, hr.step ?_ hc⟩
    cases hste with
    | asked hi hser => exact .asked hi ⟨hser, rfl⟩
    | crashed hi hcra => exact .crashed hi ⟨hcra, rfl⟩
    | idled hidl => exact .idled ⟨hidl, rfl⟩

end Pool

end SovereignConfig.Lib
