/-
Calls as machines: a call `Conforms` to a stage when the machine can follow it whatever the
answers, and then its runs are runs of the machine.
-/
import SovereignConfig.Lib.Call

namespace SovereignConfig.Lib

open Function

/-- Named stages of calls, and how a request and its answer lead from one to the next. -/
structure Machine (Q : Type) (A : Q → Type) (ε α : Type) where
  Stage : Type
  next : Stage → (q : Q) → A q → Stage → Prop
  finished : Except ε α → Stage

namespace Machine

variable {ι W H Q : Type} {A : Q → Type} {ε α : Type} (M : Machine Q A ε α)

def Conforms : Call Q A ε α → M.Stage → Prop
  | .done r, s => s = M.finished r
  | .ask q k, s => (∀ r, s ≠ M.finished r) ∧ ∀ a, ∃ s', M.next s q a s' ∧ Conforms (k a) s'

/-- A run of the machine from a stage to a result, as `Call.Runs` is one of a call. -/
inductive Runs (serve : (q : Q) → W → A q → W → Prop) (between : W → W → Prop) :
    M.Stage → W → List ((q : Q) × A q) → Except ε α → W → Prop
  | finished {r w w'} : between w w' → Runs serve between (M.finished r) w [] r w'
  | step {s q a s' w w₁ w₂ w' tr r} : (∀ r, s ≠ M.finished r) → between w w₁ →
      M.next s q a s' → serve q w₁ a w₂ → Runs serve between s' w₂ tr r w' →
      Runs serve between s w (⟨q, a⟩ :: tr) r w'

variable {M}

variable {between : W → W → Prop} {r : Except ε α} {s : M.Stage}
  {serve : (q : Q) → W → A q → W → Prop} {tr : List ((q : Q) × A q)} {w w' : W}
  {S : System ι W Q A}

theorem Runs.asked (h : M.Runs serve between s w tr r w') (hs : ∀ r, s ≠ M.finished r) :
    ∃ q a s' w₁ w₂ tr', tr = ⟨q, a⟩ :: tr' ∧ between w w₁ ∧ M.next s q a s' ∧ serve q w₁ a w₂ ∧
      M.Runs serve between s' w₂ tr' r w' := by
  cases h with
  | finished _ => exact absurd rfl (hs r)
  | step _ hb hnex hser hres => exact ⟨_, _, _, _, _, _, rfl, hb, hnex, hser, hres⟩

theorem Runs.returned {r' : Except ε α} (h : M.Runs serve between s w tr r' w')
    (hs : s = M.finished r) : M.finished r = M.finished r' ∧ tr = [] ∧ between w w' := by
  cases h with
  | finished hb => exact ⟨hs.symm, rfl, hb⟩
  | step hope => exact absurd hs (hope r)

theorem Runs.invariant {I : M.Stage → W → Prop} (h : M.Runs serve between s w tr r w')
    (h₀ : I s w) (hbet : ∀ s w w', I s w → between w w' → I s w')
    (hste : ∀ s q a s' w w', I s w → M.next s q a s' → serve q w a w' → I s' w') :
    I (M.finished r) w' := by
  induction h with
  | finished hb => exact hbet _ _ _ h₀ hb
  | step _ hb hnex hser _ ih => exact ih (hste _ _ _ _ _ _ (hbet _ _ _ h₀ hb) hnex hser)

theorem Conforms.runs {x : Call Q A ε α} (hx : M.Conforms x s)
    (hrun : Call.Runs serve between x w tr r w') : M.Runs serve between s w tr r w' := by
  induction hrun generalizing s with
  | done hb =>
    rw [hx]
    exact .finished hb
  | ask hb hs _ ih =>
    obtain ⟨hope, hnex⟩ := hx
    obtain ⟨s', hste, hres⟩ := hnex _
    exact .step hope hb hste hs (ih hres)

/-! ## A pool -/

variable (M)

structure Staged (ι W : Type) where
  world : W
  stage : ι → Option M.Stage

variable [DecidableEq ι]

inductive Step (S : System ι W Q A) : M.Staged ι W → Label ι Q A → M.Staged ι W → Prop
  | asked {d : M.Staged ι W} {i : ι} {s s' : M.Stage} {q : Q} {a : A q} {w : W} :
      d.stage i = some s → M.next s q a s' → S.serve i q d.world a w →
      Step S d (.asked i q a) ⟨w, update d.stage i (some s')⟩
  | crashed {d : M.Staged ι W} {i : ι} {s : M.Stage} {w : W} :
      d.stage i = some s → (∀ r, s ≠ M.finished r) → S.crash i d.world w →
      Step S d (.crashed i) ⟨w, update d.stage i none⟩
  | idled {d : M.Staged ι W} {w : W} : S.idle d.world w → Step S d .idled ⟨w, d.stage⟩

/-- The staged configurations reached by runs every step of which meets `cond`. -/
inductive Reach (S : System ι W Q A) (cond : W → Label ι Q A → W → Prop)
    (d₀ : M.Staged ι W) : M.Staged ι W → Prop
  | refl : Reach S cond d₀ d₀
  | step {d d' : M.Staged ι W} {l : Label ι Q A} :
      Reach S cond d₀ d → Step M S d l d' → cond d.world l d'.world → Reach S cond d₀ d'

variable {M}

variable {d d₀ : M.Staged ι W} {l : Label ι Q A} {cond : W → Label ι Q A → W → Prop}
  {c : Config ι W Q A ε α} {i : ι}

theorem Step.stage {d' : M.Staged ι W} (h : M.Step S d l d') {j : ι} {s' : M.Stage}
    (hs' : d'.stage j = some s') :
    d.stage j = some s' ∨ ∃ s q a, l = .asked j q a ∧ d.stage j = some s ∧ M.next s q a s' ∧
      S.serve j q d.world a d'.world := by
  cases h with
  | @asked i s t q a w hi hnex hser =>
    by_cases hj : j = i
    · subst hj
      obtain rfl : t = s' := by simpa using hs'
      exact Or.inr ⟨s, q, a, rfl, hi, hnex, hser⟩
    · exact Or.inl (by simpa [update_of_ne hj] using hs')
  | @crashed i s w hi hope hcra =>
    by_cases hj : j = i
    · subst hj
      simp at hs'
    · exact Or.inl (by simpa [update_of_ne hj] using hs')
  | idled hidl => exact Or.inl hs'

theorem Reach.invariant {I : M.Staged ι W → Prop} (h : M.Reach S cond d₀ d) (h₀ : I d₀)
    (hste : ∀ d l d', I d → M.Step S d l d' → cond d.world l d'.world → I d') : I d := by
  induction h with
  | refl => exact h₀
  | step _ hs hc ih => exact hste _ _ _ ih hs hc

def At : Thread Q A ε α → Option M.Stage → Prop
  | .live x, some s => M.Conforms x s
  | .crashed, none => True
  | _, _ => False

structure Follows (d : M.Staged ι W) (c : Config ι W Q A ε α) : Prop where
  world : c.world = d.world
  at_stage : ∀ i, M.At (c.pool i) (d.stage i)

omit [DecidableEq ι] in
/-- A live call stands at a stage it conforms to. -/
theorem Follows.of_live {x : Call Q A ε α} (h : M.Follows d c) (hi : c.pool i = .live x) :
    ∃ s, d.stage i = some s ∧ M.Conforms x s := by
  have hat := h.at_stage i
  rw [hi] at hat
  cases hs : d.stage i with
  | none => rw [hs] at hat; exact hat.elim
  | some s => exact ⟨s, rfl, by rwa [hs] at hat⟩

omit [DecidableEq ι] in
theorem Follows.of_stage (h : M.Follows d c) (hi : d.stage i = some s) :
    ∃ x, c.pool i = .live x ∧ M.Conforms x s := by
  have hat := h.at_stage i
  rw [hi] at hat
  cases hp : c.pool i with
  | crashed => rw [hp] at hat; exact hat.elim
  | live x => exact ⟨x, rfl, by rwa [hp] at hat⟩

omit [DecidableEq ι] in
theorem Follows.done (h : M.Follows d c) (hi : c.pool i = .live (.done r)) :
    d.stage i = some (M.finished r) := by
  obtain ⟨s, hs, rfl⟩ := h.of_live hi
  exact hs

omit [DecidableEq ι] in
theorem Follows.asking (h : M.Follows d c) (hi : d.stage i = some s) (hs : ∀ r, s ≠ M.finished r) :
    (c.pool i).running = true := by
  obtain ⟨x, hp, hcon⟩ := h.of_stage hi
  rw [hp]
  cases x with
  | done r => exact absurd hcon (hs r)
  | ask q k => rfl

omit [DecidableEq ι] in
theorem Follows.returned (h : M.Follows d c) (hi : d.stage i = some (M.finished r)) :
    ∃ r', c.pool i = .live (.done r') ∧ M.finished r = M.finished r' := by
  obtain ⟨x, hp, hcon⟩ := h.of_stage hi
  cases x with
  | done r' => exact ⟨r', hp, hcon⟩
  | ask q k => exact absurd rfl (hcon.1 r)

theorem At.update {pool : ι → Thread Q A ε α} {stage : ι → Option M.Stage} {t : Thread Q A ε α}
    {o : Option M.Stage} (h : ∀ j, M.At (pool j) (stage j)) (hi : M.At t o) (j : ι) :
    M.At (update pool i t j) (update stage i o j) := by
  by_cases hj : j = i
  · subst hj
    simpa using hi
  · simpa [update_of_ne hj] using h j

theorem Follows.step {c' : Config ι W Q A ε α} (h : M.Follows d c) (hste : Lib.Step S c l c') :
    ∃ d', M.Step S d l d' ∧ M.Follows d' c' := by
  have hwor := h.world
  cases hste with
  | asked hp hs =>
    obtain ⟨s, hd, -, hnex⟩ := h.of_live hp
    obtain ⟨s', hnex, hres⟩ := hnex _
    exact ⟨_, .asked hd hnex (hwor ▸ hs), rfl, At.update h.at_stage hres⟩
  | crashed hp hs =>
    obtain ⟨s, hd, hope, -⟩ := h.of_live hp
    exact ⟨_, .crashed hd hope (hwor ▸ hs), rfl, At.update h.at_stage trivial⟩
  | idled hi => exact ⟨_, .idled (hwor ▸ hi), rfl, h.at_stage⟩

theorem Follows.reach {c₀ : Config ι W Q A ε α} (h₀ : M.Follows d₀ c₀) (h : Lib.Reach S cond c₀ c) :
    ∃ d, M.Reach S cond d₀ d ∧ M.Follows d c := by
  induction h with
  | refl => exact ⟨d₀, .refl, h₀⟩
  | step _ hs hc ih =>
    obtain ⟨d, hd, hfollows⟩ := ih
    obtain ⟨d', hste, hfollows'⟩ := hfollows.step hs
    refine ⟨d', hd.step hste ?_, hfollows'⟩
    rw [← hfollows.world, ← hfollows'.world]
    exact hc

end Machine

end SovereignConfig.Lib
