/-
Two calls of one shape: they ask corresponding requests all the way and return related values or
fail alike.
-/
import SovereignConfig.Lib.Call

namespace SovereignConfig.Lib

structure Translation (Q : Type) (A : Q → Type) where
  request : Q → Q
  answer : (q : Q) → A q → A (request q)
  covers : Q → Prop

section Agree

variable {ε α β : Type}

inductive Agree (V : α → β → Prop) : Except ε α → Except ε β → Prop
  | ok {a : α} {b : β} : V a b → Agree V (.ok a) (.ok b)
  | error (e : ε) : Agree V (.error e) (.error e)

theorem agree_refl (r : Except ε α) : Agree Eq r r := by
  cases r with
  | ok a => exact .ok rfl
  | error e => exact .error e

theorem Agree.eq {r r' : Except ε α} (h : Agree Eq r r') : r = r' := by
  cases h with
  | ok h => rw [h]
  | error e => rfl

theorem agree_map {f : α → β} (r : Except ε α) : Agree (fun a b => b = f a) r (r.map f) := by
  cases r with
  | ok a => exact .ok rfl
  | error e => exact .error e

end Agree

namespace Translation

variable {Q : Type} {A : Q → Type} {ε α β γ δ : Type} (T : Translation Q A)

inductive Calls (V : α → β → Prop) : Call Q A ε α → Call Q A ε β → Prop
  | done {r : Except ε α} {r' : Except ε β} : Agree V r r' → Calls V (.done r) (.done r')
  | ask {q : Q} {k : A q → Call Q A ε α} {k' : A (T.request q) → Call Q A ε β} :
      T.covers q → (∀ a, Calls V (k a) (k' (T.answer q a))) →
      Calls V (.ask q k) (.ask (T.request q) k')

variable {T} {V : α → β → Prop} {U : γ → δ → Prop}

variable {f : α → Call Q A ε γ} {f' : β → Call Q A ε δ} {x : Call Q A ε α} {x' : Call Q A ε β}

theorem Calls.bind (h : T.Calls V x x') (hf : ∀ a b, V a b → T.Calls U (f a) (f' b)) :
    T.Calls U (x.bind f) (x'.bind f') := by
  induction h with
  | done hr =>
    cases hr with
    | ok hv => exact hf _ _ hv
    | error e => exact .done (.error e)
  | ask hq _ ih => exact .ask hq ih

theorem Calls.then_map {g : α → β} (h : T.Calls (fun a b => b = g a) x x')
    (hf : ∀ a, T.Calls U (f a) (f' (g a))) : T.Calls U (x.bind f) (x'.bind f') :=
  h.bind fun a _ hb => hb ▸ hf a

theorem Calls.then_same {x' : Call Q A ε α} {f' : α → Call Q A ε δ} (h : T.Calls Eq x x')
    (hf : ∀ a, T.Calls U (f a) (f' a)) :
    T.Calls U (x.bind f) (x'.bind f') :=
  h.bind fun a _ hb => hb ▸ hf a

theorem Calls.mono {V' : α → β → Prop} (h : T.Calls V x x') (hv : ∀ a b, V a b → V' a b) :
    T.Calls V' x x' := by
  induction h with
  | done hr =>
    cases hr with
    | ok h => exact .done (.ok (hv _ _ h))
    | error e => exact .done (.error e)
  | ask hq _ ih => exact .ask hq ih

theorem Calls.attempt (h : T.Calls V x x') :
    T.Calls (Agree V) (x.attempt : Call Q A ε (Except ε α)) x'.attempt := by
  induction h with
  | done hr => exact .done (.ok hr)
  | ask hq _ ih => exact .ask hq ih

theorem Calls.forM {f f' : α → Call Q A ε PUnit} (h : ∀ a, T.Calls Eq (f a) (f' a)) :
    ∀ l : List α, T.Calls Eq (l.forM f) (l.forM f')
  | [] => .done (agree_refl _)
  | a :: l => (h a).bind fun _ _ _ => Calls.forM h l

theorem Calls.foldlM {f : β → α → Call Q A ε β} {f' : γ → α → Call Q A ε γ} {W : β → γ → Prop}
    (h : ∀ b c a, W b c → T.Calls W (f b a) (f' c a)) :
    ∀ (l : List α) (b : β) (c : γ), W b c → T.Calls W (l.foldlM f b) (l.foldlM f' c)
  | [], _, _, hw => .done (.ok hw)
  | a :: l, b, c, hw => (h b c a hw).bind fun b' c' hw' => Calls.foldlM h l b' c' hw'

/-- **Running the translation.** Where answering commutes with the translation and with a map of
worlds, so does running. -/
theorem Calls.run {W W' : Type} {handle : (q : Q) → W → A q × W}
    {handle' : (q : Q) → W' → A q × W'} {m : W → W'}
    (hser : ∀ q w, T.covers q →
      handle' (T.request q) (m w) = (T.answer q (handle q w).1, m (handle q w).2))
    (h : T.Calls V x x') (w : W) :
    Agree V (x.run handle w).1 (x'.run handle' (m w)).1 ∧
      (x'.run handle' (m w)).2 = m (x.run handle w).2 := by
  induction h generalizing w with
  | done hr => exact ⟨hr, rfl⟩
  | ask hq _ ih =>
    rw [Call.run_ask, Call.run_ask, hser _ _ hq]
    exact ih _ _

end Translation

end SovereignConfig.Lib
