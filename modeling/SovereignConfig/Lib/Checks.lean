/-
Checks in sequence, the first of which to fail decides, and the inversions of such a sequence.
-/
import Mathlib.Data.List.Basic
import Mathlib.Data.List.Forall2

namespace SovereignConfig.Lib

open List

variable {ε α β : Type}

def ensure (c : Prop) [Decidable c] (e : ε) : Except ε Unit := if c then .ok () else .error e

/-- `Option::ok_or`. -/
def ok_or (o : Option α) (e : ε) : Except ε α :=
  match o with
  | some a => .ok a
  | none => .error e

variable {e : ε} {a : α} {f : α → Except ε β} {x : Except ε α} {l : List α}

theorem ensure_eq_ok {c : Prop} [Decidable c] {u : Unit} : ensure c e = .ok u ↔ c := by
  unfold ensure
  split_ifs with hc
  · exact iff_of_true rfl hc
  · exact iff_of_false (fun h => nomatch h) hc

theorem ok_or_eq_ok {o : Option α} : ok_or o e = .ok a ↔ o = some a := by
  cases o with
  | none => exact iff_of_false (fun h => nomatch h) fun h => nomatch h
  | some b =>
    exact ⟨fun h => congrArg some (Except.ok.inj h), fun h => congrArg Except.ok (Option.some.inj h)⟩

theorem bind_eq_ok {b : β} : x >>= f = .ok b ↔ ∃ a, x = .ok a ∧ f a = .ok b := by
  cases x with
  | error e => exact iff_of_false (fun h => nomatch h) fun ⟨_, h, _⟩ => nomatch h
  | ok a =>
    constructor
    · exact fun h => ⟨a, rfl, h⟩
    · rintro ⟨a', ha, h⟩
      cases ha
      exact h

theorem bind_eq_error (h : x >>= f = .error e) :
    x = .error e ∨ ∃ a, x = .ok a ∧ f a = .error e := by
  cases x with
  | error e' => exact Or.inl (congrArg Except.error (Except.error.inj h))
  | ok a => exact Or.inr ⟨a, rfl, h⟩

theorem mapError_eq_ok {ε' : Type} {f : ε → ε'} : x.mapError f = .ok a ↔ x = .ok a := by
  cases x with
  | error e => exact iff_of_false (fun h => nomatch h) fun h => nomatch h
  | ok b =>
    exact ⟨fun h => congrArg Except.ok (Except.ok.inj h),
      fun h => congrArg Except.ok (Except.ok.inj h)⟩

theorem unless_eq_ok {c : Prop} [Decidable c] :
    (if c then .error e else x) = .ok a ↔ ¬ c ∧ x = .ok a := by
  split_ifs with hc
  · exact iff_of_false (fun h => nomatch h) fun h => h.1 hc
  · exact (and_iff_right hc).symm

theorem mapM_eq_ok {check : α → Except ε β} {value : α → β} (h : ∀ a ∈ l, check a = .ok (value a)) :
    l.mapM check = .ok (l.map value) := by
  induction l with
  | nil => rfl
  | cons a l ih =>
    rw [mapM_cons, h a mem_cons_self, ih fun b hb => h b (mem_cons_of_mem _ hb)]
    rfl

theorem forall₂_of_mapM {checked : List β} (h : l.mapM f = .ok checked) :
    List.Forall₂ (fun a b => f a = .ok b) l checked := by
  induction l generalizing checked with
  | nil =>
    obtain rfl := Except.ok.inj h
    exact .nil
  | cons a l ih =>
    rw [mapM_cons] at h
    obtain ⟨first, hfir, h⟩ := bind_eq_ok.mp h
    obtain ⟨rest, hres, h⟩ := bind_eq_ok.mp h
    obtain rfl := Except.ok.inj h
    exact .cons hfir (ih hres)

theorem foldlM_forall {σ : Type} {f : σ → α → Except ε σ} {P : α → Prop}
    (hf : ∀ s a s', f s a = .ok s' → P a) {s s' : σ} (h : l.foldlM f s = .ok s') :
    ∀ a ∈ l, P a := by
  induction l generalizing s with
  | nil => exact fun _ ha => absurd ha not_mem_nil
  | cons a l ih =>
    rw [foldlM_cons] at h
    obtain ⟨s₁, hone, hres⟩ := bind_eq_ok.mp h
    intro b hb
    rcases mem_cons.mp hb with rfl | hb
    · exact hf s b s₁ hone
    · exact ih hres b hb

theorem foldlM_simulates {σ τ : Type} {f : σ → α → Except ε σ} {f' : τ → β → Option τ} {g : σ → τ}
    {h : α → β} (hste : ∀ s, ∀ a ∈ l, (f s a).toOption.map g = f' (g s) (h a)) (s : σ) :
    (l.foldlM f s).toOption.map g = (l.map h).foldlM f' (g s) := by
  induction l generalizing s with
  | nil => rfl
  | cons a l ih =>
    rw [map_cons, foldlM_cons, foldlM_cons, ← hste s a mem_cons_self]
    cases f s a with
    | error e => rfl
    | ok s₁ => exact ih (fun s b hb => hste s b (mem_cons_of_mem a hb)) s₁

theorem foldlM_some_induction {σ : Type} {f : σ → α → Option σ} {I : List α → σ → Prop}
    (hste : ∀ done s a s', I done s → f s a = some s' → I (done ++ [a]) s') {done : List α}
    {s s' : σ} (h : I done s) (hloo : l.foldlM f s = some s') : I (done ++ l) s' := by
  induction l generalizing done s with
  | nil =>
    obtain rfl := Option.some.inj hloo
    rwa [append_nil]
  | cons a l ih =>
    rw [foldlM_cons] at hloo
    obtain ⟨s₁, hs₁, hres⟩ := Option.bind_eq_some_iff.mp hloo
    have hdon := ih (hste done s a s₁ h hs₁) hres
    rwa [append_assoc, singleton_append] at hdon

theorem foldlM_eq_some {σ : Type} {f : σ → α → Option σ} {g : σ → α → σ}
    (h : ∀ a ∈ l, ∀ s, f s a = some (g s a)) {s : σ} : l.foldlM f s = some (l.foldl g s) := by
  induction l generalizing s with
  | nil => rfl
  | cons a l ih =>
    rw [foldlM_cons, h a mem_cons_self, foldl_cons]
    exact ih fun b hb => h b (mem_cons_of_mem a hb)

end SovereignConfig.Lib
