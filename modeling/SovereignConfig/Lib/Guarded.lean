/-
The calls of a pool one at a time. A call is `Guarded` when its requests keep to the discipline
given what it knows, which must be `Stable` under what the others may do.
-/
import SovereignConfig.Lib.Call

namespace SovereignConfig.Lib

open List Function

variable {ι W Q : Type} {A : Q → Type} {ε α β : Type}

structure Discipline (ι W Q : Type) (A : Q → Type) where
  inv : W → Prop
  allowed : W → Label ι Q A → W → Prop

def Label.Foreign (i : ι) : Label ι Q A → Prop
  | .asked j _ _ => j ≠ i
  | .crashed _ => True
  | .idled => True

section Rules

variable (S : System ι W Q A) (cond : W → Label ι Q A → W → Prop) (D : Discipline ι W Q A)

def Stable (i : ι) (P : W → Prop) : Prop :=
  ∀ w l w', D.inv w → D.inv w' → P w → l.Foreign i → D.allowed w l w' → P w'

def Serves (i : ι) (P : W → Prop) (q : Q) (a : A q) (P' : W → Prop) : Prop :=
  ∀ w w', D.inv w → P w → S.serve i q w a w' → cond w (.asked i q a) w' →
    D.inv w' ∧ D.allowed w (.asked i q a) w' ∧ P' w'

/-- From `P`, every request of the call keeps to the discipline, and a value it returns satisfies
`R`. A failure promises nothing. -/
def Guarded (i : ι) : Call Q A ε α → (W → Prop) → (α → W → Prop) → Prop
  | .done (.ok a), P, R => ∀ w, D.inv w → P w → R a w
  | .done (.error _), _, _ => True
  | .ask q k, P, R => ∃ P₀ : W → Prop, (∀ w, D.inv w → P w → P₀ w) ∧ Stable D i P₀ ∧
      ∀ a, ∃ P', Serves S cond D i P₀ q a P' ∧ Guarded i (k a) P' R

variable {S cond D} {i : ι}

variable {P P' : W → Prop} {R : α → W → Prop} {x : Call Q A ε α} {f : α → Call Q A ε β}

theorem Guarded.error {e : ε} :
    Guarded S cond D i (.done (.error e) : Call Q A ε α) P R := trivial

theorem Guarded.ask {q : Q} {k : A q → Call Q A ε α} {P' : A q → W → Prop}
    (hsta : Stable D i P) (hser : ∀ a, Serves S cond D i P q a (P' a))
    (hk : ∀ a, Guarded S cond D i (k a) (P' a) R) : Guarded S cond D i (.ask q k) P R :=
  ⟨P, fun _ _ h => h, hsta, fun a => ⟨P' a, hser a, hk a⟩⟩

theorem Guarded.conseq {R' : α → W → Prop} (h : Guarded S cond D i x P' R')
    (hP : ∀ w, D.inv w → P w → P' w) (hR : ∀ a w, D.inv w → R' a w → R a w) :
    Guarded S cond D i x P R := by
  induction x generalizing P P' with
  | done r =>
    cases r with
    | ok a => exact fun w hw h' => hR a w hw (h w hw (hP w hw h'))
    | error e => trivial
  | ask q k ih =>
    obtain ⟨P₀, hP₀, hsta, hk⟩ := h
    refine ⟨P₀, fun w hw h' => hP₀ w hw (hP w hw h'), hsta, fun a => ?_⟩
    obtain ⟨P₁, hser, hres⟩ := hk a
    exact ⟨P₁, hser, ih a hres fun _ _ h' => h'⟩

theorem Guarded.pre (h : Guarded S cond D i x P' R) (hP : ∀ w, D.inv w → P w → P' w) :
    Guarded S cond D i x P R := h.conseq hP fun _ _ _ h' => h'

theorem Guarded.absurd (h : ∀ w, D.inv w → ¬ P w) : Guarded S cond D i x P R := by
  have hfal : Guarded S cond D i x (fun _ => False) R := by
    induction x with
    | done r =>
      cases r with
      | ok a => exact fun _ _ h => h.elim
      | error e => trivial
    | ask q k ih =>
      exact ⟨fun _ => False, fun _ _ h => h, fun _ _ _ _ _ h => h.elim,
        fun a => ⟨fun _ => False, fun _ _ _ h => h.elim, ih a⟩⟩
  exact hfal.pre h

theorem Guarded.bind {R' : β → W → Prop} (hx : Guarded S cond D i x P R)
    (hf : ∀ a, Guarded S cond D i (f a) (R a) R') : Guarded S cond D i (x.bind f) P R' := by
  induction x generalizing P with
  | done r =>
    cases r with
    | ok a => exact (hf a).pre hx
    | error e => trivial
  | ask q k ih =>
    obtain ⟨P₀, hP₀, hsta, hk⟩ := hx
    refine ⟨P₀, hP₀, hsta, fun a => ?_⟩
    obtain ⟨P₁, hser, hres⟩ := hk a
    exact ⟨P₁, hser, ih a hres⟩

theorem Guarded.lift {r : Except ε α} {R : β → W → Prop}
    (h : ∀ a, r = .ok a → Guarded S cond D i (f a) P R) :
    Guarded S cond D i ((Call.lift r : Call Q A ε α).bind f) P R := by
  cases r with
  | ok a => exact h a rfl
  | error e => trivial

theorem Guarded.forM {f : α → Call Q A ε PUnit} {I : List α → W → Prop} :
    ∀ l : List α, (∀ a ∈ l, ∀ rest, Guarded S cond D i (f a) (I (a :: rest)) fun _ => I rest) →
      Guarded S cond D i (l.forM f) (I l) fun _ => I []
  | [], _ => fun _ _ h => h
  | a :: l, hf => (hf a mem_cons_self l).bind fun _ =>
      Guarded.forM l fun b hb => hf b (mem_cons_of_mem a hb)

theorem Guarded.foldlM {f : β → α → Call Q A ε β} {I : List α → β → W → Prop} :
    ∀ (l : List α) (b : β),
      (∀ a ∈ l, ∀ b rest, Guarded S cond D i (f b a) (I (a :: rest) b) fun b' => I rest b') →
      Guarded S cond D i (l.foldlM f b) (I l b) fun b' => I [] b'
  | [], _, _ => fun _ _ h => h
  | a :: l, b, hf => (hf a mem_cons_self b l).bind fun b' =>
      Guarded.foldlM l b' fun c hc => hf c (mem_cons_of_mem a hc)

/-- What a call knows between its requests: it has ended, or it is guarded by a stable fact. -/
def Rests (S : System ι W Q A) (cond : W → Label ι Q A → W → Prop) (D : Discipline ι W Q A) (i : ι)
    (R : α → W → Prop) (x : Call Q A ε α) (w : W) : Prop :=
  (∃ r, x = .done r) ∨ ∃ P : W → Prop, Stable D i P ∧ Guarded S cond D i x P R ∧ P w

theorem Guarded.rests {w : W} (h : Guarded S cond D i x P R) (hinv : D.inv w) (hw : P w) :
    Rests S cond D i R x w ∧ ∀ a, x = .done (.ok a) → R a w := by
  cases x with
  | done r =>
    refine ⟨Or.inl ⟨r, rfl⟩, fun a ha => ?_⟩
    obtain rfl := Call.done.inj ha
    exact h w hinv hw
  | ask q k =>
    obtain ⟨P₀, hP₀, hsta, hk⟩ := h
    exact ⟨Or.inr ⟨P₀, hsta, ⟨P₀, fun _ _ h' => h', hsta, hk⟩, hP₀ w hinv hw⟩, nofun⟩

/-- What a call knows is stable under the steps of the others. -/
theorem Rests.foreign {w w' : W} {l : Label ι Q A} (h : Rests S cond D i R x w) (hinv : D.inv w)
    (hinv' : D.inv w') (hall : D.allowed w l w') (hfor : l.Foreign i) :
    Rests S cond D i R x w' := by
  refine h.imp_right ?_
  rintro ⟨P, hsta, hgua, hP⟩
  exact ⟨P, hsta, hgua, hsta _ _ _ hinv hinv' hP hfor hall⟩

end Rules

section Pools

variable [DecidableEq ι] {S : System ι W Q A} {cond : W → Label ι Q A → W → Prop}
  {D : Discipline ι W Q A}

structure Discipline.Sound (S : System ι W Q A) (D : Discipline ι W Q A) : Prop where
  crash : ∀ i w w', D.inv w → S.crash i w w' → D.inv w' ∧ D.allowed w (.crashed i) w'
  idle : ∀ w w', D.inv w → S.idle w w' → D.inv w' ∧ D.allowed w .idled w'

structure Disciplined (S : System ι W Q A) (cond : W → Label ι Q A → W → Prop)
    (D : Discipline ι W Q A) (R : ι → α → W → Prop) (c : Config ι W Q A ε α) : Prop where
  inv : D.inv c.world
  rests : ∀ i x, c.pool i = .live x → Rests S cond D i (R i) x c.world

variable {c c' c₀ : Config ι W Q A ε α} {l : Label ι Q A} {R : ι → α → W → Prop}

/-- **One step of a disciplined pool** is allowed, and a call that returns with it returns what was
promised. -/
theorem Disciplined.step (hD : D.Sound S) (h : Disciplined S cond D R c) (hste : Step S c l c')
    (hcon : cond c.world l c'.world) : Disciplined S cond D R c' ∧ D.allowed c.world l c'.world ∧
      ∀ i a, c'.pool i = .live (.done (.ok a)) → c.pool i = .live (.done (.ok a)) ∨
        R i a c'.world := by
  cases hste with
  | @asked i q k a w hi hserv =>
    rcases h.rests i _ hi with ⟨r, hr⟩ | ⟨P, _, ⟨P₀, hP₀, _, hk⟩, hP⟩
    · exact absurd hr nofun
    obtain ⟨P', hser, hres⟩ := hk a
    obtain ⟨hinv', hall, hP'⟩ := hser _ _ h.inv (hP₀ _ h.inv hP) hserv hcon
    obtain ⟨hgoe, hkep⟩ := hres.rests hinv' hP'
    refine ⟨⟨hinv', fun j x hx => ?_⟩, hall, fun j b hb => ?_⟩
    · by_cases hj : j = i
      · subst hj
        obtain rfl : k a = x := by simpa using hx
        exact hgoe
      · have hold : c.pool j = .live x := by simpa [update_of_ne hj] using hx
        exact (h.rests j x hold).foreign h.inv hinv' hall (Ne.symm hj)
    · by_cases hj : j = i
      · subst hj
        exact Or.inr (hkep b (by simpa using hb))
      · exact Or.inl (by simpa [update_of_ne hj] using hb)
  | @crashed i q k w hi hcra =>
    obtain ⟨hinv', hall⟩ := hD.crash i _ _ h.inv hcra
    -- The call that crashed is no longer live.
    have hold : ∀ j x, update c.pool i .crashed j = .live x → c.pool j = .live x := by
      intro j x hx
      by_cases hj : j = i
      · subst hj
        simp at hx
      · simpa [update_of_ne hj] using hx
    exact ⟨⟨hinv', fun j x hx => (h.rests j x (hold j x hx)).foreign h.inv hinv' hall trivial⟩,
      hall, fun j b hb => Or.inl (hold j _ hb)⟩
  | @idled w hidl =>
    obtain ⟨hinv', hall⟩ := hD.idle _ _ h.inv hidl
    exact ⟨⟨hinv', fun j x hx => (h.rests j x hx).foreign h.inv hinv' hall trivial⟩, hall,
      fun _ _ hb => Or.inl hb⟩

theorem Disciplined.reach (hD : D.Sound S) (h₀ : Disciplined S cond D R c₀)
    (h : Reach S cond c₀ c) : Disciplined S cond D R c := by
  induction h with
  | refl => exact h₀
  | step _ hste hcon ih => exact (ih.step hD hste hcon).1

theorem Disciplined.reach_allowed (hD : D.Sound S) {cond' : W → Label ι Q A → W → Prop}
    (h₀ : Disciplined S cond D R c₀) (hcon : ∀ w l w', cond' w l w' → cond w l w')
    (h : Reach S cond' c₀ c) :
    Reach S (fun w l w' => cond' w l w' ∧ D.inv w' ∧ D.allowed w l w') c₀ c := by
  have hbot : Disciplined S cond D R c ∧
      Reach S (fun w l w' => cond' w l w' ∧ D.inv w' ∧ D.allowed w l w') c₀ c := by
    induction h with
    | refl => exact ⟨h₀, .refl⟩
    | step _ hste hc ih =>
      obtain ⟨hdon, hall, -⟩ := ih.1.step hD hste (hcon _ _ _ hc)
      exact ⟨hdon, ih.2.step hste ⟨hc, hdon.inv, hall⟩⟩
  exact hbot.2

theorem Disciplined.kept {R : ι → α → Prop} (hD : D.Sound S)
    (h₀ : Disciplined S cond D (fun i a _ => R i a) c₀)
    (hret : ∀ i a, c₀.pool i = .live (.done (.ok a)) → R i a) (h : Reach S cond c₀ c) :
    ∀ i a, c.pool i = .live (.done (.ok a)) → R i a := by
  induction h with
  | refl => exact hret
  | step hrea hste hcon ih =>
    intro i a hdon
    rcases ((h₀.reach hD hrea).step hD hste hcon).2.2 i a hdon with hold | hkep
    · exact ih i a hold
    · exact hkep

end Pools

end SovereignConfig.Lib
