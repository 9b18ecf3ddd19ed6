/-
Transactions that lock as they go. If every request is covered by a lock already held or goes
beyond every key held in some fixed order, no reachable state has a cycle of waiting transactions.
-/
import Mathlib.Logic.Function.Basic
import Mathlib.Logic.Relation
import Mathlib.Order.Basic

namespace SovereignConfig.Lib

open List Function

structure LockRequest (K : Type) where
  key : K
  exclusive : Bool
deriving DecidableEq

def LockRequest.Conflicts {K : Type} (r r' : LockRequest K) : Prop :=
  r.key = r'.key ∧ (r.exclusive = true ∨ r'.exclusive = true)

instance {K : Type} [DecidableEq K] (r r' : LockRequest K) : Decidable (r.Conflicts r') :=
  inferInstanceAs (Decidable (r.key = r'.key ∧ (r.exclusive = true ∨ r'.exclusive = true)))

structure Txn (K : Type) where
  held : List (LockRequest K)
  todo : List (LockRequest K)

section Waiting

variable {ι K : Type}

def Grantable (s : ι → Txn K) (i : ι) (r : LockRequest K) : Prop :=
  ∀ j, j ≠ i → ∀ r' ∈ (s j).held, ¬ r.Conflicts r'

def Waits (s : ι → Txn K) (i j : ι) : Prop :=
  j ≠ i ∧ ∃ r rest, (s i).todo = r :: rest ∧ ∃ r' ∈ (s j).held, r.Conflicts r'

def Deadlocked (s : ι → Txn K) : Prop := ∃ i, Relation.TransGen (Waits s) i i

variable [DecidableEq ι]

/-- What every two hold stays apart when one is granted what is apart from what the others hold. -/
theorem granted {L : Type} {held : ι → List L} {R : L → L → Prop} {i : ι} {r : L}
    (h : ∀ j k, j ≠ k → ∀ x ∈ held j, ∀ y ∈ held k, ¬ R x y)
    (hgra : ∀ j, j ≠ i → ∀ x ∈ held j, ¬ R x r) (hgra' : ∀ j, j ≠ i → ∀ x ∈ held j, ¬ R r x) :
    ∀ j k, j ≠ k → ∀ x ∈ update held i (r :: held i) j,
      ∀ y ∈ update held i (r :: held i) k, ¬ R x y := by
  intro j k hjk x hx y hy
  by_cases hj : j = i
  · subst hj
    rw [update_self] at hx
    rw [update_of_ne (Ne.symm hjk)] at hy
    rcases mem_cons.mp hx with rfl | hx
    · exact hgra' k (Ne.symm hjk) y hy
    · exact h j k hjk x hx y hy
  · rw [update_of_ne hj] at hx
    by_cases hk : k = i
    · subst hk
      rw [update_self] at hy
      rcases mem_cons.mp hy with rfl | hy
      · exact hgra j hj x hx
      · exact h j k hjk x hx y hy
    · rw [update_of_ne hk] at hy
      exact h j k hjk x hx y hy

/-- One step: a transaction gets the lock it asks for, or ends, at whatever
point, and releases everything. -/
inductive LockStep : (ι → Txn K) → (ι → Txn K) → Prop
  | acquire {s : ι → Txn K} {i : ι} {r : LockRequest K} {rest : List (LockRequest K)} :
      (s i).todo = r :: rest → Grantable s i r →
      LockStep s (update s i ⟨r :: (s i).held, rest⟩)
  | finish {s : ι → Txn K} {i : ι} : LockStep s (update s i ⟨[], []⟩)

def LockReach (plans : ι → List (LockRequest K)) : (ι → Txn K) → Prop :=
  Relation.ReflTransGen LockStep (fun i => ⟨[], plans i⟩)

theorem LockReach.acquire_all {plans : ι → List (LockRequest K)} {i : ι}
    {rest : List (LockRequest K)} : ∀ {wanted : List (LockRequest K)} {s : ι → Txn K},
    LockReach plans s → (s i).todo = wanted ++ rest → (∀ r ∈ wanted, Grantable s i r) →
    LockReach plans (update s i ⟨wanted.reverse ++ (s i).held, rest⟩) := by
  intro wanted
  induction wanted with
  | nil =>
    intro s hs htod _
    have hsam : (⟨[].reverse ++ (s i).held, rest⟩ : Txn K) = s i := by
      rw [nil_append] at htod
      simp [← htod]
    rw [hsam, update_eq_self]
    exact hs
  | cons r wanted ih =>
    intro s hs htod hfre
    rw [cons_append] at htod
    have hnex := hs.tail (LockStep.acquire htod (hfre r mem_cons_self))
    -- What the transaction itself gained is no obstacle to its next request.
    have hfre' : ∀ q ∈ wanted,
        Grantable (update s i ⟨r :: (s i).held, wanted ++ rest⟩) i q := by
      intro q hq j hj
      rw [update_of_ne hj]
      exact hfre q (mem_cons_of_mem _ hq) j hj
    have hres := ih hnex (by rw [update_self]) hfre'
    simpa using hres

theorem LockReach.crossed {plans : Fin 2 → List (LockRequest K)}
    {a b c d : List (LockRequest K)} {r t : LockRequest K} (h₀ : plans 0 = a ++ r :: c)
    (h₁ : plans 1 = b ++ t :: d) (hfre : ∀ x ∈ b, ∀ y ∈ a, ¬ x.Conflicts y)
    (hr : ∃ y ∈ b, r.Conflicts y) (ht : ∃ x ∈ a, t.Conflicts x) :
    ∃ s, LockReach plans s ∧ Deadlocked s := by
  have start : LockReach plans fun i => ⟨[], plans i⟩ := Relation.ReflTransGen.refl
  have first := start.acquire_all (i := 0) h₀ fun _ _ _ _ _ hy => absurd hy not_mem_nil
  have second := @LockReach.acquire_all _ _ _ plans 1 (t :: d) b _ first (by simpa using h₁) (by
    intro x hx j hj y hy
    obtain rfl : j = 0 := by omega
    exact hfre x hx y (by simpa using hy))
  refine ⟨_, second, 0, (Relation.TransGen.single (b := 1) ?_).tail ?_⟩
  · obtain ⟨y, hy, hc⟩ := hr
    exact ⟨by decide, r, c, by simp, y, by simpa using hy, hc⟩
  · obtain ⟨x, hx, hc⟩ := ht
    exact ⟨by decide, t, d, by simp, x, by simpa using hx, hc⟩

section Ordered

variable {L : Type} [Preorder L] (rank : K → L)

def Covered (held : List (LockRequest K)) (r : LockRequest K) : Prop :=
  ∃ r' ∈ held, r'.key = r.key ∧ (r.exclusive = true → r'.exclusive = true)

def Ordered : List (LockRequest K) → List (LockRequest K) → Prop
  | _, [] => True
  | held, r :: rest =>
      (Covered held r ∨ ∀ r' ∈ held, rank r'.key < rank r.key) ∧ Ordered (r :: held) rest

variable {rank}

variable {held plan rest : List (LockRequest K)} {r r' : LockRequest K} {s : ι → Txn K}
  {plans : ι → List (LockRequest K)} {i j : ι}

omit [DecidableEq ι] in
theorem ordered_append :
    Ordered rank held (plan ++ rest) ↔
      Ordered rank held plan ∧ Ordered rank (plan.reverse ++ held) rest := by
  induction plan generalizing held with
  | nil => simp [Ordered]
  | cons r plan ih => simp [Ordered, ih, and_assoc]

theorem Ordered.of_pairwise (hup : plan.Pairwise fun r r' => rank r.key < rank r'.key)
    (h : ∀ r ∈ plan, Covered held r ∨ ∀ r' ∈ held, rank r'.key < rank r.key) :
    Ordered rank held plan := by
  induction plan generalizing held with
  | nil => trivial
  | cons r plan ih =>
    obtain ⟨hr, hup⟩ := pairwise_cons.mp hup
    refine ⟨h r mem_cons_self, ih hup fun q hq => ?_⟩
    rcases h q (mem_cons_of_mem r hq) with ⟨r', hr', hcov⟩ | hnew
    · exact Or.inl ⟨r', mem_cons_of_mem r hr', hcov⟩
    · refine Or.inr fun r' hr' => ?_
      rcases mem_cons.mp hr' with rfl | hr'
      · exact hr q hq
      · exact hnew r' hr'

/-- What holds in every reachable state of ordered plans: what is left of each
plan is ordered after what is held, and no two transactions hold conflicting
locks. -/
structure LockInvariant (rank : K → L) (s : ι → Txn K) : Prop where
  ordered : ∀ i, Ordered rank (s i).held (s i).todo
  exclusion : ∀ i j, j ≠ i → ∀ r ∈ (s i).held, ∀ r' ∈ (s j).held, ¬ r.Conflicts r'

theorem LockRequest.Conflicts.symm (h : r.Conflicts r') :
    r'.Conflicts r := ⟨h.1.symm, h.2.symm⟩

theorem LockInvariant.step {s' : ι → Txn K} (hs : LockInvariant rank s) (hste : LockStep s s') :
    LockInvariant rank s' := by
  cases hste with
  | @acquire i r rest htod hfre =>
    have hord := hs.ordered i
    rw [htod] at hord
    refine ⟨fun j => ?_, fun j k hkj q hq q' hq' => ?_⟩
    · by_cases hj : j = i
      · subst hj
        rw [update_self]
        exact hord.2
      · rw [update_of_ne hj]
        exact hs.ordered j
    · by_cases hj : j = i
      · subst hj
        rw [update_self] at hq
        rw [update_of_ne hkj] at hq'
        rcases mem_cons.mp hq with rfl | hold
        · exact hfre k hkj q' hq'
        · exact hs.exclusion j k hkj q hold q' hq'
      · rw [update_of_ne hj] at hq
        by_cases hk : k = i
        · subst hk
          rw [update_self] at hq'
          rcases mem_cons.mp hq' with rfl | hold
          · exact fun hc => hfre j hj q hq hc.symm
          · exact hs.exclusion j k hkj q hq q' hold
        · rw [update_of_ne hk] at hq'
          exact hs.exclusion j k hkj q hq q' hq'
  | @finish i =>
    refine ⟨fun j => ?_, fun j k hkj q hq q' hq' => ?_⟩
    · by_cases hj : j = i
      · subst hj
        rw [update_self]
        trivial
      · rw [update_of_ne hj]
        exact hs.ordered j
    · by_cases hj : j = i
      · subst hj
        simp [update_self] at hq
      · rw [update_of_ne hj] at hq
        by_cases hk : k = i
        · subst hk
          simp [update_self] at hq'
        · rw [update_of_ne hk] at hq'
          exact hs.exclusion j k hkj q hq q' hq'

theorem LockReach.lockInvariant (hpla : ∀ i, Ordered rank [] (plans i)) (h : LockReach plans s) :
    LockInvariant rank s := by
  induction h with
  | refl => exact ⟨hpla, fun _ _ _ _ hr => absurd hr not_mem_nil⟩
  | tail _ hste ih => exact ih.step hste

omit [DecidableEq ι] in
theorem LockInvariant.beyond (hs : LockInvariant rank s) (hji : j ≠ i)
    (htod : (s i).todo = r :: rest) (hr' : r' ∈ (s j).held) (hcon : r.Conflicts r') :
    ∀ q ∈ (s i).held, rank q.key < rank r.key := by
  have hord := hs.ordered i
  rw [htod] at hord
  rcases hord.1 with ⟨q, hq, hkey, hstr⟩ | hnew
  · exfalso
    refine hs.exclusion i j hji q hq r' hr' ⟨hkey.trans hcon.1, ?_⟩
    exact hcon.2.imp_left hstr
  · exact hnew

omit [DecidableEq ι] in
theorem LockInvariant.chain (hs : LockInvariant rank s) (h : Relation.TransGen (Waits s) i j) :
    ∃ r rest, (s i).todo = r :: rest ∧ ∃ q ∈ (s j).held, rank r.key ≤ rank q.key := by
  induction h with
  | single hw =>
    obtain ⟨_, r, rest, htod, q, hq, hcon⟩ := hw
    exact ⟨r, rest, htod, q, hq, le_of_eq (congrArg rank hcon.1)⟩
  | tail _ hw ih =>
    obtain ⟨r, rest, htod, q, hq, hle⟩ := ih
    obtain ⟨hne, r₁, rest₁, htod₁, q₁, hq₁, hcon⟩ := hw
    have hlt := hs.beyond hne htod₁ hq₁ hcon q hq
    exact ⟨r, rest, htod, q₁, hq₁, hle.trans (hlt.le.trans (le_of_eq (congrArg rank hcon.1)))⟩

theorem LockReach.not_deadlocked (hpla : ∀ i, Ordered rank [] (plans i)) (h : LockReach plans s) :
    ¬ Deadlocked s := by
  have hs := h.lockInvariant hpla
  rintro ⟨i, hcyc⟩
  obtain ⟨r, rest, htod, q, hq, hle⟩ := hs.chain hcyc
  -- The first wait of the cycle puts everything `i` holds below its request.
  obtain ⟨j, hw, _⟩ := Relation.TransGen.head'_iff.mp hcyc
  obtain ⟨hne, r', rest', htod', q', hq', hcon⟩ := hw
  obtain ⟨rfl, _⟩ := List.cons.inj (htod.symm.trans htod')
  exact absurd (hs.beyond hne htod hq' hcon q hq) (not_lt_of_ge hle)

end Ordered

end Waiting

end SovereignConfig.Lib
