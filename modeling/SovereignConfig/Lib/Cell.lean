/-
Rows under READ COMMITTED. A `Cell` is one row by its key: what is committed there and what an open
transaction has written. Absence is a value like any other. The write is also the row's lock.
-/
import Mathlib.Logic.Function.Basic

namespace SovereignConfig.Lib

/-- One row: the committed version, and the version of the transaction that has written it. -/
@[ext] structure Cell (ι ρ : Type) where
  committed : Option ρ
  pending : Option (ι × Option ρ)

namespace Cell

variable {ι ρ : Type}

def Mine (i : ι) (c : Cell ι ρ) : Prop := ∃ v, c.pending = some (i, v)

def Free (i : ι) (c : Cell ι ρ) : Prop := ∀ j v, c.pending = some (j, v) → j = i

def write (i : ι) (v : Option ρ) (c : Cell ι ρ) : Cell ι ρ := ⟨c.committed, some (i, v)⟩

variable {u : Option ρ} {last : Option ρ → Option ρ}

theorem write_pending {i j : ι} {v : Option ρ} {c : Cell ι ρ} :
    (c.write i v).pending = some (j, u) ↔ j = i ∧ u = v := by
  simp only [write, Option.some.injEq, Prod.mk.injEq, eq_comm]

theorem Free.of_mine {i : ι} {c : Cell ι ρ} (h : c.Mine i) : c.Free i := by
  obtain ⟨v, hv⟩ := h
  intro j u hj
  rw [hv, Option.some.injEq, Prod.mk.injEq] at hj
  exact hj.1.symm

theorem write_pending_other {i j : ι} {v : Option ρ} {c : Cell ι ρ} (h : c.Free i) (hj : j ≠ i) :
    (c.write i v).pending = some (j, u) ↔ c.pending = some (j, u) :=
  iff_of_false (fun hw => hj (write_pending.mp hw).1) fun hc => hj (h j u hc)

variable [DecidableEq ι]

def seen (i : ι) (c : Cell ι ρ) : Option ρ :=
  match c.pending with
  | some (j, v) => if j = i then v else c.committed
  | none => c.committed

/-- The end of transaction `i`: its write is no longer pending, and `last` of it is committed. -/
def release (i : ι) (last : Option ρ → Option ρ) (c : Cell ι ρ) : Cell ι ρ :=
  match c.pending with
  | some (j, v) => if j = i then ⟨last v, none⟩ else c
  | none => c

def commit (i : ι) (c : Cell ι ρ) : Cell ι ρ := c.release i id

def abort (i : ι) (c : Cell ι ρ) : Cell ι ρ := c.release i fun _ => c.committed

variable {i j : ι} {v : Option ρ} {c : Cell ι ρ}

theorem seen_of_pending (h : c.pending = some (i, v)) : c.seen i = v := by
  simp [seen, h]

theorem seen_of_not_mine (h : ¬ c.Mine i) : c.seen i = c.committed := by
  unfold seen
  split
  · rename_i j u hp
    exact if_neg fun hj : j = i => h ⟨u, hj ▸ hp⟩
  · rfl

omit [DecidableEq ι] in
theorem Mine.unique (hi : c.Mine i) (hj : c.Mine j) : i = j := by
  obtain ⟨u, hu⟩ := hj
  exact (Free.of_mine hi j u hu).symm

theorem seen_eq_some {r : ρ} (h : c.seen i = some r) :
    c.pending = some (i, some r) ∨ ¬ c.Mine i ∧ c.committed = some r := by
  by_cases hm : c.Mine i
  · obtain ⟨v, hv⟩ := hm
    exact Or.inl (by rw [hv, ← h, seen_of_pending hv])
  · exact Or.inr ⟨hm, seen_of_not_mine hm ▸ h⟩

theorem seen_cases (i : ι) (c : Cell ι ρ) :
    (c.pending = some (i, c.seen i)) ∨ (¬ c.Mine i ∧ c.seen i = c.committed) := by
  by_cases h : c.Mine i
  · obtain ⟨v, hv⟩ := h
    exact Or.inl (by rw [seen_of_pending hv, hv])
  · exact Or.inr ⟨h, seen_of_not_mine h⟩

theorem release_pending :
    (c.release i last).pending = some (j, v) ↔ c.pending = some (j, v) ∧ j ≠ i := by
  unfold release
  split
  · rename_i k u hp
    rw [hp, Option.some.injEq, Prod.mk.injEq]
    split
    · rename_i hk
      exact iff_of_false (by simp) fun h => h.2 (h.1.1.symm.trans hk)
    · rename_i hk
      rw [hp, Option.some.injEq, Prod.mk.injEq]
      exact ⟨fun h => ⟨h, fun hj => hk (h.1.trans hj)⟩, fun h => h.1⟩
  · rename_i hp
    simp [hp]

theorem release_of_not_mine (h : ¬ c.Mine i) : c.release i last = c := by
  unfold release
  split
  · rename_i j u hp
    exact if_neg fun hj : j = i => h ⟨u, hj ▸ hp⟩
  · rfl

theorem commit_of_not_mine (h : ¬ c.Mine i) : c.commit i = c := release_of_not_mine h

theorem commit_of_pending (h : c.pending = some (i, v)) : c.commit i = ⟨v, none⟩ := by
  simp [commit, release, h]

theorem seen_abort (hj : j ≠ i) : (c.abort i).seen j = c.seen j := by
  by_cases h : c.Mine i
  · obtain ⟨v, hv⟩ := h
    have hnot : ¬ c.Mine j := fun h => hj (h.unique ⟨v, hv⟩)
    rw [seen_of_not_mine hnot]
    simp [abort, release, hv, seen]
  · rw [abort, release_of_not_mine h]

theorem seen_write (hj : j ≠ i) (h : c.Free i) : (c.write i v).seen j = c.seen j := by
  have hnot : ¬ c.Mine j := fun ⟨u, hu⟩ => hj (h j u hu)
  have hnot' : ¬ (c.write i v).Mine j := fun ⟨u, hu⟩ => hj (write_pending.mp hu).1
  rw [seen_of_not_mine hnot, seen_of_not_mine hnot']
  rfl

theorem commit_pending : (c.commit i).pending = some (j, v) ↔ c.pending = some (j, v) ∧ j ≠ i :=
  release_pending

theorem abort_pending : (c.abort i).pending = some (j, v) ↔ c.pending = some (j, v) ∧ j ≠ i :=
  release_pending

theorem mine_commit : (c.commit i).Mine j ↔ c.Mine j ∧ j ≠ i := by
  simp only [Mine, commit_pending, exists_and_right]

theorem mine_abort : (c.abort i).Mine j ↔ c.Mine j ∧ j ≠ i := by
  simp only [Mine, abort_pending, exists_and_right]

@[simp] theorem commit_committed : (c.commit i).committed = c.seen i := by
  unfold commit release seen
  split
  · split
    · rfl
    · rfl
  · rfl

@[simp] theorem abort_committed : (c.abort i).committed = c.committed := by
  unfold abort release
  split
  · split
    · rfl
    · rfl
  · rfl

end Cell

end SovereignConfig.Lib
