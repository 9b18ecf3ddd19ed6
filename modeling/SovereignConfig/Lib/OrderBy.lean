/-
`ORDER BY key` on a table with distinct keys, as the one strictly increasing list of its rows.
-/
import Mathlib.Data.List.Sort
import Mathlib.Order.Defs.LinearOrder

namespace SovereignConfig.Lib

open List

variable {α κ : Type} [LinearOrder κ]

/-- `ORDER BY key`. -/
def order_by (key : α → κ) (rows : List α) : List α :=
  rows.insertionSort fun a b => key a ≤ key b

variable {key : α → κ} {rows rows' : List α}

theorem order_by_perm (rows : List α) : (order_by key rows).Perm rows :=
  perm_insertionSort _ _

theorem mem_order_by {row : α} : row ∈ order_by key rows ↔ row ∈ rows :=
  (order_by_perm rows).mem_iff

theorem order_by_increasing (h : (rows.map key).Nodup) :
    (order_by key rows).Pairwise fun a b => key a < key b := by
  have hsor : (order_by key rows).Pairwise fun a b => key a ≤ key b := by
    have : Std.Total fun a b : α => key a ≤ key b := ⟨fun a b => le_total (key a) (key b)⟩
    have : IsTrans α fun a b : α => key a ≤ key b := ⟨fun a b c hab hbc => hab.trans hbc⟩
    exact pairwise_insertionSort _ _
  have hdis : (order_by key rows).Pairwise fun a b => key a ≠ key b := by
    have hnod : ((order_by key rows).map key).Nodup :=
      ((order_by_perm rows).map key).nodup_iff.mpr h
    exact pairwise_map.mp hnod
  exact (hsor.and hdis).imp fun hab => lt_of_le_of_ne hab.1 hab.2

theorem eq_of_increasing (h : rows.Pairwise fun a b => key a < key b)
    (h' : rows'.Pairwise fun a b => key a < key b) (hmem : ∀ row, row ∈ rows ↔ row ∈ rows') :
    rows = rows' := by
  have hnod : ∀ {l : List α}, l.Pairwise (fun a b => key a < key b) → l.Nodup :=
    fun hl => hl.imp fun hab heq => absurd (heq ▸ hab) (lt_irrefl _)
  refine List.Perm.eq_of_pairwise (fun _ _ _ _ hab hba => absurd (hab.trans hba) (lt_irrefl _)) h h' ?_
  exact (perm_ext_iff_of_nodup (hnod h) (hnod h')).mpr hmem

end SovereignConfig.Lib
