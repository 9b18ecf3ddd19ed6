/-
Keyset paging: each page starts after the key of the last row before, and one row past the page
tells whether there is another. Between two pages the table may change, but a row keeps its key.
-/
import Mathlib.Data.List.Perm.Subperm
import Mathlib.Order.Lattice
import SovereignConfig.Lib.Keyed
import SovereignConfig.Lib.OrderBy

namespace SovereignConfig.Lib

open List

section Keyset

variable {α κ : Type} [LinearOrder κ] (key : α → κ)

/-- `ORDER BY key DESC`. -/
def descending (rows : List α) : List α := order_by (fun row => OrderDual.toDual (key row)) rows

/-- `key < after`, when there is a cursor. -/
def before (after : Option κ) (row : α) : Bool := after.all fun k => decide (key row < k)

/-- `WHERE key < after ORDER BY key DESC LIMIT limit`. -/
def fetch (after : Option κ) (limit : ℕ) (rows : List α) : List α :=
  (descending key (rows.filter (before key after))).take limit

variable {key} {rows rows' : List α} {after : Option κ} {n : ℕ}

theorem before_none (row : α) : before key none row = true := rfl

theorem descending_perm (rows : List α) : (descending key rows).Perm rows :=
  order_by_perm rows

variable {row last : α} {k : κ} {used : List κ}

theorem mem_descending : row ∈ descending key rows ↔ row ∈ rows :=
  (descending_perm rows).mem_iff

theorem descending_pairwise (h : (rows.map key).Nodup) :
    (descending key rows).Pairwise fun a b => key b < key a :=
  order_by_increasing (κ := κᵒᵈ) h

theorem eq_of_decreasing (h : rows.Pairwise fun a b => key b < key a)
    (h' : rows'.Pairwise fun a b => key b < key a) (hmem : ∀ row, row ∈ rows ↔ row ∈ rows') :
    rows = rows' :=
  eq_of_increasing (κ := κᵒᵈ) h h' hmem

theorem descending_congr (hper : rows.Perm rows') (h : (rows.map key).Nodup) :
    descending key rows = descending key rows' := by
  have h' : (rows'.map key).Nodup := (hper.map key).nodup_iff.mp h
  exact eq_of_decreasing (descending_pairwise h) (descending_pairwise h')
    fun row => by rw [mem_descending, mem_descending, hper.mem_iff]

/-! ## One page -/

abbrev remaining (key : α → κ) (after : Option κ) (rows : List α) : List α :=
  descending key (rows.filter (before key after))

theorem mem_remaining : row ∈ remaining key after rows ↔ row ∈ rows ∧ ∀ k ∈ after, key row < k := by
  rw [mem_descending, mem_filter, before]
  cases after with
  | none => simp
  | some k => simp

theorem remaining_pairwise (h : (rows.map key).Nodup) (after : Option κ) :
    (remaining key after rows).Pairwise fun a b => key b < key a :=
  descending_pairwise (nodup_filter_key h _)

theorem remaining_after_last (h : (rows.map key).Nodup)
    (hlas : ((remaining key after rows).take n).getLast? = some last) :
    remaining key (some (key last)) rows = (remaining key after rows).drop n := by
  have hsor := remaining_pairwise h after
  obtain ⟨front, hfro⟩ := getLast?_eq_some_iff.mp hlas
  have hspl : remaining key after rows
      = (front ++ [last]) ++ (remaining key after rows).drop n := by
    rw [← hfro, take_append_drop]
  rw [hspl, pairwise_append] at hsor
  obtain ⟨hsho, hres, hcro⟩ := hsor
  have hmem : last ∈ remaining key after rows := by
    rw [hspl]
    simp
  -- Both sides are strictly decreasing lists of the rows below the last one shown.
  refine eq_of_decreasing (remaining_pairwise h _) hres fun row => ?_
  rw [mem_remaining]
  constructor
  · rintro ⟨hrow, hbel⟩
    have hlt : key row < key last := hbel _ rfl
    have hall : row ∈ remaining key after rows :=
      mem_remaining.mpr ⟨hrow, fun k hk => hlt.trans ((mem_remaining.mp hmem).2 k hk)⟩
    rw [hspl] at hall
    rcases mem_append.mp hall with hin | hin
    · exfalso
      rcases mem_append.mp hin with hin | hin
      · exact absurd (hlt.trans ((pairwise_append.mp hsho).2.2 row hin last (by simp)))
          (lt_irrefl _)
      · rw [mem_singleton.mp hin] at hlt
        exact lt_irrefl _ hlt
    · exact hin
  · intro hrow
    refine ⟨(mem_remaining.mp (mem_of_mem_drop hrow)).1, fun k hk => ?_⟩
    obtain rfl := Option.some.inj hk
    exact hcro last (by simp) row hrow

abbrev shown (key : α → κ) (after : Option κ) (n : ℕ) (rows : List α) : List α :=
  (fetch key after (n + 1) rows).take n

theorem shown_eq (after : Option κ) (n : ℕ) (rows : List α) :
    shown key after n rows = (remaining key after rows).take n := by
  rw [shown, fetch, take_take, Nat.min_eq_left (Nat.le_succ n)]

theorem lt_length_fetch :
    n < (fetch key after (n + 1) rows).length ↔ n < (remaining key after rows).length := by
  show n < ((remaining key after rows).take (n + 1)).length ↔ _
  rw [length_take]
  omega

theorem mem_shown (h : row ∈ shown key after n rows) : row ∈ rows ∧ ∀ k ∈ after, key row < k := by
  rw [shown_eq] at h
  exact mem_remaining.mp (mem_of_mem_take h)

theorem shown_pairwise (h : (rows.map key).Nodup) (after : Option κ) (n : ℕ) :
    (shown key after n rows).Pairwise fun a b => key b < key a := by
  rw [shown_eq]
  exact (remaining_pairwise h after).sublist (take_sublist _ _)

theorem shown_all (hmor : ¬ n < (fetch key after (n + 1) rows).length) :
    shown key after n rows = remaining key after rows := by
  rw [lt_length_fetch, not_lt] at hmor
  rw [shown_eq, take_of_length_le hmor]

theorem shown_full (hn : 0 < n) (hmor : n < (fetch key after (n + 1) rows).length) :
    (shown key after n rows).length = n ∧ ∃ last, (shown key after n rows).getLast? = some last := by
  rw [lt_length_fetch] at hmor
  have hlength : (shown key after n rows).length = n := by
    rw [shown_eq, length_take, Nat.min_eq_left hmor.le]
  refine ⟨hlength, ?_⟩
  have hne : shown key after n rows ≠ [] := by
    intro hnil
    rw [hnil, length_nil] at hlength
    omega
  exact ⟨_, getLast?_eq_getLast_of_ne_nil hne⟩

theorem remaining_next (h : (rows.map key).Nodup)
    (hlas : (shown key after n rows).getLast? = some last) :
    remaining key (some (key last)) rows = (remaining key after rows).drop n := by
  rw [shown_eq] at hlas
  exact remaining_after_last h hlas

theorem cursor_leads (h : (rows.map key).Nodup)
    (hlas : (shown key after n rows).getLast? = some last)
    (hmor : n < (fetch key after (n + 1) rows).length) {m : ℕ} (hm : 0 < m) :
    shown key (some (key last)) m rows ≠ [] := by
  rw [lt_length_fetch] at hmor
  rw [shown_eq, remaining_next h hlas]
  intro hnil
  have hlength := congrArg List.length hnil
  rw [length_take, length_drop, length_nil] at hlength
  omega

/-! ## A scroll -/

/-- The pages read from page `i` on, the table being `tables i` when page `i` is read. -/
inductive Scroll (key : α → κ) (n : ℕ) (tables : ℕ → List α) :
    ℕ → Option κ → List (List α) → Prop
  | last {i : ℕ} {after : Option κ} :
      ¬ n < (fetch key after (n + 1) (tables i)).length →
      Scroll key n tables i after [shown key after n (tables i)]
  | more {i : ℕ} {after : Option κ} {row : α} {pages : List (List α)} :
      n < (fetch key after (n + 1) (tables i)).length →
      (shown key after n (tables i)).getLast? = some row →
      Scroll key n tables (i + 1) (some (key row)) pages →
      Scroll key n tables i after (shown key after n (tables i) :: pages)

variable {tables : ℕ → List α} {i : ℕ} {pages : List (List α)}

section Scroll

variable (h : Scroll key n tables i after pages)
include h

theorem Scroll.before_cursor : ∀ row ∈ pages.flatten, ∀ k ∈ after, key row < k := by
  induction h with
  | last hend =>
    intro row hrow
    rw [flatten_singleton] at hrow
    exact (mem_shown hrow).2
  | @more i after last pages hmor hlas hres ih =>
    intro row hrow k hk
    rw [flatten_cons, mem_append] at hrow
    rcases hrow with hrow | hrow
    · exact (mem_shown hrow).2 k hk
    · have hmem : last ∈ shown key after n (tables i) := mem_of_getLast? hlas
      exact (ih row hrow _ rfl).trans ((mem_shown hmem).2 k hk)

theorem Scroll.decreasing (hkey : ∀ j, ((tables j).map key).Nodup) :
    pages.flatten.Pairwise fun a b => key b < key a := by
  induction h with
  | last hend =>
    rw [flatten_singleton]
    exact shown_pairwise (hkey _) _ _
  | @more i after last pages hmor hlas hres ih =>
    rw [flatten_cons, pairwise_append]
    have hpag := shown_pairwise (hkey i) after n
    refine ⟨hpag, ih, fun a ha b hb => ?_⟩
    have hbel : key b < key last := hres.before_cursor b hb _ rfl
    -- The last row shown is the least of its page.
    obtain ⟨front, hfro⟩ := getLast?_eq_some_iff.mp hlas
    rw [hfro] at ha hpag
    rcases mem_append.mp ha with ha | ha
    · exact hbel.trans ((pairwise_append.mp hpag).2.2 a ha last (by simp))
    · rw [mem_singleton.mp ha]
      exact hbel

theorem Scroll.sound : ∀ row ∈ pages.flatten, ∃ j, i ≤ j ∧ row ∈ tables j := by
  induction h with
  | @last i after hend =>
    intro row hrow
    rw [flatten_singleton] at hrow
    exact ⟨i, le_refl i, (mem_shown hrow).1⟩
  | @more i after last pages hmor hlas hres ih =>
    intro row hrow
    rw [flatten_cons, mem_append] at hrow
    rcases hrow with hrow | hrow
    · exact ⟨i, le_refl i, (mem_shown hrow).1⟩
    · obtain ⟨j, hj, hmem⟩ := ih row hrow
      exact ⟨j, (Nat.le_succ i).trans hj, hmem⟩

theorem Scroll.complete (hkey : ∀ j, ((tables j).map key).Nodup) (hbel : ∀ a ∈ after, k < a)
    (hsel : ∀ j, i ≤ j → j < i + pages.length → ∃ row ∈ tables j, key row = k) :
    ∃ row ∈ pages.flatten, key row = k := by
  induction h with
  | @last i after hend =>
    obtain ⟨row, hrow, rfl⟩ := hsel i (le_refl i) (by simp)
    refine ⟨row, ?_, rfl⟩
    rw [flatten_singleton, shown_all hend]
    exact mem_remaining.mpr ⟨hrow, hbel⟩
  | @more i after last pages hmor hlas hres ih =>
    obtain ⟨row, hrow, rfl⟩ := hsel i (le_refl i) (by simp)
    have hmem : row ∈ remaining key after (tables i) := mem_remaining.mpr ⟨hrow, hbel⟩
    rw [← take_append_drop n (remaining key after (tables i)), mem_append] at hmem
    rcases hmem with hpag | hlat
    · refine ⟨row, ?_, rfl⟩
      rw [flatten_cons, mem_append, shown_eq]
      exact Or.inl hpag
    · -- Not on this page: it lies below the cursor, and is selected on the pages to come.
      rw [← remaining_next (hkey i) hlas] at hlat
      obtain ⟨found, hfou, heq⟩ := ih (mem_remaining.mp hlat).2 fun j hj hlt =>
        hsel j ((Nat.le_succ i).trans hj) (by rw [length_cons]; omega)
      refine ⟨found, ?_, heq⟩
      rw [flatten_cons, mem_append]
      exact Or.inr hfou

theorem Scroll.full (hn : 0 < n) : ∀ page ∈ pages.dropLast, page.length = n := by
  induction h with
  | last hend => simp
  | @more i after last pages hmor hlas hres ih =>
    have hne : pages ≠ [] := by cases hres <;> simp
    rw [dropLast_cons_of_ne_nil hne]
    intro page hpag
    rcases mem_cons.mp hpag with rfl | hpag
    · exact (shown_full hn hmor).1
    · exact ih page hpag

end Scroll

theorem Scroll.exact (h : Scroll key n (fun _ => rows) i after pages)
    (hkey : (rows.map key).Nodup) : pages.flatten = remaining key after rows := by
  induction h with
  | last hend => rw [flatten_singleton, shown_all hend]
  | @more i after last pages hmor hlas hres ih =>
    rw [flatten_cons, ih, remaining_next hkey hlas, shown_eq, take_append_drop]

def passed (after : Option κ) (used : List κ) : ℕ :=
  (used.filter fun k => after.any fun a => decide (a ≤ k)).length

theorem passed_mono {used' : List κ} (hnod : used.Nodup) (hsub : used ⊆ used')
    (after : Option κ) : passed after used ≤ passed after used' := by
  refine (List.Nodup.subperm (hnod.filter _) fun k hk => ?_).length_le
  obtain ⟨hmem, hcon⟩ := mem_filter.mp hk
  exact mem_filter.mpr ⟨hsub hmem, hcon⟩

theorem passed_le (after : Option κ) (used : List κ) : passed after used ≤ used.length :=
  length_filter_le _ _

theorem passed_lt (huse : k ∈ used) (hbel : ∀ a ∈ after, k < a) :
    passed after used < passed (some k) used := by
  have hsub : (used.filter fun j => (some k).any fun a => decide (a ≤ j)).filter
      (fun j => after.any fun a => decide (a ≤ j))
      = used.filter fun j => after.any fun a => decide (a ≤ j) := by
    rw [filter_filter]
    refine filter_congr fun j _ => ?_
    cases after with
    | none => simp
    | some a =>
      have hka := hbel a rfl
      simp only [Option.any_some]
      by_cases hle : a ≤ j
      · simp [hle, hka.le.trans hle]
      · simp [hle]
  unfold passed
  rw [← hsub, length_filter_lt_length_iff_exists]
  refine ⟨k, mem_filter.mpr ⟨huse, by simp⟩, ?_⟩
  cases after with
  | none => simp
  | some a => simpa using hbel a rfl

/-- **A scroll comes to an end,** if no more than `bound` keys are ever in use and a key once in
use stays so. -/
theorem scroll_ends (hn : 0 < n) {used : ℕ → List κ} (hnod : ∀ j, (used j).Nodup)
    (hsta : ∀ j, used j ⊆ used (j + 1)) (huse : ∀ j, ∀ row ∈ tables j, key row ∈ used j)
    {bound : ℕ} (hbou : ∀ j, (used j).length ≤ bound) :
    ∀ (i : ℕ) (after : Option κ), ∃ pages, Scroll key n tables i after pages := by
  intro i after
  -- Every page but the last passes a key, and there are at most `bound` of them to pass.
  induction hlef : bound - passed after (used i) using Nat.strong_induction_on
    generalizing i after with
  | _ left ih =>
    by_cases hmor : n < (fetch key after (n + 1) (tables i)).length
    · obtain ⟨-, last, hlas⟩ := shown_full hn hmor
      have hmem := mem_shown (mem_of_getLast? hlas)
      have hlt := passed_lt (huse i last hmem.1) hmem.2
      have hle := (passed_le (some (key last)) (used i)).trans (hbou i)
      have hmon := passed_mono (hnod i) (hsta i) (some (key last))
      obtain ⟨pages, hpages⟩ := ih _ (by omega) (i + 1) (some (key last)) rfl
      exact ⟨_, .more hmor hlas hpages⟩
    · exact ⟨_, .last hmor⟩

end Keyset

end SovereignConfig.Lib
