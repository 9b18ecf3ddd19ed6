/-
Ordered maps whose keys are compared through a fold. Writing to a key that is there leaves it as it
was first written.
-/
import Mathlib.Data.List.Sort
import Mathlib.Data.List.Perm.Basic

namespace SovereignConfig.Lib.FoldMap

open List

variable {κ φ ν : Type} [LinearOrder φ] {fold : κ → φ} {k : κ} {v : ν} {m : List (κ × ν)}

def find (fold : κ → φ) (k : κ) (m : List (κ × ν)) : Option ν :=
  (m.find? fun entry => fold entry.1 == fold k).map Prod.snd

def put (fold : κ → φ) (k : κ) (v : ν) : List (κ × ν) → List (κ × ν)
  | [] => [(k, v)]
  | entry :: m =>
    if fold k < fold entry.1 then (k, v) :: entry :: m
    else if fold k = fold entry.1 then (entry.1, v) :: m
    else entry :: put fold k v m

def Ordered (fold : κ → φ) (m : List (κ × ν)) : Prop :=
  m.Pairwise fun entry later => fold entry.1 < fold later.1

theorem find_eq_none : find fold k m = none ↔ ∀ entry ∈ m, fold entry.1 ≠ fold k := by
  simp [find]

theorem put_ne_nil : put fold k v m ≠ [] := by
  cases m with
  | nil => simp [put]
  | cons entry m =>
    rw [put]
    split
    · simp
    · split <;> simp

theorem put_of_absent (h : find fold k m = none) :
    ∃ before after, m = before ++ after ∧ put fold k v m = before ++ (k, v) :: after ∧
      (∀ entry ∈ before, fold entry.1 < fold k) ∧
      (Ordered fold m → ∀ entry ∈ after, fold k < fold entry.1) := by
  induction m with
  | nil => exact ⟨[], [], rfl, rfl, by simp, by simp⟩
  | cons entry m ih =>
    rw [find_eq_none] at h
    have hent := h entry mem_cons_self
    by_cases hlt : fold k < fold entry.1
    · refine ⟨[], entry :: m, rfl, by rw [put, if_pos hlt]; rfl, by simp, fun hord later hl => ?_⟩
      rcases mem_cons.mp hl with rfl | hl
      · exact hlt
      · exact hlt.trans ((pairwise_cons.mp hord).1 later hl)
    · obtain ⟨before, after, rfl, hput, hbef, haft⟩ :=
        ih (find_eq_none.mpr fun e he => h e (mem_cons_of_mem _ he))
      refine ⟨entry :: before, after, rfl, ?_, ?_, ?_⟩
      · rw [put, if_neg hlt, if_neg (Ne.symm hent), hput, cons_append]
      · intro e he
        rcases mem_cons.mp he with rfl | he
        · exact lt_of_le_of_ne (not_lt.mp hlt) hent
        · exact hbef e he
      · exact fun hord => haft (pairwise_cons.mp hord).2

variable {old : ν} {entry : κ × ν} {k' : κ}

theorem put_of_present (hord : Ordered fold m) (h : find fold k m = some old) :
    ∃ before key after, m = before ++ (key, old) :: after ∧ fold key = fold k ∧
      put fold k v m = before ++ (key, v) :: after := by
  induction m with
  | nil => simp [find] at h
  | cons entry m ih =>
    obtain ⟨hhea, htai⟩ := pairwise_cons.mp hord
    by_cases heq : fold entry.1 = fold k
    · obtain rfl : entry.2 = old := by simpa [find, find?_cons, heq] using h
      exact ⟨[], entry.1, m, rfl, heq, by rw [put, if_neg (by simp [heq]), if_pos heq.symm]; rfl⟩
    · have hres : find fold k m = some old := by
        simpa [find, find?_cons, heq] using h
      obtain ⟨before, key, after, rfl, hkey, hput⟩ := ih htai hres
      have hlt : fold entry.1 < fold k := hkey ▸ hhea (key, old) (by simp)
      refine ⟨entry :: before, key, after, rfl, hkey, ?_⟩
      rw [put, if_neg hlt.le.not_gt, if_neg (Ne.symm heq), hput, cons_append]

theorem mem_put (h : entry ∈ put fold k v m) :
    entry ∈ m ∨ entry.2 = v ∧ (entry.1 = k ∨ ∃ old, (entry.1, old) ∈ m) := by
  induction m with
  | nil =>
    obtain rfl := mem_singleton.mp h
    exact Or.inr ⟨rfl, Or.inl rfl⟩
  | cons first m ih =>
    rw [put] at h
    split_ifs at h
    · rcases mem_cons.mp h with rfl | h
      · exact Or.inr ⟨rfl, Or.inl rfl⟩
      · exact Or.inl h
    · rcases mem_cons.mp h with rfl | h
      · exact Or.inr ⟨rfl, Or.inr ⟨first.2, mem_cons_self⟩⟩
      · exact Or.inl (mem_cons_of_mem _ h)
    · rcases mem_cons.mp h with rfl | h
      · exact Or.inl mem_cons_self
      · refine (ih h).imp (mem_cons_of_mem _) (And.imp_right (Or.imp_right ?_))
        rintro ⟨old, hold⟩
        exact ⟨old, mem_cons_of_mem _ hold⟩

theorem ordered_put (h : Ordered fold m) : Ordered fold (put fold k v m) := by
  cases hfin : find fold k m with
  | none =>
    obtain ⟨before, after, rfl, hput, hbef, haft⟩ := put_of_absent (v := v) hfin
    rw [hput]
    obtain ⟨hb, ha, hba⟩ := pairwise_append.mp h
    refine pairwise_append.mpr ⟨hb, pairwise_cons.mpr ⟨haft h, ha⟩, ?_⟩
    intro e he later hl
    rcases mem_cons.mp hl with rfl | hl
    · exact hbef e he
    · exact hba e he later hl
  | some old =>
    obtain ⟨before, key, after, rfl, _, hput⟩ := put_of_present (v := v) h hfin
    rw [hput]
    -- Only values differ, so the comparisons are the same.
    have hkey : ∀ w, Ordered fold (before ++ (key, w) :: after) ↔
        ((before ++ (key, w) :: after).map fun e => fold e.1).Pairwise (· < ·) :=
      fun w => pairwise_map.symm
    rw [hkey] at h ⊢
    simpa using h

theorem find_cons : find fold k' (entry :: m) =
    if fold entry.1 = fold k' then some entry.2 else find fold k' m := by
  by_cases h : fold entry.1 = fold k' <;> simp [find, h]

theorem find_put : find fold k' (put fold k v m) =
    if fold k = fold k' then some v else find fold k' m := by
  induction m with
  | nil => rw [put, find_cons]
  | cons entry m ih =>
    rw [put]
    by_cases hlt : fold k < fold entry.1
    · rw [if_pos hlt, find_cons]
    · rw [if_neg hlt]
      by_cases heq : fold k = fold entry.1
      · rw [if_pos heq, find_cons, find_cons, heq]
        split <;> rfl
      · rw [if_neg heq, find_cons, ih, find_cons]
        by_cases hkey : fold entry.1 = fold k'
        · rw [if_pos hkey, if_pos hkey, if_neg fun h => heq (h.trans hkey.symm)]
        · rw [if_neg hkey, if_neg hkey]

theorem find_mem (h : find fold k m = some old) : ∃ key, (key, old) ∈ m ∧ fold key = fold k := by
  obtain ⟨entry, hent, rfl⟩ := Option.map_eq_some_iff.mp h
  exact ⟨entry.1, mem_of_find?_eq_some hent, by simpa using find?_some hent⟩

theorem find_of_mem (hord : Ordered fold m) (h : entry ∈ m) :
    find fold entry.1 m = some entry.2 := by
  induction m with
  | nil => exact absurd h not_mem_nil
  | cons first m ih =>
    obtain ⟨hhea, htai⟩ := pairwise_cons.mp hord
    rcases mem_cons.mp h with rfl | h
    · rw [find_cons, if_pos rfl]
    · rw [find_cons, if_neg (hhea entry h).ne, ih htai h]

section Renamed

variable {κ' ν' : Type} {fold' : κ' → φ} {g : κ → κ'} {h : ν → ν'}

theorem find_map (hg : ∀ k, fold' (g k) = fold k) :
    find fold' (g k) (m.map (Prod.map g h)) = (find fold k m).map h := by
  induction m with
  | nil => rfl
  | cons entry m ih =>
    rw [map_cons, find_cons, find_cons, Prod.map_fst, hg, hg, ih]
    split <;> rfl

theorem put_map (hg : ∀ k, fold' (g k) = fold k) :
    put fold' (g k) (h v) (m.map (Prod.map g h)) = (put fold k v m).map (Prod.map g h) := by
  induction m with
  | nil => rfl
  | cons entry m ih =>
    rw [map_cons, put, put]
    simp only [Prod.map_fst, hg]
    split_ifs
    · rfl
    · rfl
    · rw [ih, map_cons]

end Renamed

theorem put_last (h : ∀ entry ∈ m, fold entry.1 < fold k) :
    find fold k m = none ∧ put fold k v m = m ++ [(k, v)] := by
  have hnone : find fold k m = none := find_eq_none.mpr fun entry he => (h entry he).ne
  refine ⟨hnone, ?_⟩
  clear hnone
  induction m with
  | nil => rfl
  | cons entry m ih =>
    have hlt := h entry mem_cons_self
    rw [put, if_neg hlt.le.not_gt, if_neg hlt.ne', ih fun e he => h e (mem_cons_of_mem _ he),
      cons_append]

end SovereignConfig.Lib.FoldMap
