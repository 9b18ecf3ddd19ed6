/-
Maps filled entry by entry, a later entry taking the place of an earlier one of the same key.
-/
import Mathlib.Data.List.Induction
import Std.Data.TreeMap

namespace SovereignConfig.Lib

open List

variable {κ ν : Type}

def LastOf (entries : List (κ × ν)) (k : κ) (v : ν) : Prop :=
  ∃ before after, entries = before ++ (k, v) :: after ∧ k ∉ after.map Prod.fst

variable {entries : List (κ × ν)} {k : κ} {v : ν}

theorem lastOf_append {more : List (κ × ν)} :
    LastOf (entries ++ more) k v ↔
      LastOf more k v ∨ LastOf entries k v ∧ k ∉ more.map Prod.fst := by
  constructor
  · rintro ⟨before, after, heq, hlas⟩
    rcases append_eq_append_iff.mp heq with ⟨mid, rfl, rfl⟩ | ⟨mid, rfl, hmor⟩
    · exact .inl ⟨mid, after, rfl, hlas⟩
    · cases mid with
      | nil => exact .inl ⟨[], after, by simpa using hmor.symm, hlas⟩
      | cons entry mid =>
        obtain ⟨rfl, rfl⟩ := List.cons.inj hmor
        simp only [append_eq, map_append, mem_append, not_or] at hlas
        exact .inr ⟨⟨before, mid, rfl, hlas.1⟩, hlas.2⟩
  · rintro (⟨before, after, rfl, hlas⟩ | ⟨⟨before, after, rfl, hlas⟩, hmor⟩)
    · exact ⟨entries ++ before, after, by simp, hlas⟩
    · refine ⟨before, after ++ more, by simp, ?_⟩
      rw [map_append, mem_append, not_or]
      exact ⟨hlas, hmor⟩

theorem exists_lastOf [DecidableEq κ] : (∃ v, LastOf entries k v) ↔ k ∈ entries.map Prod.fst := by
  constructor
  · rintro ⟨v, before, after, rfl, -⟩
    simp
  · intro hmem
    induction entries using reverseRecOn with
    | nil => exact absurd hmem not_mem_nil
    | append_singleton entries entry ih =>
      by_cases hk : entry.1 = k
      · exact ⟨entry.2, entries, [], by rw [← hk], not_mem_nil⟩
      · have hbef : k ∈ entries.map Prod.fst := by
          simpa [Ne.symm hk] using hmem
        obtain ⟨v, hv⟩ := ih hbef
        exact ⟨v, lastOf_append.mpr (.inr ⟨hv, by simpa using Ne.symm hk⟩)⟩

variable [Ord κ]

def overlay (m : Std.TreeMap κ ν) (entries : List (κ × ν)) : Std.TreeMap κ ν :=
  entries.foldl (fun m entry => m.insert entry.1 entry.2) m

theorem overlay_append (m : Std.TreeMap κ ν) (entries more : List (κ × ν)) :
    overlay m (entries ++ more) = overlay (overlay m entries) more := foldl_append

variable [Std.TransOrd κ] [Std.LawfulEqOrd κ]

theorem overlay_empty : (overlay ∅ entries)[k]? = some v ↔ LastOf entries k v := by
  induction entries using reverseRecOn with
  | nil =>
    refine iff_of_false (by simp [overlay]) ?_
    rintro ⟨before, after, heq, -⟩
    simp at heq
  | append_singleton entries entry ih =>
    obtain ⟨key, value⟩ := entry
    have hste : overlay ∅ (entries ++ [(key, value)]) = (overlay ∅ entries).insert key value :=
      overlay_append _ _ _
    rw [hste, Std.TreeMap.getElem?_insert, lastOf_append]
    by_cases hk : key = k
    · subst hk
      simp only [Std.ReflCmp.compare_self, if_true, Option.some.injEq, map_cons, map_nil,
        mem_singleton, not_true_eq_false, and_false, or_false]
      constructor
      · rintro rfl
        exact ⟨[], [], rfl, not_mem_nil⟩
      · rintro ⟨before, after, heq, -⟩
        cases before with
        | nil => exact (Prod.mk.inj (List.cons.inj heq).1).2
        | cons entry before => exact absurd (List.cons.inj heq).2 (by simp)
    · have hne : compare key k ≠ .eq := fun h => hk (Std.LawfulEqOrd.eq_of_compare h)
      rw [if_neg hne, ih]
      constructor
      · exact fun h => .inr ⟨h, by simpa using Ne.symm hk⟩
      · rintro (⟨before, after, heq, -⟩ | ⟨h, -⟩)
        · have hmem : (k, v) ∈ [(key, value)] := heq ▸ by simp
          exact absurd (congrArg Prod.fst (mem_singleton.mp hmem)).symm hk
        · exact h

end SovereignConfig.Lib
