/-
Maps that keep at each key the offer that ranks lowest, whatever the order of the offers.
-/
import Mathlib

namespace SovereignConfig.Lib

open List

variable {κ ν ρ : Type} [Ord κ] [LinearOrder ρ] (rank : ν → ρ)

def keep_least (m : Std.TreeMap κ ν) (offer : κ × ν) : Std.TreeMap κ ν :=
  match m[offer.1]? with
  | none => m.insert offer.1 offer.2
  | some kept => if rank offer.2 < rank kept then m.insert offer.1 offer.2 else m

structure Least (offers : List (κ × ν)) (m : Std.TreeMap κ ν) : Prop where
  offered : ∀ {k v}, m[k]? = some v → (k, v) ∈ offers
  least : ∀ {k v w}, m[k]? = some v → (k, w) ∈ offers → rank v ≤ rank w
  kept : ∀ {k w}, (k, w) ∈ offers → ∃ v, m[k]? = some v

variable {rank} {offers offers' more : List (κ × ν)} {m m' : Std.TreeMap κ ν} {k : κ} {v : ν}

variable [Std.TransOrd κ]

theorem least_empty : Least rank [] (∅ : Std.TreeMap κ ν) :=
  ⟨fun h => by simp at h, fun _ h => absurd h not_mem_nil,
    fun h => absurd h not_mem_nil⟩

theorem Least.mem_iff (h : Least rank offers m) : k ∈ m ↔ ∃ v, (k, v) ∈ offers := by
  rw [Std.TreeMap.mem_iff_isSome_getElem?, Option.isSome_iff_exists]
  exact ⟨fun ⟨v, hv⟩ => ⟨v, h.offered hv⟩, fun ⟨_, hv⟩ => h.kept hv⟩

variable [Std.LawfulEqOrd κ]

section Fold

variable [DecidableEq κ]

variable (rank) in
theorem keep_least_cases (m : Std.TreeMap κ ν) (offer : κ × ν) :
    (∃ kept, m[offer.1]? = some kept ∧ rank kept ≤ rank offer.2 ∧ keep_least rank m offer = m) ∨
    ((∀ kept, m[offer.1]? = some kept → rank offer.2 < rank kept) ∧
      ∀ k, (keep_least rank m offer)[k]? = if offer.1 = k then some offer.2 else m[k]?) := by
  have hins : ∀ k, (m.insert offer.1 offer.2)[k]?
      = if offer.1 = k then some offer.2 else m[k]? := by
    intro k
    rw [Std.TreeMap.getElem?_insert]
    exact if_congr Std.LawfulEqCmp.compare_eq_iff_eq rfl rfl
  unfold keep_least
  cases hm : m[offer.1]? with
  | none => exact Or.inr ⟨fun _ h => (nomatch h), hins⟩
  | some kept =>
    by_cases hlt : rank offer.2 < rank kept
    · refine Or.inr ⟨fun kept' h => by cases h; exact hlt, ?_⟩
      simp only [if_pos hlt]
      exact hins
    · exact Or.inl ⟨kept, rfl, not_lt.mp hlt, if_neg hlt⟩

theorem Least.keep (h : Least rank offers m) (offer : κ × ν) :
    Least rank (offers ++ [offer]) (keep_least rank m offer) := by
  obtain ⟨key, value⟩ := offer
  rcases keep_least_cases rank m (key, value) with
    ⟨kept, hkep, hle, hsam⟩ | ⟨hlow, hget⟩
  · rw [hsam]
    refine ⟨fun hk => mem_append_left _ (h.offered hk), fun hk hw => ?_, fun hw => ?_⟩
    · rcases mem_append.mp hw with hw | hw
      · exact h.least hk hw
      · obtain ⟨rfl, rfl⟩ := Prod.mk.inj (mem_singleton.mp hw)
        exact Option.some.inj (hkep.symm.trans hk) ▸ hle
    · rcases mem_append.mp hw with hw | hw
      · exact h.kept hw
      · obtain ⟨rfl, rfl⟩ := Prod.mk.inj (mem_singleton.mp hw)
        exact ⟨kept, hkep⟩
  · refine ⟨fun {k v} hk => ?_, fun {k v w} hk hw => ?_, fun {k w} hw => ?_⟩
    · rw [hget] at hk
      split_ifs at hk with hkey
      · obtain rfl := Option.some.inj hk
        exact mem_append_right _ (mem_singleton.mpr (by rw [← hkey]))
      · exact mem_append_left _ (h.offered hk)
    · rw [hget] at hk
      rcases mem_append.mp hw with hw | hw
      · split_ifs at hk with hkey
        · -- The offer is below what was kept, and that is below every earlier one.
          obtain rfl := Option.some.inj hk
          obtain ⟨kept, hkep⟩ := h.kept hw
          exact (hlow kept (hkey ▸ hkep)).le.trans (h.least hkep hw)
        · exact h.least hk hw
      · obtain ⟨rfl, rfl⟩ := Prod.mk.inj (mem_singleton.mp hw)
        rw [if_pos rfl] at hk
        exact le_of_eq (congrArg rank (Option.some.inj hk).symm)
    · by_cases hkey : key = k
      · exact ⟨value, by rw [hget, if_pos hkey]⟩
      · rcases mem_append.mp hw with hw | hw
        · obtain ⟨v, hv⟩ := h.kept hw
          exact ⟨v, by rw [hget, if_neg hkey, hv]⟩
        · exact absurd (Prod.mk.inj (mem_singleton.mp hw)).1.symm hkey

theorem Least.fold (h : Least rank offers m) (more : List (κ × ν)) :
    Least rank (offers ++ more) (more.foldl (keep_least rank) m) := by
  induction more generalizing offers m with
  | nil => rwa [append_nil]
  | cons offer more ih =>
    have hres := ih (h.keep offer)
    rwa [append_assoc] at hres

end Fold

theorem Least.toList_eq (hran : Function.Injective rank) (h : Least rank offers m)
    (h' : Least rank offers' m') (hsam : ∀ offer, offer ∈ offers ↔ offer ∈ offers') :
    m.toList = m'.toList := by
  refine (Std.TreeMap.Equiv.of_forall_constGet?_eq fun k => ?_).toList_eq
  refine Option.ext fun v => ⟨fun hv => ?_, fun hv => ?_⟩
  · obtain ⟨w, hw⟩ := h'.kept ((hsam _).mp (h.offered hv))
    have hle := h.least hv ((hsam _).mpr (h'.offered hw))
    have hge := h'.least hw ((hsam _).mp (h.offered hv))
    rw [hw, hran (le_antisymm hge hle)]
  · obtain ⟨w, hw⟩ := h.kept ((hsam _).mpr (h'.offered hv))
    have hle := h'.least hv ((hsam _).mp (h.offered hw))
    have hge := h.least hw ((hsam _).mpr (h'.offered hv))
    rw [hw, hran (le_antisymm hge hle)]

end SovereignConfig.Lib
