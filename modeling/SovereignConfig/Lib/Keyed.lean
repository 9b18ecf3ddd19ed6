/-
Tables as lists of rows with a unique key, and the lookups after deleting, updating and inserting.
-/
import Mathlib.Data.List.Nodup

namespace SovereignConfig.Lib

open List Function

variable {α κ : Type} {key : α → κ} {l : List α} {k : κ} {r : α}

theorem nodup_filter_key (h : (l.map key).Nodup) (p : α → Bool) :
    ((l.filter p).map key).Nodup := h.sublist (filter_sublist.map key)

theorem nodup_insert_key (h : (l.map key).Nodup) (hr : ∀ r' ∈ l, key r' ≠ key r) :
    ((l ++ [r]).map key).Nodup := by
  rw [map_append, nodup_append]
  refine ⟨h, nodup_singleton _, fun a ha b hb => ?_⟩
  obtain ⟨r', hr', rfl⟩ := mem_map.mp ha
  rw [map_cons, map_nil, mem_singleton] at hb
  rw [hb]
  exact hr r' hr'

theorem nodup_update_key {f : α → α} (h : (l.map key).Nodup) (hf : ∀ r, key (f r) = key r) :
    ((l.map f).map key).Nodup := by
  have hkey : (l.map f).map key = l.map key := by
    rw [map_map]
    exact map_congr_left (fun r _ => hf r)
  rw [hkey]
  exact h

theorem nodup_filterMap_key {β : Type} {key' : β → κ} {f : α → Option β}
    (h : (l.map key).Nodup) (hf : ∀ a b, f a = some b → key' b = key a) :
    ((l.filterMap f).map key').Nodup := by
  have hsub : ((l.filterMap f).map key').Sublist (l.map key) := by
    clear h
    induction l with
    | nil => exact List.Sublist.slnil
    | cons a l ih =>
      cases hfa : f a with
      | none =>
        rw [filterMap_cons_none hfa]
        exact ih.cons (key a)
      | some b =>
        rw [filterMap_cons_some hfa, map_cons, map_cons, hf a b hfa]
        exact ih.cons_cons (key a)
  exact h.sublist hsub

variable [DecidableEq κ]

def row_at (key : α → κ) (l : List α) (k : κ) : Option α := l.find? (fun r => key r == k)

theorem row_at_eq_some (h : (l.map key).Nodup) :
    row_at key l k = some r ↔ r ∈ l ∧ key r = k := by
  constructor
  · intro hr
    exact ⟨mem_of_find?_eq_some hr, by simpa using find?_some hr⟩
  · rintro ⟨hr, hk⟩
    cases hrow : row_at key l k with
    | none =>
      have := find?_eq_none.mp hrow r hr
      simp [hk] at this
    | some r' =>
      have hk' : key r' = k := by simpa using find?_some hrow
      exact congrArg some
        (inj_on_of_nodup_map h (mem_of_find?_eq_some hrow) hr (hk'.trans hk.symm))

theorem row_at_map {β : Type} {key' : β → κ} {f : α → β} (hf : ∀ r, key' (f r) = key r) :
    row_at key' (l.map f) k = (row_at key l k).map f := by
  rw [row_at, find?_map]
  refine congrArg (fun p => (l.find? p).map f) (funext fun r => ?_)
  rw [comp_apply, hf]

theorem row_at_eq_none : row_at key l k = none ↔ ∀ r ∈ l, key r ≠ k := by
  simp [row_at]

end SovereignConfig.Lib
