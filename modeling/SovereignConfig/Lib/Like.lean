/-
`LIKE` patterns, as PostgreSQL matches `text LIKE pattern ESCAPE '\'`; one that is not `terminated`
is refused.
-/
import Mathlib.Data.List.Infix

namespace SovereignConfig.Lib

open List

/-- `text LIKE pattern ESCAPE '\'`, the pattern first. A pattern that ends in its escape is an
error in PostgreSQL, and matches nothing here. -/
def like : List Char → List Char → Bool
  | [], text => text.isEmpty
  | '%' :: pattern, text => text.tails.any (like pattern)
  | '_' :: pattern, text =>
    match text with
    | [] => false
    | _ :: rest => like pattern rest
  | '\\' :: [], _ => false
  | '\\' :: c :: pattern, text =>
    match text with
    | [] => false
    | x :: rest => x == c && like pattern rest
  | c :: pattern, text =>
    match text with
    | [] => false
    | x :: rest => x == c && like pattern rest

def wildcard (c : Char) : Bool := c == '\\' || c == '%' || c == '_'

def literal (fragment : List Char) : List Char :=
  fragment.flatMap fun c => if wildcard c then ['\\', c] else [c]

def anywhere (fragment : List Char) : List Char :=
  '%' :: literal fragment ++ ['%']

def terminated : List Char → Bool
  | [] => true
  | '\\' :: [] => false
  | '\\' :: _ :: pattern => terminated pattern
  | _ :: pattern => terminated pattern

@[simp] theorem like_nil (text : List Char) : like [] text = text.isEmpty := rfl

@[simp] theorem like_any (pattern text : List Char) :
    like ('%' :: pattern) text = text.tails.any (like pattern) := rfl

theorem eats_iff (c : Char) (pattern text : List Char) :
    (match text with
      | [] => false
      | x :: rest => x == c && like pattern rest) = true ↔
      ∃ rest, text = c :: rest ∧ like pattern rest = true := by
  cases text with
  | nil => simp
  | cons x rest =>
    simp only [Bool.and_eq_true, beq_iff_eq, List.cons.injEq]
    constructor
    · rintro ⟨rfl, h⟩
      exact ⟨rest, ⟨rfl, rfl⟩, h⟩
    · rintro ⟨_, ⟨rfl, rfl⟩, h⟩
      exact ⟨rfl, h⟩

theorem like_escaped (c : Char) (pattern text : List Char) :
    like ('\\' :: c :: pattern) text = true ↔
      ∃ rest, text = c :: rest ∧ like pattern rest = true := eats_iff c pattern text

variable {c : Char}

theorem like_plain (hc : wildcard c = false) (pattern text : List Char) :
    like (c :: pattern) text = true ↔ ∃ rest, text = c :: rest ∧ like pattern rest = true := by
  simp only [wildcard, Bool.or_eq_false_iff, beq_eq_false_iff_ne] at hc
  obtain ⟨⟨hesc, hany⟩, hone⟩ := hc
  -- None of the special patterns applies, so the last equation does.
  have hlik : like (c :: pattern) text = match text with
      | [] => false
      | x :: rest => x == c && like pattern rest := by
    rw [like.eq_def]
    split <;> simp_all
  rw [hlik]
  exact eats_iff c pattern text

theorem literal_cons (c : Char) (fragment pattern : List Char) :
    literal (c :: fragment) ++ pattern = if wildcard c then
      '\\' :: c :: (literal fragment ++ pattern) else c :: (literal fragment ++ pattern) := by
  cases hc : wildcard c <;> simp [literal, hc]

theorem like_literal (fragment pattern text : List Char) :
    like (literal fragment ++ pattern) text = true ↔
      ∃ rest, text = fragment ++ rest ∧ like pattern rest = true := by
  induction fragment generalizing text with
  | nil => simp [literal]
  | cons c fragment ih =>
    have hste : like (literal (c :: fragment) ++ pattern) text = true ↔
        ∃ rest, text = c :: rest ∧ like (literal fragment ++ pattern) rest = true := by
      rw [literal_cons]
      cases hc : wildcard c with
      | true => exact like_escaped c _ text
      | false => exact like_plain hc _ text
    rw [hste]
    constructor
    · rintro ⟨rest, rfl, h⟩
      obtain ⟨rest', rfl, h'⟩ := (ih rest).mp h
      exact ⟨rest', rfl, h'⟩
    · rintro ⟨rest', rfl, h'⟩
      exact ⟨fragment ++ rest', rfl, (ih _).mpr ⟨rest', rfl, h'⟩⟩

/-- **The pattern of a fragment matches exactly the texts it occurs in,** whatever the fragment
contains. -/
theorem like_anywhere (fragment text : List Char) :
    like (anywhere fragment) text = true ↔ fragment <:+: text := by
  have hres : ∀ rest : List Char, like ['%'] rest = true := by
    intro rest
    rw [like_any, any_eq_true]
    exact ⟨[], by simp, rfl⟩
  show like ('%' :: (literal fragment ++ ['%'])) text = true ↔ _
  rw [like_any, any_eq_true]
  simp only [mem_tails, like_literal]
  constructor
  · rintro ⟨tail, ⟨before, rfl⟩, rest, rfl, -⟩
    exact ⟨before, rest, by rw [append_assoc]⟩
  · rintro ⟨before, rest, rfl⟩
    exact ⟨fragment ++ rest, ⟨before, by rw [append_assoc]⟩, rest, rfl, hres rest⟩

theorem terminated_plain (hc : c ≠ '\\') (pattern : List Char) :
    terminated (c :: pattern) = terminated pattern := by
  rw [terminated.eq_def]
  split <;> simp_all

theorem terminated_literal (fragment pattern : List Char) :
    terminated (literal fragment ++ pattern) = terminated pattern := by
  induction fragment with
  | nil => rfl
  | cons c fragment ih =>
    rw [literal_cons]
    cases hc : wildcard c with
    | true => exact ih
    | false =>
      have hpla : c ≠ '\\' := by
        rintro rfl
        exact absurd hc (by decide)
      exact (terminated_plain hpla _).trans ih

theorem terminated_anywhere (fragment : List Char) : terminated (anywhere fragment) = true := by
  rw [anywhere, cons_append, terminated_plain (by decide), terminated_literal]
  rfl

structure CaseFold where
  lower : Char → Char
  keeps : ∀ c, wildcard c = true → lower c = c
  reflects : ∀ c, wildcard (lower c) = true → wildcard c = true

/-- `text ILIKE pattern ESCAPE '\'`: both sides lowered. -/
def ilike (fold : CaseFold) (pattern text : List Char) : Bool :=
  like (pattern.map fold.lower) (text.map fold.lower)

theorem literal_map (fold : CaseFold) (fragment : List Char) :
    (literal fragment).map fold.lower = literal (fragment.map fold.lower) := by
  induction fragment with
  | nil => rfl
  | cons c fragment ih =>
    have hcha : (if wildcard c then ['\\', c] else [c]).map fold.lower
        = if wildcard (fold.lower c) then ['\\', fold.lower c] else [fold.lower c] := by
      cases hc : wildcard c with
      | true =>
        have hsam := fold.keeps c hc
        simp [hsam, hc, fold.keeps '\\' rfl]
      | false =>
        have hpla : wildcard (fold.lower c) = false :=
          Bool.eq_false_iff.mpr fun h => absurd (fold.reflects c h) (by simp [hc])
        simp [hpla]
    simp only [literal, flatMap_cons, map_append, map_cons, hcha] at ih ⊢
    rw [ih]

theorem ilike_anywhere (fold : CaseFold) (fragment text : List Char) :
    ilike fold (anywhere fragment) text = true ↔
      fragment.map fold.lower <:+: text.map fold.lower := by
  have hpat : (anywhere fragment).map fold.lower
      = anywhere (fragment.map fold.lower) := by
    simp only [anywhere, map_cons, map_append, cons_append, literal_map,
      map_nil, fold.keeps '%' rfl]
  rw [ilike, hpat, like_anywhere]

end SovereignConfig.Lib
