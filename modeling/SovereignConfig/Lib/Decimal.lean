/-
Integers as decimal text, as Rust writes and reads them: an optional sign and at least one digit.
-/
import Mathlib.Data.Int.Basic
import Mathlib.Data.Nat.Digits.Defs

namespace SovereignConfig.Lib

open List

def format_int (n : ℤ) : List Char :=
  if n < 0 then '-' :: Nat.toDigits 10 n.natAbs else Nat.toDigits 10 n.natAbs

def parse_digits (digits : List Char) : Option ℕ :=
  if !digits.isEmpty && digits.all Char.isDigit then some (Nat.ofDigitChars 10 digits 0) else none

def parse_int : List Char → Option ℤ
  | '-' :: digits => (parse_digits digits).map fun n : ℕ => -(n : ℤ)
  | '+' :: digits => (parse_digits digits).map fun n : ℕ => (n : ℤ)
  | digits => (parse_digits digits).map fun n : ℕ => (n : ℤ)

variable {c : Char} {n : ℤ} {a b : List Char}

theorem isDigit_toDigits {n : ℕ} (h : c ∈ Nat.toDigits 10 n) : c.isDigit = true :=
  Nat.isDigit_of_mem_toDigits (b := 10) (by decide) (by decide) h

theorem parse_digits_toDigits (n : ℕ) : parse_digits (Nat.toDigits 10 n) = some n := by
  have hne : (Nat.toDigits 10 n).isEmpty = false := by
    rw [isEmpty_eq_false_iff]
    exact Nat.toDigits_ne_nil
  have hdig : (Nat.toDigits 10 n).all Char.isDigit = true := by
    rw [all_eq_true]
    exact fun c hc => isDigit_toDigits hc
  rw [parse_digits, hne, hdig, Nat.ofDigitChars_toDigits (by decide) (by decide)]
  rfl

theorem parse_int_unsigned {digits : List Char} (h : ∀ c ∈ digits.head?, c.isDigit = true) :
    parse_int digits = (parse_digits digits).map fun n : ℕ => (n : ℤ) := by
  unfold parse_int
  split
  · exact absurd (h '-' rfl) (by decide)
  · exact absurd (h '+' rfl) (by decide)
  · rfl

theorem parse_format_int (n : ℤ) : parse_int (format_int n) = some n := by
  unfold format_int
  split_ifs with hneg
  · rw [parse_int, parse_digits_toDigits, Option.map_some]
    congr 1
    omega
  · rw [parse_int_unsigned, parse_digits_toDigits, Option.map_some]
    · congr 1
      omega
    · intro c hc
      exact isDigit_toDigits (mem_of_mem_head? hc)

theorem mem_format_int (h : c ∈ format_int n) : c = '-' ∨ c.isDigit = true := by
  unfold format_int at h
  split_ifs at h
  · rcases mem_cons.mp h with rfl | h
    · exact Or.inl rfl
    · exact Or.inr (isDigit_toDigits h)
  · exact Or.inr (isDigit_toDigits h)

/-- `i64::from_str`. -/
def parse_i64 (text : List Char) : Option ℤ :=
  (parse_int text).filter fun n => decide (-(2 ^ 63) ≤ n) && decide (n < 2 ^ 63)

theorem parse_i64_format (hlow : -(2 ^ 63) ≤ n) (hhig : n < 2 ^ 63) :
    parse_i64 (format_int n) = some n := by
  have hran : (decide (-(2 ^ 63) ≤ n) && decide (n < 2 ^ 63)) = true :=
    Bool.and_eq_true_iff.mpr ⟨decide_eq_true hlow, decide_eq_true hhig⟩
  rw [parse_i64, parse_format_int, Option.filter_some, if_pos hran]

/-- `str::split_once`: what is before the first `c`, and what is after it. -/
def split_once (c : Char) : List Char → Option (List Char × List Char)
  | [] => none
  | x :: rest => if x = c then some ([], rest) else (split_once c rest).map fun (a, b) => (x :: a, b)

theorem split_once_append (b : List Char) (h : c ∉ a) :
    split_once c (a ++ c :: b) = some (a, b) := by
  induction a with
  | nil => simp [split_once]
  | cons x a ih =>
    rw [mem_cons, not_or] at h
    rw [cons_append, split_once, if_neg (Ne.symm h.1), ih h.2]
    rfl

theorem split_unique {a' b' : List Char} (h : c ∉ a) (h' : c ∉ a')
    (heq : a ++ c :: b = a' ++ c :: b') : a = a' ∧ b = b' := by
  have hspl := split_once_append b h
  rw [heq, split_once_append b' h', Option.some.injEq, Prod.mk.injEq] at hspl
  exact ⟨hspl.1.symm, hspl.2.symm⟩

theorem split_once_eq_some {t : List Char} (h : split_once c t = some (a, b)) :
    t = a ++ c :: b ∧ c ∉ a := by
  induction t generalizing a b with
  | nil => exact absurd h (by simp [split_once])
  | cons x t ih =>
    rw [split_once] at h
    split_ifs at h with hx
    · simp only [Option.some.injEq, Prod.mk.injEq] at h
      obtain ⟨rfl, rfl⟩ := h
      exact ⟨by rw [hx, nil_append], not_mem_nil⟩
    · rw [Option.map_eq_some_iff] at h
      obtain ⟨⟨a', b'⟩, htai, hpai⟩ := h
      simp only [Prod.mk.injEq] at hpai
      obtain ⟨rfl, rfl⟩ := hpai
      obtain ⟨rfl, hfre⟩ := ih htai
      refine ⟨rfl, ?_⟩
      rw [mem_cons, not_or]
      exact ⟨Ne.symm hx, hfre⟩

end SovereignConfig.Lib
