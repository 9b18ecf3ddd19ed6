/-
Machine words, and the byte slices they index. A wrapped sum is smaller than both of its terms, so
a slice from a word to such a sum is never taken.
-/
import Mathlib

namespace SovereignConfig.Lib.Word

open List

inductive Overflow where
  | panics
  | wraps
deriving DecidableEq

def add (w : ℕ) (overflow : Overflow) (a b : ℕ) : Option ℕ :=
  if a + b < 2 ^ w then some (a + b)
  else
    match overflow with
    | .panics => none
    | .wraps => some ((a + b) % 2 ^ w)

variable {w : ℕ} {overflow : Overflow} {a b c : ℕ}

theorem add_of_lt (h : a + b < 2 ^ w) : add w overflow a b = some (a + b) := if_pos h

theorem lt_of_wrapped (ha : a < 2 ^ w) (hb : b < 2 ^ w) (h : 2 ^ w ≤ a + b)
    (hc : add w overflow a b = some c) : c < a := by
  unfold add at hc
  rw [if_neg (Nat.not_lt.mpr h)] at hc
  cases overflow with
  | panics => simp at hc
  | wraps =>
    obtain rfl := Option.some.inj hc
    have hmod : (a + b) % 2 ^ w = a + b - 2 ^ w := by
      rw [Nat.mod_eq_sub_mod h, Nat.mod_eq_of_lt (by omega)]
    rw [hmod]
    omega

/-- A result that has to be a word of `w` bits; `none` is the panic of a build that checks. -/
def checked (w n : ℕ) : Option ℕ := if n < 2 ^ w then some n else none

variable {n k : ℕ}

theorem checked_of_lt (h : n < 2 ^ w) : checked w n = some n := if_pos h

/-- `a << k`: the bits that leave the word are lost, and a shift by the whole word panics. -/
def shl (w a k : ℕ) : Option ℕ := if k < w then some (a * 2 ^ k % 2 ^ w) else none

theorem shl_of_lt (h : k < w) : shl w a k = some (a * 2 ^ k % 2 ^ w) := if_pos h

variable {α : Type}

def slice (bytes : List α) (start stop : ℕ) : Option (List α) :=
  if start ≤ stop ∧ stop ≤ bytes.length then some ((bytes.drop start).take (stop - start)) else none

variable {bytes : List α} {start stop : ℕ}

theorem slice_eq_none (h : stop < start) :
    slice bytes start stop = none := if_neg fun hle => Nat.not_le.mpr h hle.1

theorem slice_of_le (h : start ≤ stop) (hsto : stop ≤ bytes.length) :
    slice bytes start stop = some ((bytes.drop start).take (stop - start)) := if_pos ⟨h, hsto⟩

theorem take_drop_middle (before middle behind : List α) :
    ((before ++ middle ++ behind).drop before.length).take middle.length = middle := by
  rw [append_assoc, drop_left, take_left]

def to_be_bytes : ℕ → ℕ → List UInt8
  | 0, _ => []
  | k + 1, n => to_be_bytes k (n / 256) ++ [UInt8.ofNat n]

def from_be_bytes (bytes : List UInt8) : ℕ := bytes.foldl (fun n byte => n * 256 + byte.toNat) 0

@[simp] theorem length_to_be_bytes (k n : ℕ) : (to_be_bytes k n).length = k := by
  induction k generalizing n with
  | zero => rfl
  | succ k ih => rw [to_be_bytes, length_append, ih]; rfl

theorem from_be_bytes_append (bytes : List UInt8) (byte : UInt8) :
    from_be_bytes (bytes ++ [byte]) = from_be_bytes bytes * 256 + byte.toNat := by
  rw [from_be_bytes, foldl_append]
  rfl

theorem from_be_bytes_lt (bytes : List UInt8) : from_be_bytes bytes < 256 ^ bytes.length := by
  induction bytes using reverseRecOn with
  | nil => decide
  | append_singleton bytes byte ih =>
    have hbyt := byte.toNat_lt
    rw [from_be_bytes_append, length_append, length_singleton, Nat.pow_succ]
    omega

theorem from_be_bytes_to_be_bytes (h : n < 256 ^ k) : from_be_bytes (to_be_bytes k n) = n := by
  induction k generalizing n with
  | zero =>
    have hn : n = 0 := by simpa using h
    rw [hn]
    rfl
  | succ k ih =>
    have hdiv : n / 256 < 256 ^ k := by
      rw [Nat.div_lt_iff_lt_mul (by decide), ← Nat.pow_succ]
      exact h
    rw [to_be_bytes, from_be_bytes_append, ih hdiv, UInt8.toNat_ofNat']
    omega

end SovereignConfig.Lib.Word
