/-
Rounding to a floating-point format, by its error, or by order alone where only sizes matter
(`DyadicRounding`).
-/
import Mathlib.Data.Rat.Floor
import Mathlib.Tactic.Linarith
import Mathlib.Tactic.FieldSimp

namespace SovereignConfig.Lib

/-- `round` rounds to a format of `p` bits; the relative bound holds between `1 / huge` and
`huge`. -/
structure Rounding (p : ℕ) (huge : ℚ) (round : ℚ → ℚ) : Prop where
  exact : ∀ n : ℤ, |n| ≤ 2 ^ p → round n = n
  close : ∀ x : ℚ, 1 / huge ≤ |x| → |x| ≤ huge → |round x - x| ≤ |x| / 2 ^ p

theorem Rounding.id (p : ℕ) (huge : ℚ) : Rounding p huge id where
  exact _ _ := rfl
  close x _ _ := by
    rw [id_eq, sub_self, abs_zero]
    positivity

variable {p : ℕ} {huge : ℚ} {round : ℚ → ℚ}

variable {n : ℤ}

theorem Rounding.floor_div (h : Rounding p huge round) {d : ℤ} (hn : |n| < 2 ^ p) (hd : 0 < d)
    (hsma : (d : ℚ) ≤ huge) (hlar : (2 ^ p : ℚ) ≤ huge) : ⌊round ((n : ℚ) / d)⌋ = n / d := by
  have hdq : (0 : ℚ) < d := by exact_mod_cast hd
  have hspl : (n : ℚ) / d = (n / d : ℤ) + ((n % d : ℤ) : ℚ) / d := by
    have hn' : (n : ℚ) = d * (n / d : ℤ) + (n % d : ℤ) := by
      exact_mod_cast (Int.mul_ediv_add_emod n d).symm
    field_simp
    linarith
  by_cases hr : n % d = 0
  · -- The quotient is whole, and the format holds it.
    have hwho : |n / d| ≤ 2 ^ p := by
      have hmul : |n / d| * d ≤ |n| := by
        have heq : n / d * d = n := Int.ediv_mul_cancel (Int.dvd_of_emod_eq_zero hr)
        rw [← abs_of_pos hd, ← abs_mul, abs_of_pos hd, heq]
      nlinarith [abs_nonneg (n / d)]
    rw [hspl, hr, Int.cast_zero, zero_div, add_zero, h.exact _ hwho, Int.floor_intCast]
  · have hlow : 1 ≤ n % d := by
      have := Int.emod_nonneg n hd.ne'
      omega
    have hhig : n % d ≤ d - 1 := by
      have := Int.emod_lt_of_pos n hd
      omega
    -- The error is below one part in `d`.
    have habs : |(n : ℚ) / d| = |(n : ℚ)| / d := by rw [abs_div, abs_of_pos hdq]
    have hnq : |(n : ℚ)| < 2 ^ p := by exact_mod_cast hn
    have hone : (1 : ℚ) ≤ |(n : ℚ)| := by
      have hne : n ≠ 0 := fun h0 => hr (by simp [h0])
      exact_mod_cast Int.one_le_abs hne
    have herr : |round ((n : ℚ) / d) - n / d| < 1 / d := by
      have hle := h.close ((n : ℚ) / d) ?_ ?_
      · refine lt_of_le_of_lt hle ?_
        rw [habs, div_div, div_lt_div_iff₀ (by positivity) hdq]
        nlinarith
      · rw [habs, div_le_div_iff₀ (lt_of_lt_of_le hdq hsma) hdq]
        nlinarith
      · rw [habs, div_le_iff₀ hdq]
        have : (1 : ℚ) ≤ d := by exact_mod_cast hd
        nlinarith
    obtain ⟨hbel, habo⟩ := abs_lt.mp herr
    have hlowq : (1 : ℚ) / d ≤ ((n % d : ℤ) : ℚ) / d :=
      div_le_div_of_nonneg_right (by exact_mod_cast hlow) hdq.le
    have hhigh : ((n % d : ℤ) : ℚ) / d ≤ 1 - 1 / d := by
      rw [div_le_iff₀ hdq, sub_mul, one_mul, one_div_mul_cancel hdq.ne']
      exact_mod_cast hhig
    rw [Int.floor_eq_iff]
    constructor <;> linarith

/-- `round` keeps the order, and keeps the numbers of `p` bits down to `2 ^ -e`. -/
structure DyadicRounding (p e : ℕ) (round : ℚ → ℚ) : Prop where
  mono : Monotone round
  exact : ∀ (n : ℤ) (k : ℕ), |n| ≤ 2 ^ p → k ≤ e → round (n / 2 ^ k) = n / 2 ^ k

theorem DyadicRounding.id (p e : ℕ) : DyadicRounding p e id where
  mono := monotone_id
  exact _ _ _ _ := rfl

theorem DyadicRounding.le_of_le {e : ℕ} (h : DyadicRounding p e round) {x : ℚ} {k : ℕ}
    (hn : |n| ≤ 2 ^ p) (hk : k ≤ e) (hx : x ≤ n / 2 ^ k) : round x ≤ n / 2 ^ k :=
  (h.mono hx).trans_eq (h.exact n k hn hk)

end SovereignConfig.Lib
