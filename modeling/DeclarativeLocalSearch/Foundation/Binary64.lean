import Mathlib.Algebra.Order.Field.Power
import Mathlib.Data.Int.Log
import Mathlib.Data.Rat.Floor
import Mathlib.Tactic.Positivity

namespace Binary64

-- to the nearest integer, and to the even one of two
def roundEven (q : ℚ) : ℤ :=
  if q - ⌊q⌋ < 1 / 2 then ⌊q⌋
  else if 1 / 2 < q - ⌊q⌋ then ⌊q⌋ + 1
  else if ⌊q⌋ % 2 = 0 then ⌊q⌋
  else ⌊q⌋ + 1

theorem roundEven_intCast (n : ℤ) : roundEven n = n := by simp [roundEven]

theorem abs_roundEven_sub_le (q : ℚ) : |(roundEven q : ℚ) - q| ≤ 1 / 2 := by
  have hle := Int.floor_le q
  have hlt := Int.lt_floor_add_one q
  rw [abs_le]
  unfold roundEven
  split_ifs with h1 h2 h3 <;> push_cast <;> constructor <;> linarith

-- the weight of the last of the 53 digits
def exponent (q : ℚ) : ℤ := max (Int.log 2 |q| - 52) (-1074)

-- the largest double is left out of account
def round (q : ℚ) : ℚ := roundEven (q / 2 ^ exponent q) * 2 ^ exponent q

theorem abs_round_sub_le {q : ℚ} (h : 2 ^ (-1022 : ℤ) ≤ |q|) : |round q - q| ≤ |q| / 2 ^ 53 := by
  have hpos : 0 < |q| := lt_of_lt_of_le (by positivity) h
  have hlog : -1022 ≤ Int.log 2 |q| := (Int.zpow_le_iff_le_log one_lt_two hpos).mp (by simpa using h)
  have hexponent : exponent q = Int.log 2 |q| - 52 := max_eq_left (by omega)
  have hle : (2 : ℚ) ^ Int.log 2 |q| ≤ |q| := by
    simpa using Int.zpow_log_le_self (R := ℚ) one_lt_two hpos
  have hweight : (0 : ℚ) < 2 ^ exponent q := by positivity
  have hsplit : round q - q = (roundEven (q / 2 ^ exponent q) - q / 2 ^ exponent q) * 2 ^ exponent q := by
    rw [round, sub_mul, div_mul_cancel₀ _ hweight.ne']
  rw [hsplit, abs_mul, abs_of_pos hweight]
  calc |(roundEven (q / 2 ^ exponent q) : ℚ) - q / 2 ^ exponent q| * 2 ^ exponent q
      ≤ 1 / 2 * 2 ^ exponent q := mul_le_mul_of_nonneg_right (abs_roundEven_sub_le _) hweight.le
    _ = 2 ^ Int.log 2 |q| / 2 ^ 53 := by
      rw [hexponent, zpow_sub₀ two_ne_zero]
      norm_num
      ring
    _ ≤ |q| / 2 ^ 53 := by gcongr

theorem round_intCast {n : ℤ} (h : |n| < 2 ^ 53) : round n = n := by
  have hexponent : exponent n ≤ 0 := by
    refine max_le ?_ (by norm_num)
    rcases eq_or_ne n 0 with rfl | hn
    · simp
    · have hpos : (0 : ℚ) < |(n : ℚ)| := by positivity
      have hlt : |(n : ℚ)| < ((2 : ℕ) : ℚ) ^ (53 : ℤ) := by exact_mod_cast h
      have hlog := (Int.lt_zpow_iff_log_lt one_lt_two hpos).mp hlt
      omega
  obtain ⟨k, hk⟩ := Int.eq_ofNat_of_zero_le (neg_nonneg.mpr hexponent)
  have hscaled : (n : ℚ) / 2 ^ exponent n = ((n * 2 ^ k : ℤ) : ℚ) := by
    rw [← neg_neg (exponent n), hk, zpow_neg, div_inv_eq_mul]
    push_cast
    rw [zpow_natCast]
  rw [round, hscaled, roundEven_intCast, ← hscaled, div_mul_cancel₀]
  positivity

theorem abs_le_of_round_eq {q : ℚ} {n : ℤ} (h : 2 ^ (-1022 : ℤ) ≤ |q|) (hn : round q = n) : |q| ≤ 2 * |(n : ℚ)| := by
  have hsub := abs_round_sub_le h
  rw [hn] at hsub
  have htri : |q| ≤ |(n : ℚ)| + |(n : ℚ) - q| := by
    have := abs_sub_abs_le_abs_sub q n
    rw [abs_sub_comm q n] at this
    linarith
  have hpos := abs_nonneg q
  linarith

theorem eq_of_round_eq {q : ℚ} {a b n : ℤ} (h : 2 ^ (-1022 : ℤ) ≤ |q|) (hb : b ≠ 0) (hmul : q * b = a)
    (ha : |a| < 2 ^ 53) (hn : round q = n) : q = n := by
  have hsub := abs_round_sub_le h
  rw [hn] at hsub
  have hb' : (0 : ℚ) < |(b : ℚ)| := by positivity
  have habs : |q| * |(b : ℚ)| = |(a : ℚ)| := by rw [← hmul, abs_mul]
  have ha' : |(a : ℚ)| < 2 ^ 53 := by exact_mod_cast ha
  have hdiff : |((n * b - a : ℤ) : ℚ)| < 1 := by
    push_cast
    calc |(n : ℚ) * b - a| = |(n : ℚ) - q| * |(b : ℚ)| := by rw [← hmul, ← sub_mul, abs_mul]
      _ ≤ |q| / 2 ^ 53 * |(b : ℚ)| := mul_le_mul_of_nonneg_right hsub hb'.le
      _ = |(a : ℚ)| / 2 ^ 53 := by rw [div_mul_eq_mul_div, habs]
      _ < 1 := by rwa [div_lt_one (by norm_num)]
  have hzero : n * b - a = 0 := Int.abs_lt_one_iff.mp (by exact_mod_cast hdiff)
  have heq : (n : ℚ) * b = a := by exact_mod_cast sub_eq_zero.mp hzero
  exact mul_right_cancel₀ (by exact_mod_cast hb) (hmul.trans heq.symm)

-- no integer beyond the exact ones is rounded to a small one
theorem round_eq_iff {m n : ℤ} (hn : |n| < 2 ^ 52) : round m = n ↔ m = n := by
  by_cases hm : |m| < 2 ^ 53
  · rw [round_intCast hm, Int.cast_inj]
  · refine iff_of_false (fun heq => hm ?_) fun heq => hm (heq ▸ hn.trans (by norm_num))
    have hm' : (2 : ℚ) ^ 53 ≤ |(m : ℚ)| := by exact_mod_cast not_lt.mp hm
    have hsmall : (2 : ℚ) ^ (-1022 : ℤ) ≤ |(m : ℚ)| := by
      refine le_trans ?_ hm'
      calc (2 : ℚ) ^ (-1022 : ℤ) ≤ 2 ^ (53 : ℤ) := zpow_le_zpow_right₀ one_le_two (by norm_num)
        _ = 2 ^ 53 := by norm_num
    have hle : |m| ≤ 2 * |n| := by exact_mod_cast abs_le_of_round_eq hsmall heq
    omega

end Binary64
