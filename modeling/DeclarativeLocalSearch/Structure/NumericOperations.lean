import Mathlib.Data.Int.ModEq
import DeclarativeLocalSearch.Foundation.Binary64

namespace NumericOperations

abbrev Int32 := {n : ℤ // -2 ^ 31 ≤ n ∧ n < 2 ^ 31}

-- C++ leaves an overflow of int, and the remainder of the smallest int by -1, undefined
inductive Outcome where
  | element (value : Int32)
  | null
  | undefined
  deriving DecidableEq

def signed (n : ℤ) : Outcome := if h : -2 ^ 31 ≤ n ∧ n < 2 ^ 31 then .element ⟨n, h⟩ else .undefined

-- isNum<int> and then createDomElem
def createInt (result : ℚ) : Outcome :=
  if h : result.den = 1 ∧ -2 ^ 31 ≤ result.num ∧ result.num < 2 ^ 31 then .element ⟨result.num, h.2⟩ else .null

def sum (l r : ℚ) : Outcome := createInt (Binary64.round (l + r))

def difference (l r : ℚ) : Outcome := createInt (Binary64.round (l - r))

def product (l r : ℚ) : Outcome := createInt (Binary64.round (l * r))

def division (l r : ℚ) : Outcome := if r = 0 then .null else createInt (Binary64.round (l / r))

-- the tables of type CERTAINLYINT, on elements of type DET_INT
inductive Call where
  | plus (a1 a2 : Int32)
  | minus (a1 a2 : Int32)
  | times (a1 a2 : Int32)
  | div (a1 a2 : Int32)
  | mod (a1 a2 : Int32)
  | abs (a : Int32)
  | umin (a : Int32)

def mod (a1 a2 : Int32) : Outcome :=
  if a2.1 = 0 then .null
  else if a1.1 = -2 ^ 31 ∧ a2.1 = -1 then .undefined
  else
    let cppModulo := a1.1.tmod a2.1
    if cppModulo < 0 then signed (cppModulo + a2.1)
    else signed cppModulo

def Call.outcome : Call → Outcome
  | .plus a1 a2 => sum a1.1 a2.1
  | .minus a1 a2 => difference a1.1 a2.1
  | .times a1 a2 => product a1.1 a2.1
  | .div a1 a2 => if a2.1 = 0 then .null else division a1.1 a2.1
  | .mod a1 a2 => NumericOperations.mod a1 a2
  | .abs a => if a.1 < 0 then signed (-a.1) else signed a.1
  | .umin a => signed (-a.1)

-- the mathematical result
def Call.HasResult : Call → ℤ → Prop
  | .plus a1 a2, n => n = a1.1 + a2.1
  | .minus a1 a2, n => n = a1.1 - a2.1
  | .times a1 a2, n => n = a1.1 * a2.1
  | .div a1 a2, n => a2.1 ≠ 0 ∧ (n : ℚ) = a1.1 / a2.1
  | .mod a1 a2, n => a2.1 ≠ 0 ∧ 0 ≤ n ∧ n < |a2.1| ∧ n ≡ a1.1 [ZMOD a2.1]
  | .abs a, n => n = |a.1|
  | .umin a, n => n = -a.1

def Correct (call : Call) : Prop :=
  (∀ n : Int32, call.outcome = .element n ↔ call.HasResult n.1) ∧ call.outcome ≠ .undefined

theorem signed_eq_element {m : ℤ} {n : Int32} : signed m = .element n ↔ m = n.1 := by
  unfold signed
  split_ifs with h
  · rw [Outcome.element.injEq, Subtype.ext_iff]
  · exact iff_of_false nofun fun heq => h (heq ▸ n.2)

theorem signed_ne_undefined {m : ℤ} : signed m ≠ .undefined ↔ -2 ^ 31 ≤ m ∧ m < 2 ^ 31 := by
  unfold signed
  split_ifs with h
  · exact iff_of_true nofun h
  · exact iff_of_false (fun hne => hne rfl) h

theorem createInt_eq_element {q : ℚ} {n : Int32} : createInt q = .element n ↔ q = n.1 := by
  unfold createInt
  split_ifs with h
  · have hnum : (q.num : ℚ) = q := (Rat.den_eq_one_iff q).mp h.1
    rw [Outcome.element.injEq, Subtype.ext_iff]
    constructor
    · rintro (hq : q.num = n.1)
      rw [← hnum, hq]
    · intro hq
      simp [hq]
  · refine iff_of_false nofun fun heq => h ?_
    rw [heq]
    exact ⟨rfl, n.2⟩

theorem createInt_ne_undefined (q : ℚ) : createInt q ≠ .undefined := by
  unfold createInt
  split_ifs <;> exact nofun

theorem abs_lt_of_int32 (n : Int32) : |n.1| < 2 ^ 52 := by
  obtain ⟨n, hle, hlt⟩ := n
  rw [abs_lt]
  constructor <;> simp only <;> omega

theorem createInt_round {m : ℤ} {n : Int32} : createInt (Binary64.round m) = .element n ↔ n.1 = m := by
  rw [createInt_eq_element, Binary64.round_eq_iff (abs_lt_of_int32 n), eq_comm]

theorem division_eq_element {a b n : Int32} (hb : b.1 ≠ 0) :
    division a.1 b.1 = .element n ↔ (n.1 : ℚ) = a.1 / b.1 := by
  have hb' : (b.1 : ℚ) ≠ 0 := by exact_mod_cast hb
  rw [division, if_neg hb', createInt_eq_element]
  constructor
  · intro h
    rcases eq_or_ne a.1 0 with ha | ha
    · have hround : Binary64.round ((0 : ℤ) : ℚ) = (0 : ℤ) := Binary64.round_intCast (by norm_num)
      rw [ha, Int.cast_zero, zero_div] at h ⊢
      rw [Int.cast_zero] at hround
      exact h.symm.trans hround
    · have ha' : (1 : ℚ) ≤ |(a.1 : ℚ)| := by exact_mod_cast Int.one_le_abs ha
      have hb'' : |(b.1 : ℚ)| ≤ 2 ^ 52 := by exact_mod_cast (abs_lt_of_int32 b).le
      have hsmall : (2 : ℚ) ^ (-1022 : ℤ) ≤ |(a.1 : ℚ) / b.1| := by
        calc (2 : ℚ) ^ (-1022 : ℤ) ≤ 2 ^ (-52 : ℤ) := zpow_le_zpow_right₀ one_le_two (by norm_num)
          _ = 1 / 2 ^ 52 := by norm_num
          _ ≤ |(a.1 : ℚ)| / |(b.1 : ℚ)| := by
            have hpos : 0 < |(b.1 : ℚ)| := by positivity
            gcongr
          _ = |(a.1 : ℚ) / b.1| := (abs_div _ _).symm
      exact (Binary64.eq_of_round_eq hsmall hb (div_mul_cancel₀ _ hb')
        ((abs_lt_of_int32 a).trans (by norm_num)) h).symm
  · intro h
    rw [← h]
    exact Binary64.round_intCast ((abs_lt_of_int32 n).trans (by norm_num))

-- a negative dividend that is no multiple of a negative divisor and the smallest int are left out
def Call.Safe : Call → Prop
  | .mod a1 a2 => 0 ≤ a2.1 ∨ 0 ≤ a1.1 ∨ a2.1 ∣ a1.1 ∧ ¬ (a1.1 = -2 ^ 31 ∧ a2.1 = -1)
  | .abs a => a.1 ≠ -2 ^ 31
  | .umin a => a.1 ≠ -2 ^ 31
  | _ => True

theorem signed_correct {call : Call} {m : ℤ} (houtcome : call.outcome = signed m)
    (hresult : ∀ n, call.HasResult n ↔ n = m) : Correct call ↔ -2 ^ 31 ≤ m ∧ m < 2 ^ 31 := by
  rw [Correct, houtcome, signed_ne_undefined]
  refine and_iff_right fun n => ?_
  rw [signed_eq_element, hresult, eq_comm]

theorem hasResult_mod {a1 a2 : Int32} (h : a2.1 ≠ 0) (n : ℤ) :
    (Call.mod a1 a2).HasResult n ↔ n = a1.1 % a2.1 := by
  constructor
  · rintro ⟨-, hle, hlt, hmod⟩
    rw [← hmod, ← Int.emod_abs, Int.emod_eq_of_lt hle hlt]
  · rintro rfl
    exact ⟨h, Int.emod_nonneg _ h, Int.emod_lt_abs _ h, Int.mod_modEq _ _⟩

theorem mod_correct {a1 a2 : Int32} : Correct (.mod a1 a2) ↔ (Call.mod a1 a2).Safe := by
  have hle := a2.2.1
  have hlt := a2.2.2
  by_cases hzero : a2.1 = 0
  · refine iff_of_true ⟨fun n => iff_of_false ?_ fun hn => hn.1 hzero, ?_⟩ (Or.inl hzero.ge) <;>
      simp [Call.outcome, mod, hzero]
  by_cases htrap : a1.1 = -2 ^ 31 ∧ a2.1 = -1
  · refine iff_of_false (fun hcorrect => hcorrect.2 ?_) ?_
    · rw [Call.outcome, mod, if_neg hzero, if_pos htrap]
    · rintro (h | h | h) <;> omega
  have hnonneg := Int.emod_nonneg a1.1 hzero
  have hbound := Int.emod_lt_abs a1.1 hzero
  have habs : |a2.1| ≤ 2 ^ 31 := abs_le.mpr ⟨hle, hlt.le⟩
  have hrem := Int.tmod_eq_emod (a := a1.1) (b := a2.1)
  have houtcome : (Call.mod a1 a2).outcome =
      if a1.1.tmod a2.1 < 0 then signed (a1.1.tmod a2.1 + a2.1) else signed (a1.1.tmod a2.1) := by
    rw [Call.outcome, mod, if_neg hzero, if_neg htrap]
  by_cases hsmall : 0 ≤ a1.1 ∨ a2.1 ∣ a1.1
  · rw [if_pos hsmall, Nat.cast_zero, sub_zero] at hrem
    rw [hrem, if_neg (not_lt.mpr hnonneg)] at houtcome
    refine iff_of_true ((signed_correct houtcome (hasResult_mod hzero)).mpr ?_) ?_
    · omega
    · exact Or.inr (hsmall.imp_right fun h => ⟨h, htrap⟩)
  · rw [if_neg hsmall] at hrem
    have hneg : a1.1.tmod a2.1 < 0 := by
      rw [hrem, Int.natCast_natAbs]
      omega
    rw [if_pos hneg] at houtcome
    rcases lt_or_gt_of_ne hzero with hdivisor | hdivisor
    · refine iff_of_false (fun hcorrect => ?_) ?_
      -- the divisor is added to a negative remainder
      · have hresult : (Call.mod a1 a2).outcome = .element ⟨a1.1 % a2.1, by omega⟩ :=
          (hcorrect.1 _).mpr ((hasResult_mod hzero _).mpr rfl)
        rw [houtcome, signed_eq_element] at hresult
        simp only at hresult
        omega
      · rintro (h | h | h)
        · omega
        · exact hsmall (Or.inl h)
        · exact hsmall (Or.inr h.1)
    · have hsum : a1.1.tmod a2.1 + a2.1 = a1.1 % a2.1 := by omega
      rw [hsum] at houtcome
      refine iff_of_true ((signed_correct houtcome (hasResult_mod hzero)).mpr ?_) (Or.inl hdivisor.le)
      rw [abs_of_pos hdivisor] at hbound
      omega

theorem correct_iff (call : Call) : Correct call ↔ call.Safe := by
  cases call with
  | plus a1 a2 =>
    refine iff_of_true ⟨fun n => ?_, createInt_ne_undefined _⟩ trivial
    rw [Call.outcome, sum, ← Int.cast_add, createInt_round]
    rfl
  | minus a1 a2 =>
    refine iff_of_true ⟨fun n => ?_, createInt_ne_undefined _⟩ trivial
    rw [Call.outcome, difference, ← Int.cast_sub, createInt_round]
    rfl
  | times a1 a2 =>
    refine iff_of_true ⟨fun n => ?_, createInt_ne_undefined _⟩ trivial
    rw [Call.outcome, product, ← Int.cast_mul, createInt_round]
    rfl
  | div a1 a2 =>
    refine iff_of_true ?_ trivial
    unfold Correct
    rw [Call.outcome]
    split_ifs with h
    · exact ⟨fun n => iff_of_false nofun fun hn => hn.1 h, nofun⟩
    · refine ⟨fun n => (division_eq_element h).trans (and_iff_right h).symm, ?_⟩
      rw [division, if_neg (by exact_mod_cast h)]
      exact createInt_ne_undefined _
  | mod a1 a2 => exact mod_correct
  | abs a =>
    have hle := a.2.1
    have hlt := a.2.2
    have houtcome : (Call.abs a).outcome = signed |a.1| := by
      rw [Call.outcome]
      split_ifs with h
      · rw [abs_of_neg h]
      · rw [abs_of_nonneg (not_lt.mp h)]
    rw [signed_correct houtcome fun n => Iff.rfl, Call.Safe]
    rcases abs_cases a.1 with ⟨h, hsign⟩ | ⟨h, hsign⟩ <;> rw [h] <;> omega
  | umin a =>
    have hle := a.2.1
    have hlt := a.2.2
    rw [@signed_correct (.umin a) _ rfl fun n => Iff.rfl, Call.Safe]
    omega

-- -7 mod -3 is -4
theorem not_correct_negativeDivisor :
    ¬ Correct (.mod ⟨-7, by decide⟩ ⟨-3, by decide⟩) := by
  rintro ⟨hcorrect, -⟩
  obtain ⟨-, hnonneg, -⟩ := (hcorrect ⟨-4, by decide⟩).mp (by decide)
  exact absurd hnonneg (by decide)

end NumericOperations
