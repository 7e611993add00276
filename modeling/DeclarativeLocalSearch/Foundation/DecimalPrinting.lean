import DeclarativeLocalSearch.Foundation.Binary64

namespace DecimalPrinting

abbrev digits (n : ℕ) : List Char := Nat.toDigits 10 n

def printInt (n : ℤ) : List Char := if n < 0 then '-' :: digits n.natAbs else digits n.natAbs

-- the decimal significand of the given number of digits, the nearest one, and its exponent
def significand (precision : ℕ) (q : ℚ) : ℕ × ℤ :=
  let exponent := Int.log 10 q
  let rounded := (Binary64.roundEven (q / 10 ^ (exponent - (precision - 1)))).toNat
  if rounded = 10 ^ precision then (10 ^ (precision - 1), exponent + 1) else (rounded, exponent)

def stripZeros (l : List Char) : List Char := (l.reverse.dropWhile (· = '0')).reverse

def withFraction (whole fraction : List Char) : List Char :=
  match stripZeros fraction with
  | [] => whole
  | c :: l => whole ++ '.' :: c :: l

def printExponent (exponent : ℤ) : List Char :=
  let ds := digits exponent.natAbs
  'e' :: (if exponent < 0 then '-' else '+') :: (if ds.length < 2 then '0' :: ds else ds)

def printPositive (precision : ℕ) (q : ℚ) : List Char :=
  let (m, exponent) := significand precision q
  let ds := digits m
  if exponent < -4 ∨ precision ≤ exponent then
    withFraction (ds.take 1) (ds.drop 1) ++ printExponent exponent
  else if 0 ≤ exponent then withFraction (ds.take (exponent.toNat + 1)) (ds.drop (exponent.toNat + 1))
  else withFraction ['0'] (List.replicate (-exponent - 1).toNat '0' ++ ds)

-- what a stream prints in its default notation
def print (precision : ℕ) (q : ℚ) : List Char :=
  if q = 0 then ['0'] else if q < 0 then '-' :: printPositive precision (-q) else printPositive precision q

def numeric (c : Char) : Bool := c.isDigit || c = '-' || c = '+' || c = '.' || c = 'e'

theorem digits_injective {m n : ℕ} (h : digits m = digits n) : m = n := by
  have heq := congrArg (fun ds => Nat.ofDigitChars 10 ds 0) h
  simpa only [Nat.ofDigitChars_ten_toDigits] using heq

theorem isDigit_of_mem_digits {n : ℕ} {c : Char} (h : c ∈ digits n) : c.isDigit = true :=
  Nat.isDigit_of_mem_toDigits (by decide) le_rfl h

theorem numeric_of_mem_digits {n : ℕ} {c : Char} (h : c ∈ digits n) : numeric c = true := by
  simp [numeric, isDigit_of_mem_digits h]

theorem numeric_printInt {n : ℤ} {c : Char} (h : c ∈ printInt n) : numeric c = true := by
  rw [printInt] at h
  split at h
  · rcases List.mem_cons.mp h with rfl | hc
    · rfl
    · exact numeric_of_mem_digits hc
  · exact numeric_of_mem_digits h

theorem mem_stripZeros {l : List Char} {c : Char} (h : c ∈ stripZeros l) : c ∈ l :=
  List.mem_reverse.mp ((List.dropWhile_sublist _).mem (List.mem_reverse.mp h))

theorem numeric_withFraction {whole fraction : List Char} (hwhole : ∀ c ∈ whole, numeric c = true)
    (hfraction : ∀ c ∈ fraction, numeric c = true) : ∀ c ∈ withFraction whole fraction, numeric c = true := by
  intro c hc
  rw [withFraction] at hc
  split at hc
  · exact hwhole c hc
  · next d l hstrip =>
    rcases List.mem_append.mp hc with hc | hc
    · exact hwhole c hc
    rcases List.mem_cons.mp hc with rfl | hc
    · rfl
    · exact hfraction c (mem_stripZeros (hstrip ▸ hc))

theorem numeric_printExponent {exponent : ℤ} : ∀ c ∈ printExponent exponent, numeric c = true := by
  intro c hc
  simp only [printExponent, List.mem_cons] at hc
  rcases hc with rfl | rfl | hc
  · rfl
  · split <;> rfl
  · split at hc
    · rcases List.mem_cons.mp hc with rfl | hc
      · rfl
      · exact numeric_of_mem_digits hc
    · exact numeric_of_mem_digits hc

theorem numeric_printPositive {precision : ℕ} {q : ℚ} : ∀ c ∈ printPositive precision q, numeric c = true := by
  intro c hc
  have htake : ∀ m k, ∀ c ∈ (digits m).take k, numeric c = true := fun m k c hc =>
    numeric_of_mem_digits (List.mem_of_mem_take hc)
  have hdrop : ∀ m k, ∀ c ∈ (digits m).drop k, numeric c = true := fun m k c hc =>
    numeric_of_mem_digits (List.mem_of_mem_drop hc)
  simp only [printPositive] at hc
  split at hc
  · rcases List.mem_append.mp hc with hc | hc
    · exact numeric_withFraction (htake _ _) (hdrop _ _) c hc
    · exact numeric_printExponent c hc
  split at hc
  · exact numeric_withFraction (htake _ _) (hdrop _ _) c hc
  · have hzero : ∀ d ∈ ['0'], numeric d = true := fun d hd => by
      rw [List.mem_singleton.mp hd]
      rfl
    refine numeric_withFraction hzero (fun d hd => ?_) c hc
    rcases List.mem_append.mp hd with hd | hd
    · rw [List.eq_of_mem_replicate hd]
      rfl
    · exact numeric_of_mem_digits hd

theorem numeric_print {precision : ℕ} {q : ℚ} : ∀ c ∈ print precision q, numeric c = true := by
  intro c hc
  rw [print] at hc
  split at hc
  · rw [List.mem_singleton.mp hc]
    rfl
  split at hc
  · rcases List.mem_cons.mp hc with rfl | hc
    · rfl
    · exact numeric_printPositive c hc
  · exact numeric_printPositive c hc

end DecimalPrinting
