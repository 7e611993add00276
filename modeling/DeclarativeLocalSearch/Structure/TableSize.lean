import Mathlib.Algebra.Order.BigOperators.Group.List
import Mathlib.Data.Int.Interval
import Mathlib.Data.Set.Card
import Mathlib.Tactic.Ring

namespace TableSize

inductive TableSizeType where
  | approximated
  | infinite
  | exact
  deriving DecidableEq

structure Size where
  type : TableSizeType
  size : ℤ
  deriving DecidableEq

-- the size of an infinite table is set to 0
def tablesize (type : TableSizeType) (size : ℤ) : Size := ⟨type, if type = .infinite then 0 else size⟩

-- nothing where the number leaves its type: it is truncated, or wrapped in an overflow that C++ leaves undefined
def within (low high n : ℤ) : Option ℤ := if low ≤ n ∧ n < high then some n else none

def int : ℤ → Option ℤ := within (-2 ^ 31) (2 ^ 31)

def unsignedInt : ℤ → Option ℤ := within 0 (2 ^ 32)

def longLong : ℤ → Option ℤ := within (-2 ^ 63) (2 ^ 63)

section Operators

def either (lhs rhs : Size) : TableSizeType :=
  if rhs.type = .approximated ∨ lhs.type = .approximated then .approximated else .exact

def add (lhs rhs : Size) : Size :=
  if rhs.type = .infinite ∨ lhs.type = .infinite then tablesize .infinite 0
  else
    match longLong (lhs.size + rhs.size) with
    | some result => tablesize (either lhs rhs) result
    | none => tablesize .infinite 0

def mul (lhs rhs : Size) : Size :=
  if rhs.type = .infinite ∨ lhs.type = .infinite then ⟨.infinite, lhs.size⟩
  else
    match longLong (lhs.size * rhs.size) with
    | some result => ⟨either lhs rhs, result⟩
    | none => ⟨.infinite, lhs.size⟩

end Operators

section Union

-- the sizes of the tables whose tuples are in the union, then of those whose tuples are not
def addIns (fit : ℤ → Option ℤ) : List Size → ℤ × TableSizeType → Option (ℤ × TableSizeType)
  | [], found => some found
  | tp :: intables, (result, type) =>
    if tp.type = .infinite then addIns fit intables (result, .infinite)
    else do
      let result ← fit (result + tp.size)
      addIns fit intables (result, type)

def subtractOuts : List Size → ℤ × TableSizeType → ℤ × TableSizeType
  | [], found => found
  | tp :: outtables, (result, type) =>
    if tp.type = .infinite then subtractOuts outtables (result, .infinite)
    else subtractOuts outtables (if result > tp.size then result - tp.size else 0, type)

end Union

variable {D : Type}

-- a union by the sizes that its tables report, which are no negative numbers
inductive SortTable (D : Type) where
  | intRange (first last : ℤ) (range : -2 ^ 31 ≤ first ∧ first ≤ last ∧ last < 2 ^ 31)
  | enumerated (table : Finset D)
  | infinite (elements : Set D)
  | union (elements : Set D) (intables outtables : List Size) (nonneg : ∀ tp ∈ intables, 0 ≤ tp.size)

def SortTable.size : SortTable D → Option Size
  | .intRange first last _ => do
    let n ← int (last - first)
    let n ← int (n + 1)
    return tablesize .exact n
  | .enumerated table => do
    let n ← longLong table.card
    return tablesize .exact n
  | .infinite _ => some (tablesize .infinite 0)
  | .union _ intables outtables _ => do
    let found ← addIns longLong intables (0, .approximated)
    let (result, type) := subtractOuts outtables found
    return tablesize type result

abbrev Universe (D : Type) := List (SortTable D)

def sizeLoop : Universe D → ℤ × TableSizeType → Option Size
  | [], (currsize, tst) => some (tablesize tst currsize)
  | table :: tables, (currsize, tst) => do
    let ts ← table.size
    match ts.type with
    | .exact =>
      let currsize ← longLong (currsize * ts.size)
      sizeLoop tables (currsize, tst)
    | .approximated =>
      let currsize ← longLong (currsize * ts.size)
      sizeLoop tables (currsize, .approximated)
    | .infinite => return tablesize .infinite 0

def universeSize (tables : Universe D) : Option Size := sizeLoop tables (1, .exact)

section Elements

variable (int : ℤ ↪ D)

def SortTable.elements : SortTable D → Set D
  | .intRange first last _ => {d | ∃ n, first ≤ n ∧ n ≤ last ∧ d = int n}
  | .enumerated table => table
  | .infinite elements => elements
  | .union elements _ _ _ => elements

def tuples (univ : Universe D) : Set (List D) := {tuple | tuple.Forall₂ (fun d table => d ∈ table.elements int) univ}

end Elements

inductive Table (int : ℤ ↪ D) (univ : Universe D) where
  | full
  | enumerated (table : Finset (List D)) (subset : ∀ tuple ∈ table, tuple ∈ tuples int univ)
  | inverse (invtable : Table int univ)
  | equal (first second : SortTable D) (binary : univ = [first, second])
  | less (first second : SortTable D) (binary : univ = [first, second])
  | greater (first second : SortTable D) (binary : univ = [first, second])
  | union (contents : Set (List D)) (intables outtables : List Size) (nonneg : ∀ tp ∈ intables, 0 ≤ tp.size)
  | procedure (accepts : List D → Bool)

-- StrLessInternalPredTable::size and StrGreaterInternalPredTable::size
def comparisonSize (table : SortTable D) : Option Size := do
  let ts ← table.size
  if ts.type = .infinite then return ts
  else if ts.size = 1 then return tablesize ts.type 0
  else
    let n ← longLong (ts.size * (ts.size - 1))
    return tablesize ts.type (n / 2)

namespace Table

variable {int : ℤ ↪ D} {univ : Universe D}

def size : Table int univ → Option Size
  | full => universeSize univ
  | enumerated table _ => do
    let n ← longLong table.card
    return tablesize .exact n
  | inverse invtable => do
    let univsize ← universeSize univ
    let invsize ← invtable.size
    if univsize.type = .infinite ∨ invsize.type = .infinite then return tablesize .infinite 0
    else
      let result ← unsignedInt (if univsize.size > invsize.size then univsize.size - invsize.size else 0)
      if invsize.type = .exact ∧ univsize.type = .exact then return tablesize .exact result
      else return tablesize .approximated result
  | equal first _ _ => first.size
  | less first _ _ => comparisonSize first
  | greater first _ _ => comparisonSize first
  | union _ intables outtables _ => do
    let found ← addIns unsignedInt intables (0, .approximated)
    let (result, type) := subtractOuts outtables found
    let univsize ← universeSize univ
    if univsize.type = .infinite then return tablesize type result
    else return tablesize type (if univsize.size < result then univsize.size else result)
  | procedure _ => do
    let univsize ← universeSize univ
    return tablesize (if univsize.type = .exact then .approximated else univsize.type) (univsize.size / 2)

variable [LinearOrder D]

def contents : Table int univ → Set (List D)
  | full => tuples int univ
  | enumerated table _ => table
  | inverse invtable => tuples int univ \ invtable.contents
  | equal _ _ _ => {tuple ∈ tuples int univ | ∃ d, tuple = [d, d]}
  | less _ _ _ => {tuple ∈ tuples int univ | ∃ d e, tuple = [d, e] ∧ d < e}
  | greater _ _ _ => {tuple ∈ tuples int univ | ∃ d e, tuple = [d, e] ∧ e < d}
  | union contents _ _ _ => contents
  | procedure accepts => {tuple ∈ tuples int univ | accepts tuple = true}

end Table

-- a number that is right if it is said to be exact, and that no step has wrapped or truncated
def Sound {α : Type} (size : Option Size) (contents : Set α) : Prop :=
  ∃ ts, size = some ts ∧ 0 ≤ ts.size ∧ (ts.type = .exact → contents.encard = ts.size.toNat)

-- the numbers that are meant, without bounds
section Numbers

def total (tables : List Size) : ℤ := (tables.map fun tp => if tp.type = .infinite then 0 else tp.size).sum

def inType (tables : List Size) : TableSizeType :=
  if ∃ tp ∈ tables, tp.type = .infinite then .infinite else .approximated

def SortTable.number : SortTable D → Size
  | .intRange first last _ => tablesize .exact (last - first + 1)
  | .enumerated table => tablesize .exact table.card
  | .infinite _ => tablesize .infinite 0
  | .union _ intables outtables _ =>
    let (result, type) := subtractOuts outtables (total intables, inType intables)
    tablesize type result

def SortTable.Fits : SortTable D → Prop
  | .intRange first last _ => last - first + 1 < 2 ^ 31
  | .enumerated table => (table.card : ℤ) < 2 ^ 63
  | .infinite _ => True
  | .union _ intables _ _ => total intables < 2 ^ 63

def numberLoop : Universe D → ℤ × TableSizeType → Size
  | [], (currsize, tst) => tablesize tst currsize
  | table :: tables, (currsize, tst) =>
    match table.number.type with
    | .exact => numberLoop tables (currsize * table.number.size, tst)
    | .approximated => numberLoop tables (currsize * table.number.size, .approximated)
    | .infinite => tablesize .infinite 0

def universeNumber (univ : Universe D) : Size := numberLoop univ (1, .exact)

-- up to the first infinite sort
def ProductFits : ℤ → Universe D → Prop
  | _, [] => True
  | currsize, table :: tables => table.Fits ∧ (table.number.type ≠ .infinite →
      currsize * table.number.size < 2 ^ 63 ∧ ProductFits (currsize * table.number.size) tables)

def comparisonNumber (ts : Size) : Size :=
  if ts.type = .infinite then ts else tablesize ts.type (ts.size * (ts.size - 1) / 2)

namespace Table

variable {int : ℤ ↪ D} {univ : Universe D}

def number : Table int univ → Size
  | full => universeNumber univ
  | enumerated table _ => tablesize .exact table.card
  | inverse invtable =>
    if (universeNumber univ).type = .infinite ∨ invtable.number.type = .infinite then tablesize .infinite 0
    else tablesize (if invtable.number.type = .exact ∧ (universeNumber univ).type = .exact then .exact else .approximated)
      (max ((universeNumber univ).size - invtable.number.size) 0)
  | equal first _ _ => first.number
  | less first _ _ => comparisonNumber first.number
  | greater first _ _ => comparisonNumber first.number
  | union _ intables outtables _ =>
    let (result, type) := subtractOuts outtables (total intables, inType intables)
    if (universeNumber univ).type = .infinite then tablesize type result
    else tablesize type (if (universeNumber univ).size < result then (universeNumber univ).size else result)
  | procedure _ =>
    tablesize (if (universeNumber univ).type = .exact then .approximated else (universeNumber univ).type)
      ((universeNumber univ).size / 2)

-- no step leaves its type
def Fits : Table int univ → Prop
  | full => ProductFits 1 univ
  | enumerated table _ => (table.card : ℤ) < 2 ^ 63
  | inverse invtable => ProductFits 1 univ ∧ invtable.Fits ∧
    ((universeNumber univ).type ≠ .infinite → invtable.number.type ≠ .infinite →
      (universeNumber univ).size - invtable.number.size < 2 ^ 32)
  | equal first _ _ => first.Fits
  | less first _ _ => first.Fits ∧ (first.number.type ≠ .infinite → first.number.size * (first.number.size - 1) < 2 ^ 63)
  | greater first _ _ =>
    first.Fits ∧ (first.number.type ≠ .infinite → first.number.size * (first.number.size - 1) < 2 ^ 63)
  | union _ intables _ _ => total intables < 2 ^ 32 ∧ ProductFits 1 univ
  | procedure _ => ProductFits 1 univ

end Table

end Numbers

section Fits

theorem within_eq {low high n : ℤ} (hlow : low ≤ n) : within low high n = if n < high then some n else none := by
  simp [within, hlow]

theorem longLong_some {n : ℤ} (h : 0 ≤ n) (hlt : n < 2 ^ 63) : longLong n = some n := by
  rw [longLong, within_eq (by omega), if_pos hlt]

theorem longLong_none {n : ℤ} (hlt : ¬ n < 2 ^ 63) : longLong n = none := by
  rw [longLong, within_eq (by omega), if_neg hlt]

theorem unsignedInt_some {n : ℤ} (h : 0 ≤ n) (hlt : n < 2 ^ 32) : unsignedInt n = some n := by
  rw [unsignedInt, within_eq h, if_pos hlt]

theorem unsignedInt_none {n : ℤ} (hlt : ¬ n < 2 ^ 32) : unsignedInt n = none := by
  rw [unsignedInt, within_eq (by omega), if_neg hlt]

theorem total_nonneg {tables : List Size} (h : ∀ tp ∈ tables, 0 ≤ tp.size) : 0 ≤ total tables := by
  refine List.sum_nonneg fun n hn => ?_
  obtain ⟨tp, htp, rfl⟩ := List.mem_map.mp hn
  split_ifs
  · exact le_rfl
  · exact h tp htp

theorem addIns_eq {low high result : ℤ} {intables : List Size} {type : TableSizeType} (hlow : low ≤ 0)
    (h : ∀ tp ∈ intables, 0 ≤ tp.size) (hresult : 0 ≤ result) (hfits : result < high) :
    addIns (within low high) intables (result, type) =
      if result + total intables < high then
        some (result + total intables, if ∃ tp ∈ intables, tp.type = .infinite then .infinite else type)
      else none := by
  induction intables generalizing result type with
  | nil => simp [addIns, total, hfits]
  | cons tp intables ih =>
    have htail : ∀ tp ∈ intables, 0 ≤ tp.size := fun tp htp => h tp (List.mem_cons_of_mem _ htp)
    have hnonneg := total_nonneg htail
    have htp := h tp List.mem_cons_self
    rw [addIns]
    by_cases htype : tp.type = .infinite
    · have htotal : total (tp :: intables) = total intables := by simp [total, htype]
      rw [if_pos htype, ih htail hresult hfits, htotal]
      simp [htype]
    · have htotal : result + total (tp :: intables) = result + tp.size + total intables := by
        simp [total, htype, add_assoc]
      rw [if_neg htype, htotal, within_eq (by omega)]
      by_cases hfits' : result + tp.size < high
      · rw [if_pos hfits', Option.bind_eq_bind, Option.bind_some, ih htail (by omega) hfits']
        simp [htype]
      · rw [if_neg hfits', if_neg (by omega)]
        rfl

theorem addIns_approximated {low high : ℤ} {intables : List Size} (hlow : low ≤ 0) (hhigh : 0 < high)
    (h : ∀ tp ∈ intables, 0 ≤ tp.size) : addIns (within low high) intables (0, .approximated) =
      if total intables < high then some (total intables, inType intables) else none := by
  rw [addIns_eq hlow h le_rfl hhigh, zero_add]
  rfl

theorem subtractOuts_nonneg {outtables : List Size} {found : ℤ × TableSizeType} (h : 0 ≤ found.1) :
    0 ≤ (subtractOuts outtables found).1 := by
  induction outtables generalizing found with
  | nil => exact h
  | cons tp outtables ih =>
    obtain ⟨result, type⟩ := found
    rw [subtractOuts]
    split_ifs with htype hlt
    · exact ih h
    · exact ih (by simp only; omega)
    · exact ih le_rfl

theorem subtractOuts_type {outtables : List Size} {found : ℤ × TableSizeType} (h : found.2 ≠ .exact) :
    (subtractOuts outtables found).2 ≠ .exact := by
  induction outtables generalizing found with
  | nil => exact h
  | cons tp outtables ih =>
    obtain ⟨result, type⟩ := found
    rw [subtractOuts]
    split_ifs with htype
    · exact ih nofun
    · exact ih h
    · exact ih h

theorem inType_ne_exact (tables : List Size) : inType tables ≠ .exact := by
  unfold inType
  split_ifs <;> exact nofun

theorem tablesize_nonneg {type : TableSizeType} {n : ℤ} (h : 0 ≤ n) : 0 ≤ (tablesize type n).size := by
  unfold tablesize
  split_ifs
  · exact le_rfl
  · exact h

theorem SortTable.number_nonneg (table : SortTable D) : 0 ≤ table.number.size := by
  cases table with
  | intRange first last range => exact tablesize_nonneg (by omega)
  | enumerated table => exact tablesize_nonneg (Int.natCast_nonneg _)
  | infinite _ => exact le_rfl
  | union _ intables _ nonneg => exact tablesize_nonneg (subtractOuts_nonneg (total_nonneg nonneg))

open Classical in
theorem SortTable.size_eq (table : SortTable D) : table.size = if table.Fits then some table.number else none := by
  cases table with
  | intRange first last range =>
    obtain ⟨hfirst, hle, hlast⟩ := range
    rw [SortTable.size, int, within_eq (by omega)]
    by_cases h : last - first + 1 < 2 ^ 31
    · rw [if_pos (by omega), if_pos (show SortTable.Fits (.intRange first last _) from h), Option.bind_eq_bind,
        Option.bind_some, within_eq (by omega), if_pos h]
      rfl
    · rw [if_neg (show ¬ SortTable.Fits (.intRange first last _) from h)]
      split_ifs with h'
      · rw [Option.bind_eq_bind, Option.bind_some, within_eq (by omega), if_neg h]
        rfl
      · rfl
  | enumerated table =>
    rw [SortTable.size, longLong, within_eq (by omega)]
    by_cases h : (table.card : ℤ) < 2 ^ 63
    · rw [if_pos h, if_pos (show SortTable.Fits (.enumerated table) from h)]
      rfl
    · rw [if_neg h, if_neg (show ¬ SortTable.Fits (.enumerated table) from h)]
      rfl
  | infinite _ => rw [if_pos (show SortTable.Fits (.infinite _) from trivial)]; rfl
  | union elements intables outtables nonneg =>
    have hlow : (-2 ^ 63 : ℤ) ≤ 0 := by omega
    have hhigh : (0 : ℤ) < 2 ^ 63 := by omega
    rw [SortTable.size, longLong, addIns_approximated hlow hhigh nonneg]
    by_cases h : total intables < 2 ^ 63
    · rw [if_pos h, if_pos (show SortTable.Fits (.union _ _ _ _) from h)]
      rfl
    · rw [if_neg h, if_neg (show ¬ SortTable.Fits (.union _ _ _ _) from h)]
      rfl

theorem numberLoop_nonneg {univ : Universe D} {found : ℤ × TableSizeType} (h : 0 ≤ found.1) :
    0 ≤ (numberLoop univ found).size := by
  induction univ generalizing found with
  | nil => exact tablesize_nonneg h
  | cons table tables ih =>
    obtain ⟨currsize, tst⟩ := found
    have hmul : 0 ≤ currsize * table.number.size := Int.mul_nonneg h table.number_nonneg
    rw [numberLoop]
    cases table.number.type with
    | exact => exact ih hmul
    | approximated => exact ih hmul
    | infinite => exact le_rfl

open Classical in
theorem sizeLoop_eq {univ : Universe D} {currsize : ℤ} {tst : TableSizeType} (h : 0 ≤ currsize) :
    sizeLoop univ (currsize, tst) =
      if ProductFits currsize univ then some (numberLoop univ (currsize, tst)) else none := by
  induction univ generalizing currsize tst with
  | nil => rw [if_pos (show ProductFits currsize [] from trivial)]; rfl
  | cons table tables ih =>
    have hmul : 0 ≤ currsize * table.number.size := Int.mul_nonneg h table.number_nonneg
    rw [sizeLoop, table.size_eq, ProductFits, numberLoop]
    by_cases htable : table.Fits
    · rw [if_pos htable, Option.bind_eq_bind, Option.bind_some]
      by_cases hinfinite : table.number.type = .infinite
      · simp [hinfinite, htable]
      · by_cases hlt : currsize * table.number.size < 2 ^ 63
        · cases htype : table.number.type with
          | infinite => exact absurd htype hinfinite
          | exact => simp [-Int.reducePow, longLong_some hmul hlt, hlt, htable, ih hmul]
          | approximated => simp [-Int.reducePow, longLong_some hmul hlt, hlt, htable, ih hmul]
        · cases htype : table.number.type with
          | infinite => exact absurd htype hinfinite
          | exact => simp [-Int.reducePow, longLong_none hlt, hlt]
          | approximated => simp [-Int.reducePow, longLong_none hlt, hlt]
    · simp [htable]

open Classical in
theorem universeSize_eq (univ : Universe D) :
    universeSize univ = if ProductFits 1 univ then some (universeNumber univ) else none :=
  sizeLoop_eq (by omega)

theorem universeNumber_nonneg (univ : Universe D) : 0 ≤ (universeNumber univ).size :=
  numberLoop_nonneg (show (0 : ℤ) ≤ 1 by omega)

theorem pairs_nonneg {n : ℤ} (h : 0 ≤ n) : 0 ≤ n * (n - 1) := by
  rcases h.eq_or_lt with rfl | h
  · omega
  · exact Int.mul_nonneg h.le (by omega)

open Classical in
theorem comparisonSize_eq (table : SortTable D) : comparisonSize table =
    if table.Fits ∧ (table.number.type ≠ .infinite → table.number.size * (table.number.size - 1) < 2 ^ 63) then
      some (comparisonNumber table.number)
    else none := by
  have hpairs := pairs_nonneg table.number_nonneg
  rw [comparisonSize, table.size_eq, comparisonNumber]
  by_cases htable : table.Fits
  · rw [if_pos htable, Option.bind_eq_bind, Option.bind_some]
    by_cases hinfinite : table.number.type = .infinite
    · simp [hinfinite, htable]
    · by_cases hone : table.number.size = 1
      · simp [hinfinite, hone, htable]
      · by_cases hlt : table.number.size * (table.number.size - 1) < 2 ^ 63
        · simp [-Int.reducePow, hinfinite, hone, htable, longLong_some hpairs hlt, hlt]
        · simp [-Int.reducePow, hinfinite, hone, longLong_none hlt, hlt]
  · simp [htable]

theorem comparisonNumber_nonneg {ts : Size} (h : 0 ≤ ts.size) : 0 ≤ (comparisonNumber ts).size := by
  unfold comparisonNumber
  split_ifs
  · exact h
  · exact tablesize_nonneg (Int.ediv_nonneg (pairs_nonneg h) (by omega))

namespace Table

variable {int : ℤ ↪ D} {univ : Universe D}

theorem number_nonneg (table : Table int univ) : 0 ≤ table.number.size := by
  have huniv := universeNumber_nonneg univ
  cases table with
  | full => exact huniv
  | enumerated table _ => exact tablesize_nonneg (Int.natCast_nonneg _)
  | inverse invtable =>
    rw [number]
    split_ifs
    · exact le_rfl
    · exact tablesize_nonneg (le_max_right _ _)
    · exact tablesize_nonneg (le_max_right _ _)
  | equal first _ _ => exact first.number_nonneg
  | less first _ _ => exact comparisonNumber_nonneg first.number_nonneg
  | greater first _ _ => exact comparisonNumber_nonneg first.number_nonneg
  | union _ intables outtables nonneg =>
    have hresult := @subtractOuts_nonneg outtables (total intables, inType intables)
      (total_nonneg nonneg)
    rw [number]
    generalize subtractOuts outtables (total intables, inType intables) = found at hresult
    obtain ⟨result, type⟩ := found
    simp only
    split_ifs
    · exact tablesize_nonneg hresult
    · exact tablesize_nonneg huniv
    · exact tablesize_nonneg hresult
  | procedure _ => exact tablesize_nonneg (Int.ediv_nonneg huniv (by omega))

open Classical in
theorem size_eq (table : Table int univ) : table.size = if table.Fits then some table.number else none := by
  induction table with
  | full => exact universeSize_eq univ
  | enumerated table _ =>
    have hcard := Int.natCast_nonneg table.card
    rw [size, Fits, number]
    by_cases h : (table.card : ℤ) < 2 ^ 63
    · rw [if_pos h, longLong_some hcard h]
      rfl
    · rw [if_neg h, longLong_none h]
      rfl
  | inverse invtable ih =>
    rw [size, universeSize_eq, ih, Fits, number]
    by_cases huniv : ProductFits 1 univ
    · by_cases hinv : invtable.Fits
      · rw [if_pos huniv, if_pos hinv, Option.bind_eq_bind, Option.bind_some, Option.bind_eq_bind, Option.bind_some]
        by_cases hinfinite : (universeNumber univ).type = .infinite ∨ invtable.number.type = .infinite
        · rw [if_pos hinfinite, if_pos hinfinite, if_pos]
          · rfl
          · exact ⟨huniv, hinv, fun h1 h2 => absurd hinfinite (not_or.mpr ⟨h1, h2⟩)⟩
        · obtain ⟨h1, h2⟩ := not_or.mp hinfinite
          rw [if_neg hinfinite, if_neg hinfinite]
          have hmax : (if (universeNumber univ).size > invtable.number.size then
              (universeNumber univ).size - invtable.number.size else 0) =
              max ((universeNumber univ).size - invtable.number.size) 0 := by
            split_ifs <;> omega
          have hnonneg : 0 ≤ max ((universeNumber univ).size - invtable.number.size) 0 := le_max_right _ _
          rw [hmax]
          by_cases hlt : max ((universeNumber univ).size - invtable.number.size) 0 < 2 ^ 32
          · rw [unsignedInt_some hnonneg hlt, if_pos ⟨huniv, hinv, fun _ _ => by omega⟩, Option.bind_some]
            by_cases hexact : invtable.number.type = .exact ∧ (universeNumber univ).type = .exact
            · rw [if_pos hexact, if_pos hexact]
              rfl
            · rw [if_neg hexact, if_neg hexact]
              rfl
          · rw [unsignedInt_none hlt, if_neg]
            · rfl
            · exact fun h => hlt (by have := h.2.2 h1 h2; omega)
      · simp [huniv, hinv]
    · simp [huniv]
  | equal first _ _ => exact first.size_eq
  | less first _ _ => convert comparisonSize_eq first <;> rfl
  | greater first _ _ => convert comparisonSize_eq first <;> rfl
  | union _ intables outtables nonneg =>
    have hhigh : (0 : ℤ) < 2 ^ 32 := by omega
    rw [size, unsignedInt, addIns_approximated le_rfl hhigh nonneg, Fits, number, universeSize_eq]
    by_cases h : total intables < 2 ^ 32
    · by_cases huniv : ProductFits 1 univ
      · rw [if_pos h, if_pos huniv, if_pos ⟨h, huniv⟩, Option.bind_eq_bind, Option.bind_some]
        simp only [Option.bind_eq_bind, Option.bind_some]
        by_cases hinfinite : (universeNumber univ).type = .infinite
        · rw [if_pos hinfinite, if_pos hinfinite]
          rfl
        · rw [if_neg hinfinite, if_neg hinfinite]
          rfl
      · rw [if_pos h, if_neg huniv, if_neg fun h => huniv h.2, Option.bind_eq_bind, Option.bind_some]
        rfl
    · rw [if_neg h, if_neg (show ¬ (total intables < 2 ^ 32 ∧ ProductFits 1 univ) from fun h' => h h'.1)]
      rfl
  | procedure _ =>
    rw [size, universeSize_eq, Fits, number]
    by_cases huniv : ProductFits 1 univ
    · rw [if_pos huniv, if_pos huniv]
      rfl
    · rw [if_neg huniv, if_neg huniv]
      rfl

end Table

end Fits

section Exact

variable {int : ℤ ↪ D}

theorem tablesize_size {type : TableSizeType} {n : ℤ} (h : type ≠ .infinite) : (tablesize type n).size = n := if_neg h

theorem SortTable.number_exact {table : SortTable D} (h : table.number.type = .exact) :
    (table.elements int).encard = table.number.size.toNat := by
  cases table with
  | intRange first last range =>
    have himage : (SortTable.intRange first last range : SortTable D).elements int =
        int '' (Finset.Icc first last : Set ℤ) := by
      ext d
      simp [SortTable.elements, and_assoc, eq_comm]
    rw [himage, int.injective.encard_image, Set.encard_coe_eq_coe_finsetCard, Int.card_Icc]
    have hsize : (SortTable.intRange first last range : SortTable D).number.size = last - first + 1 := rfl
    rw [hsize, show last + 1 - first = last - first + 1 by ring]
  | enumerated table => exact Set.encard_coe_eq_coe_finsetCard table
  | infinite _ => cases h
  | union _ intables outtables _ =>
    exact absurd h (@subtractOuts_type outtables (total intables, inType intables)
      (inType_ne_exact intables))

theorem encard_tuples_cons (table : SortTable D) (tables : Universe D) : (tuples int (table :: tables)).encard =
    (table.elements int).encard * (tuples int tables).encard := by
  have himage : tuples int (table :: tables) =
      (fun p : D × List D => p.1 :: p.2) '' (table.elements int ×ˢ tuples int tables) := by
    ext tuple
    cases tuple with
    | nil => simp [tuples]
    | cons d tuple => simp [tuples]
  have hinjective : Function.Injective fun p : D × List D => p.1 :: p.2 := by
    rintro ⟨d, t⟩ ⟨e, u⟩ h
    obtain ⟨rfl, rfl⟩ := List.cons.inj h
    rfl
  rw [himage, hinjective.encard_image, Set.encard_prod]

theorem numberLoop_exact {univ : Universe D} {currsize : ℤ} {tst : TableSizeType}
    (h : (numberLoop univ (currsize, tst)).type = .exact) : tst = .exact ∧ ∃ n : ℕ,
      (tuples int univ).encard = n ∧ (numberLoop univ (currsize, tst)).size = currsize * n := by
  induction univ generalizing currsize tst with
  | nil =>
    have htst : tst = .exact := h
    have htuples : tuples int ([] : Universe D) = {[]} := by
      ext tuple
      simp [tuples]
    refine ⟨htst, 1, ?_, ?_⟩
    · rw [htuples, Set.encard_singleton]
      rfl
    · rw [htst]
      simp [numberLoop, tablesize]
  | cons table tables ih =>
    rw [numberLoop] at h ⊢
    cases htype : table.number.type with
    | infinite =>
      rw [htype] at h
      cases h
    | approximated =>
      rw [htype] at h
      obtain ⟨happroximated, -⟩ := ih h
      cases happroximated
    | exact =>
      rw [htype] at h
      obtain ⟨htst, n, hn, hsize⟩ := ih h
      refine ⟨htst, table.number.size.toNat * n, ?_, ?_⟩
      · rw [encard_tuples_cons, SortTable.number_exact htype, hn, Nat.cast_mul]
      · simp only [hsize]
        rw [Nat.cast_mul, Int.toNat_of_nonneg table.number_nonneg, mul_assoc]

theorem universeNumber_exact {univ : Universe D} (h : (universeNumber univ).type = .exact) :
    (tuples int univ).encard = (universeNumber univ).size.toNat := by
  obtain ⟨-, n, hn, hsize⟩ := @numberLoop_exact _ int _ _ _ h
  rw [hn, universeNumber, hsize, one_mul, Int.toNat_natCast]

section Pairs

variable [LinearOrder D] (first second : Set D)

def increasing : Set (D × D) := {p ∈ first ×ˢ second | p.1 < p.2}

def decreasing : Set (D × D) := {p ∈ first ×ˢ second | p.2 < p.1}

theorem encard_decreasing : (decreasing first first).encard = (increasing first first).encard := by
  have himage : decreasing first first = Prod.swap '' increasing first first := by
    ext ⟨d, e⟩
    simp [increasing, decreasing, and_comm]
  rw [himage, Prod.swap_injective.encard_image]

theorem encard_increasing {n : ℕ} (h : first.encard = n) : (increasing first first).encard = (n * (n - 1) / 2 : ℕ) := by
  lift first to Finset D using Set.finite_of_encard_eq_coe h
  rw [Set.encard_coe_eq_coe_finsetCard, Nat.cast_inj] at h
  have hunion : (first.offDiag : Set (D × D)) = increasing first first ∪ decreasing first first := by
    ext ⟨d, e⟩
    constructor
    · intro hmem
      obtain ⟨hd, he, hne⟩ := Finset.mem_offDiag.mp hmem
      exact (lt_or_gt_of_ne hne).imp (fun h => ⟨⟨hd, he⟩, h⟩) fun h => ⟨⟨hd, he⟩, h⟩
    · rintro (⟨⟨hd, he⟩, hlt⟩ | ⟨⟨hd, he⟩, hgt⟩)
      · exact Finset.mem_offDiag.mpr ⟨hd, he, ne_of_lt hlt⟩
      · exact Finset.mem_offDiag.mpr ⟨hd, he, ne_of_gt hgt⟩
  have hdisjoint : Disjoint (increasing (first : Set D) first) (decreasing first first) :=
    Set.disjoint_left.mpr fun _ hlt hgt => lt_asymm hlt.2 hgt.2
  have hcard := congrArg Set.encard hunion
  rw [Set.encard_coe_eq_coe_finsetCard, Finset.offDiag_card, Set.encard_union_eq hdisjoint, encard_decreasing, h] at hcard
  have hfinite : (increasing (first : Set D) first).Finite :=
    (first.finite_toSet.prod first.finite_toSet).subset (Set.sep_subset _ _)
  obtain ⟨k, hk⟩ := hfinite.exists_encard_eq_coe
  rw [hk] at hcard ⊢
  have hcard' : n * n - n = k + k := by exact_mod_cast hcard
  rw [Nat.cast_inj, Nat.mul_sub_one, hcard']
  omega

omit [LinearOrder D] in
theorem encard_pairs {R : D → D → Prop} {univ : Universe D} {A B : SortTable D}
    (binary : univ = [A, B]) : {tuple ∈ tuples int univ | ∃ d e, tuple = [d, e] ∧ R d e}.encard =
      {p ∈ A.elements int ×ˢ B.elements int | R p.1 p.2}.encard := by
  have himage : {tuple ∈ tuples int univ | ∃ d e, tuple = [d, e] ∧ R d e} =
      (fun p : D × D => [p.1, p.2]) '' {p ∈ A.elements int ×ˢ B.elements int | R p.1 p.2} := by
    ext tuple
    constructor
    · rintro ⟨htuple, d, e, rfl, hR⟩
      have hmem : d ∈ A.elements int ∧ e ∈ B.elements int := by simpa [tuples, binary] using htuple
      exact ⟨(d, e), ⟨hmem, hR⟩, rfl⟩
    · rintro ⟨⟨d, e⟩, ⟨⟨hd, he⟩, hR⟩, rfl⟩
      refine ⟨?_, d, e, rfl, hR⟩
      have hmem : d ∈ A.elements int ∧ e ∈ B.elements int := ⟨hd, he⟩
      simpa [tuples, binary] using hmem
  have hinjective : Function.Injective fun p : D × D => [p.1, p.2] := by
    rintro ⟨d, e⟩ ⟨d', e'⟩ h
    cases h
    rfl
  rw [himage, hinjective.encard_image]

omit [LinearOrder D] in
theorem comparisonNumber_type (ts : Size) : (comparisonNumber ts).type = ts.type := by
  unfold comparisonNumber
  split_ifs <;> rfl

theorem comparisonNumber_exact {A : SortTable D} (h : (comparisonNumber A.number).type = .exact) :
    (increasing (A.elements int) (A.elements int)).encard = (comparisonNumber A.number).size.toNat := by
  have hexact : A.number.type = .exact := (comparisonNumber_type _).symm.trans h
  have hnot : A.number.type ≠ .infinite := by simp [hexact]
  have hsize : (comparisonNumber A.number).size = A.number.size * (A.number.size - 1) / 2 := by
    rw [comparisonNumber, if_neg hnot, tablesize_size hnot]
  obtain ⟨n, hn⟩ := Int.eq_ofNat_of_zero_le A.number_nonneg
  have hcount := @SortTable.number_exact _ int _ hexact
  rw [hn, Int.toNat_natCast] at hcount
  rw [encard_increasing _ hcount, hsize, hn, Nat.cast_inj]
  cases n with
  | zero => rfl
  | succ n =>
    push_cast
    rw [add_sub_cancel_right]
    norm_cast

end Pairs

namespace Table

variable {univ : Universe D} [LinearOrder D]

-- the number that is said to be exact
def Right : Table int univ → Prop
  | inverse invtable => (universeNumber univ).type = .exact → invtable.number.type = .exact →
    invtable.Right ∨ invtable.contents = tuples int univ ∧ (universeNumber univ).size ≤ invtable.number.size
  | equal first second _ => first.number.type = .exact → first.elements int ⊆ second.elements int
  | less first second _ => first.number.type = .exact →
    (increasing (first.elements int) (second.elements int)).encard =
      (increasing (first.elements int) (first.elements int)).encard
  | greater first second _ => first.number.type = .exact →
    (decreasing (first.elements int) (second.elements int)).encard =
      (decreasing (first.elements int) (first.elements int)).encard
  | _ => True

omit [LinearOrder D] in
theorem union_ne_exact (contents : Set (List D)) {intables outtables : List Size} (nonneg : ∀ tp ∈ intables, 0 ≤ tp.size) :
    (union contents intables outtables nonneg : Table int univ).number.type ≠ .exact := by
  have htype := @subtractOuts_type outtables (total intables, inType intables)
    (inType_ne_exact intables)
  rw [number]
  generalize subtractOuts outtables (total intables, inType intables) = found at htype
  obtain ⟨result, type⟩ := found
  simp only
  split_ifs <;> exact htype

theorem contents_subset {table : Table int univ} (h : table.number.type = .exact) :
    table.contents ⊆ tuples int univ := by
  cases table with
  | full => exact subset_rfl
  | enumerated table subset => exact subset
  | inverse invtable => exact Set.sdiff_subset
  | equal _ _ _ => exact Set.sep_subset _ _
  | less _ _ _ => exact Set.sep_subset _ _
  | greater _ _ _ => exact Set.sep_subset _ _
  | union contents _ _ nonneg => exact absurd h (union_ne_exact contents nonneg)
  | procedure _ => exact Set.sep_subset _ _

theorem inverse_exact_iff {invtable : Table int univ}
    (ih : (invtable.number.type = .exact → invtable.contents.encard = invtable.number.size.toNat) ↔ invtable.Right) :
    ((inverse invtable).number.type = .exact →
      (inverse invtable).contents.encard = (inverse invtable).number.size.toNat) ↔ (inverse invtable).Right := by
  by_cases hexact : (universeNumber univ).type = .exact ∧ invtable.number.type = .exact
  · obtain ⟨huniv, hinv⟩ := hexact
    have hnumber : (inverse invtable).number =
        tablesize .exact (max ((universeNumber univ).size - invtable.number.size) 0) := by
      simp [number, huniv, hinv]
    have hsubset := contents_subset hinv
    have hcount := @universeNumber_exact _ int _ huniv
    have hfinite : (tuples int univ).Finite := Set.finite_of_encard_eq_coe hcount
    obtain ⟨c, hc⟩ := (hfinite.subset hsubset).exists_encard_eq_coe
    have hle : c ≤ (universeNumber univ).size.toNat := by
      have hmono := Set.encard_le_encard hsubset
      rw [hc, hcount] at hmono
      exact_mod_cast hmono
    have hall : invtable.contents = tuples int univ ↔ c = (universeNumber univ).size.toNat := by
      constructor
      · intro h
        rw [h, hcount, Nat.cast_inj] at hc
        exact hc.symm
      · intro h
        exact (hfinite.subset hsubset).eq_of_subset_of_encard_le hsubset (by rw [hc, hcount, h])
    have hrest : (inverse invtable).contents.encard = ((universeNumber univ).size.toNat - c : ℕ) := by
      rw [contents, Set.encard_sdiff hsubset (hfinite.subset hsubset), hcount, hc]
      norm_cast
    have hsize : (tablesize .exact (max ((universeNumber univ).size - invtable.number.size) 0)).size =
        max ((universeNumber univ).size - invtable.number.size) 0 := tablesize_size nofun
    have huniv_nonneg := universeNumber_nonneg univ
    have hinv_nonneg := invtable.number_nonneg
    have hright : (inverse invtable).Right ↔ (invtable.Right ∨
        invtable.contents = tuples int univ ∧ (universeNumber univ).size ≤ invtable.number.size) := by
      rw [Right]
      exact ⟨fun h => h huniv hinv, fun h _ _ => h⟩
    rw [hright, ← ih, hall, hrest, hnumber, hsize, hc]
    simp only [hinv, true_imp_iff, Nat.cast_inj]
    have htype : (tablesize .exact (max ((universeNumber univ).size - invtable.number.size) 0)).type = .exact := rfl
    simp only [htype, true_imp_iff]
    omega
  · have hnumber : (inverse invtable).number.type ≠ .exact := by
      rw [number]
      split_ifs with hinfinite h
      · exact nofun
      · exact absurd ⟨h.2, h.1⟩ hexact
      · exact nofun
    exact iff_of_true (fun h => absurd h hnumber) fun huniv hinv => absurd ⟨huniv, hinv⟩ hexact

theorem exact_iff (table : Table int univ) :
    (table.number.type = .exact → table.contents.encard = table.number.size.toNat) ↔ table.Right := by
  induction table with
  | full => exact iff_of_true universeNumber_exact trivial
  | enumerated table _ => exact iff_of_true (fun _ => Set.encard_coe_eq_coe_finsetCard table) trivial
  | inverse invtable ih => exact inverse_exact_iff ih
  | equal first second binary =>
    refine imp_congr_right fun h => ?_
    have himage : (equal first second binary : Table int univ).contents =
        (fun d => [d, d]) '' (first.elements int ∩ second.elements int) := by
      ext tuple
      constructor
      · rintro ⟨htuple, d, rfl⟩
        have hmem : d ∈ first.elements int ∧ d ∈ second.elements int := by simpa [tuples, binary] using htuple
        exact ⟨d, hmem, rfl⟩
      · rintro ⟨d, hmem, rfl⟩
        have hmem' : d ∈ first.elements int ∧ d ∈ second.elements int := hmem
        exact ⟨by simpa [tuples, binary] using hmem', d, rfl⟩
    have hinjective : Function.Injective fun d : D => [d, d] := by
      intro d e h
      exact (List.cons.inj h).1
    have hcount := @SortTable.number_exact _ int first h
    rw [himage, hinjective.encard_image, number, ← hcount]
    constructor
    · intro heq
      have hfinite : (first.elements int).Finite := Set.finite_of_encard_eq_coe hcount
      exact Set.inter_eq_left.mp
        ((hfinite.subset Set.inter_subset_left).eq_of_subset_of_encard_le Set.inter_subset_left heq.ge)
    · intro hsubset
      rw [Set.inter_eq_left.mpr hsubset]
  | less first second binary =>
    have htype : (less first second binary : Table int univ).number.type = first.number.type := comparisonNumber_type _
    rw [htype]
    refine imp_congr_right fun h => ?_
    rw [contents, encard_pairs binary, number, ← comparisonNumber_exact (htype.trans h)]
    rfl
  | greater first second binary =>
    have htype : (greater first second binary : Table int univ).number.type = first.number.type :=
      comparisonNumber_type _
    rw [htype]
    refine imp_congr_right fun h => ?_
    have hpairs := @encard_pairs _ int (fun d e => e < d) _ _ _ binary
    rw [contents, hpairs, number, ← comparisonNumber_exact (htype.trans h), ← encard_decreasing]
    rfl
  | union contents _ _ nonneg => exact iff_of_true (fun h => absurd h (union_ne_exact contents nonneg)) trivial
  | procedure accepts =>
    have htype : (procedure accepts : Table int univ).number.type =
        if (universeNumber univ).type = .exact then .approximated else (universeNumber univ).type := rfl
    refine iff_of_true (fun h => absurd h ?_) trivial
    rw [htype]
    split_ifs with hexact
    · exact nofun
    · exact hexact

theorem sound_table (table : Table int univ) : Sound table.size table.contents ↔ table.Fits ∧ table.Right := by
  rw [← exact_iff, Sound, size_eq]
  constructor
  · rintro ⟨ts, hts, -, hexact⟩
    split_ifs at hts with hfits
    obtain rfl := Option.some.inj hts
    exact ⟨hfits, hexact⟩
  · rintro ⟨hfits, hexact⟩
    exact ⟨table.number, if_pos hfits, table.number_nonneg, hexact⟩

end Table

theorem either_exact {lhs rhs : Size} (hlhs : lhs.type ≠ .infinite) (hrhs : rhs.type ≠ .infinite)
    (h : either lhs rhs = .exact) : lhs.type = .exact ∧ rhs.type = .exact := by
  unfold either at h
  split_ifs at h with happroximated
  rw [not_or] at happroximated
  cases hl : lhs.type <;> cases hr : rhs.type <;> simp_all

theorem add_exact {lhs rhs : Size} (h : (add lhs rhs).type = .exact) :
    lhs.type = .exact ∧ rhs.type = .exact ∧ (add lhs rhs).size = lhs.size + rhs.size := by
  unfold add at h ⊢
  by_cases hinfinite : rhs.type = .infinite ∨ lhs.type = .infinite
  · rw [if_pos hinfinite] at h
    cases h
  · rw [if_neg hinfinite] at h ⊢
    obtain ⟨hrhs, hlhs⟩ := not_or.mp hinfinite
    unfold longLong within at h ⊢
    by_cases hfits : -2 ^ 63 ≤ lhs.size + rhs.size ∧ lhs.size + rhs.size < 2 ^ 63
    · rw [if_pos hfits] at h ⊢
      have heither : either lhs rhs = .exact := h
      obtain ⟨hl, hr⟩ := either_exact hlhs hrhs heither
      refine ⟨hl, hr, ?_⟩
      simp only [heither]
      exact tablesize_size nofun
    · rw [if_neg hfits] at h
      cases h

theorem mul_exact {lhs rhs : Size} (h : (mul lhs rhs).type = .exact) :
    lhs.type = .exact ∧ rhs.type = .exact ∧ (mul lhs rhs).size = lhs.size * rhs.size := by
  unfold mul at h ⊢
  by_cases hinfinite : rhs.type = .infinite ∨ lhs.type = .infinite
  · rw [if_pos hinfinite] at h
    cases h
  · rw [if_neg hinfinite] at h ⊢
    obtain ⟨hrhs, hlhs⟩ := not_or.mp hinfinite
    unfold longLong within at h ⊢
    by_cases hfits : -2 ^ 63 ≤ lhs.size * rhs.size ∧ lhs.size * rhs.size < 2 ^ 63
    · rw [if_pos hfits] at h ⊢
      obtain ⟨hl, hr⟩ := either_exact hlhs hrhs h
      exact ⟨hl, hr, rfl⟩
    · rw [if_neg hfits] at h
      cases h

-- the complement of no tuples over 2^16 times 2^16 ones
def largeUniverse : Universe ℤ := [.intRange 1 65536 (by decide), .intRange 1 65536 (by decide)]

def largeComplement : Table (Function.Embedding.refl ℤ) largeUniverse := .inverse (.enumerated ∅ (by simp))

end Exact

end TableSize
