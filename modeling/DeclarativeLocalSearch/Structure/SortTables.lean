import DeclarativeLocalSearch.Structure.SortElement
import Mathlib.Data.Finset.Max
import Mathlib.Tactic.NormNum

namespace SortTables

open CheckedInt DomainElement

-- no tables: the table of a constructor is infinite
structure Constructor (C : Type) where
  contains : C → Bool
  elements : Option (List C)
  mem_iff : ∀ l ∈ elements, ∀ c, contains c = true ↔ c ∈ l

inductive FiniteTable (C : Type) where
  | enumerated (table : Finset (DomainElement C))
  | intRange (first last : IntValue)

inductive InfiniteTable where
  | naturals
  | integers
  | floats
  | strings
  deriving DecidableEq

mutual

-- the first in-table and the first out-table are the enumerated ones a union is made with, the other
-- in-tables are infinite; the numbers are the reference counts of the internal tables below
inductive InternalSortTable (C : Type) where
  | finite (t : FiniteTable C)
  | infinite (t : InfiniteTable)
  | chars
  | constructed (constructors : List (Constructor C))
  | union (nrIn : ℕ) (intable : FiniteTable C) (intables : List InfiniteTable)
      (nrOut : ℕ) (outtable : FiniteTable C) (outtables : OutTables C)

inductive OutTables (C : Type) where
  | nil
  | cons (nrRefs : ℕ) (t : InternalSortTable C) (ts : OutTables C)

end

variable {C : Type} [LinearOrder C]

section Contains

def FiniteTable.contains : FiniteTable C → DomainElement C → Bool
  | .enumerated table, d => d ∈ table
  | .intRange first last, .int n => first ≤ n && n ≤ last
  | .intRange _ _, _ => false

def InfiniteTable.contains : InfiniteTable → DomainElement C → Bool
  | .naturals, .int n => 0 ≤ n.1
  | .naturals, _ => false
  | .integers, .int _ => true
  | .integers, _ => false
  | .floats, .int _ => true
  | .floats, .double _ => true
  | .floats, _ => false
  | .strings, .compound _ => false
  | .strings, _ => true

def charsContains : DomainElement C → Bool
  | .int n => 0 ≤ n.1 && n.1 < 10
  | .string s => s.length = 1
  | _ => false

def constructedContains (constructors : List (Constructor C)) : DomainElement C → Bool
  | .compound c => constructors.any (·.contains c)
  | _ => false

mutual

def InternalSortTable.contains : InternalSortTable C → DomainElement C → Bool
  | .finite t, d => t.contains d
  | .infinite t, d => t.contains d
  | .chars, d => charsContains d
  | .constructed constructors, d => constructedContains constructors d
  | .union _ intable intables _ outtable outtables, d =>
    (intable.contains d || intables.any (·.contains d)) &&
      !(outtable.contains d || outtables.contains d)

def OutTables.contains : OutTables C → DomainElement C → Bool
  | .nil, _ => false
  | .cons _ t ts, d => t.contains d || ts.contains d

end

end Contains

section FiniteTable

-- a table is changed in place unless others refer to it
def refsAfter (nrRefs : ℕ) : ℕ := if nrRefs > 1 then 0 else nrRefs

-- the only reference to a new table is the one of the sort table that keeps it
def keep {T : Type} (result : ℕ × T) : ℕ × T := (max result.1 1, result.2)

def insertRange (start stop : IntValue) (table : Finset (DomainElement C)) :
    Option (Finset (DomainElement C)) :=
  loop stop (fun i table => some (insert (int i) table)) start table

-- the bounds of a table that is a range
def isRange (table : Finset (DomainElement C)) : Option (Option (IntValue × IntValue)) :=
  if h : table.Nonempty then
    if ∃ d ∈ table, d.intValue = none then some none
    else
      match table.min' h, table.max' h with
      | .int first, .int last => do
        let width : IntValue ← checked (last.1 - first.1)
        let size : IntValue ← checked table.card
        return if width.1 = size.1 - 1 then some (first, last) else none
      | _, _ => none
  else some none

def intRangeAdd (nrRefs : ℕ) (first last : IntValue) (d : DomainElement C) :
    Option (ℕ × FiniteTable C) :=
  let addNonRange := (insertRange first last {d}).map fun table => (0, .enumerated table)
  if (FiniteTable.intRange first last).contains d then some (nrRefs, .intRange first last)
  else
    match d with
    | .int n => do
      let before : IntValue ← checked (first.1 - 1)
      if n = before then
        if nrRefs < 2 then some (nrRefs, .intRange n last) else addNonRange
      else
        let after : IntValue ← checked (last.1 + 1)
        if n = after ∧ nrRefs < 2 then some (nrRefs, .intRange first n) else addNonRange
    | _ => addNonRange

def enumeratedAdd (nrRefs : ℕ) (table : Finset (DomainElement C)) (d : DomainElement C) :
    Option (ℕ × FiniteTable C) :=
  let inserted := some (refsAfter nrRefs, .enumerated (insert d table))
  if d ∈ table then some (nrRefs, .enumerated table)
  else
    match d with
    | .int n =>
      if table = ∅ then some (0, .intRange n n)
      else do
        match ← isRange table with
        | some (first, last) =>
          let before : IntValue ← checked (first.1 - 1)
          if before ≤ n then
            let after : IntValue ← checked (last.1 + 1)
            if n ≤ after then intRangeAdd 0 first last d else inserted
          else inserted
        | none => inserted
    | _ => inserted

def FiniteTable.add (nrRefs : ℕ) : FiniteTable C → DomainElement C → Option (ℕ × FiniteTable C)
  | .enumerated table, d => enumeratedAdd nrRefs table d
  | .intRange first last, d => intRangeAdd nrRefs first last d

def intRangeRemove (nrRefs : ℕ) (first last : IntValue) (d : DomainElement C) :
    Option (ℕ × FiniteTable C) :=
  match d with
  | .int n =>
    if first ≤ n ∧ n ≤ last then
      if n = first then
        (checked (first.1 + 1)).map fun next => (refsAfter nrRefs, .intRange next last)
      else if n = last then
        (checked (last.1 - 1)).map fun previous => (refsAfter nrRefs, .intRange first previous)
      else
        loop last (fun i (ist : ℕ × FiniteTable C) => if i = n then some ist else ist.2.add ist.1 (int i))
          first (0, .enumerated ∅)
    else some (nrRefs, .intRange first last)
  | _ => some (nrRefs, .intRange first last)

def FiniteTable.remove (nrRefs : ℕ) : FiniteTable C → DomainElement C → Option (ℕ × FiniteTable C)
  | .enumerated table, d =>
    some (if d ∈ table then (refsAfter nrRefs, .enumerated (table.erase d))
      else (nrRefs, .enumerated table))
  | .intRange first last, d => intRangeRemove nrRefs first last d

def intRangeAddRange (nrRefs : ℕ) (first last i1 i2 : IntValue) : Option (ℕ × FiniteTable C) := do
  let addNonRange := ((insertRange i1 i2 ∅).bind (insertRange first last)).map
    fun table => (0, FiniteTable.enumerated table)
  let after : IntValue ← checked (last.1 + 1)
  if i1 ≤ after then
    let before : IntValue ← checked (first.1 - 1)
    if before ≤ i2 then
      let f := if i1 < first then i1 else first
      let l := if i2 > last then i2 else last
      if nrRefs > 1 then some (0, .intRange (min f l) (max f l)) else some (nrRefs, .intRange f l)
    else addNonRange
  else addNonRange

def enumeratedAddRange (nrRefs : ℕ) (table : Finset (DomainElement C)) (i1 i2 : IntValue) :
    Option (ℕ × FiniteTable C) :=
  let inserted := (insertRange (min i1 i2) (max i1 i2) table).map
    fun table => (nrRefs, FiniteTable.enumerated table)
  if table = ∅ then some (0, .intRange (min i1 i2) (max i1 i2))
  else do
    match ← isRange table with
    | some (first, last) =>
      let before : IntValue ← checked (first.1 - 1)
      if before ≤ i1 ∨ before ≤ i2 then
        let after : IntValue ← checked (last.1 + 1)
        if (before ≤ i1 ∧ i1 ≤ after) ∨ (before ≤ i2 ∧ i2 ≤ after) then
          intRangeAddRange 0 first last i1 i2
        else inserted
      else inserted
    | none => inserted

def FiniteTable.addRange (nrRefs : ℕ) : FiniteTable C → IntValue → IntValue → Option (ℕ × FiniteTable C)
  | .enumerated table, i1, i2 => enumeratedAddRange nrRefs table i1 i2
  | .intRange first last, i1, i2 => intRangeAddRange nrRefs first last i1 i2

-- add and remove of the sort table that keeps the internal table
def FiniteTable.sortTableAdd (nrRefs : ℕ) (t : FiniteTable C) (d : DomainElement C) :
    Option (ℕ × FiniteTable C) :=
  if t.contains d then some (nrRefs, t) else (t.add nrRefs d).map keep

def FiniteTable.sortTableRemove (nrRefs : ℕ) (t : FiniteTable C) (d : DomainElement C) :
    Option (ℕ × FiniteTable C) :=
  if t.contains d then (t.remove nrRefs d).map keep else some (nrRefs, t)

end FiniteTable

section Operations

-- a copy of a union shares its tables
def shared (nrRefs : ℕ) : ℕ := if nrRefs > 1 then 1 else 0

def OutTables.share (extra : ℕ) : OutTables C → OutTables C
  | .nil => .nil
  | .cons nrRefs t ts => .cons (nrRefs + extra) t (ts.share extra)

def InternalSortTable.remove (nrRefs : ℕ) :
    InternalSortTable C → DomainElement C → Option (ℕ × InternalSortTable C)
  | .finite t, d => (t.remove nrRefs d).map fun r => (r.1, .finite r.2)
  | .infinite t, d =>
    if t.contains d then
      (FiniteTable.sortTableAdd 1 (.enumerated ∅) d).map fun r =>
        (0, .union 1 (.enumerated ∅) [] r.1 r.2 (.cons (nrRefs + 1) (.infinite t) .nil))
    else some (nrRefs, .infinite t)
  | .chars, d => if charsContains d then none else some (nrRefs, .chars)
  | .constructed _, _ => none
  | .union nrIn intable intables nrOut outtable outtables, d =>
    let extra := shared nrRefs
    (outtable.sortTableAdd (nrOut + extra) d).map fun r =>
      (refsAfter nrRefs,
        .union (nrIn + extra) intable intables r.1 r.2 (outtables.share extra))

def OutTables.remove : OutTables C → DomainElement C → Option (OutTables C)
  | .nil, _ => some .nil
  | .cons nrRefs t ts, d => do
    let r ← if t.contains d then (t.remove nrRefs d).map keep else some (nrRefs, t)
    let ts ← ts.remove d
    return .cons r.1 r.2 ts

def unionAdd (nrRefs nrIn : ℕ) (intable : FiniteTable C) (intables : List InfiniteTable)
    (nrOut : ℕ) (outtable : FiniteTable C) (outtables : OutTables C) (d : DomainElement C) :
    Option (ℕ × InternalSortTable C) :=
  let union := InternalSortTable.union nrIn intable intables nrOut outtable outtables
  let extra := shared nrRefs
  if union.contains d then some (nrRefs, union)
  else if intable.contains d || intables.any (·.contains d) then do
    let r ← outtable.sortTableRemove (nrOut + extra) d
    let outtables ← (outtables.share extra).remove d
    return (refsAfter nrRefs, .union (nrIn + extra) intable intables r.1 r.2 outtables)
  else
    (intable.sortTableAdd (nrIn + extra) d).map fun r =>
      (refsAfter nrRefs,
        .union r.1 r.2 intables (nrOut + extra) outtable (outtables.share extra))

-- the loop of AllChars over the characters that makes them an enumeration does not end, since no
-- character lies above the largest one
def InternalSortTable.add (nrRefs : ℕ) :
    InternalSortTable C → DomainElement C → Option (ℕ × InternalSortTable C)
  | .finite t, d => (t.add nrRefs d).map fun r => (r.1, .finite r.2)
  | .infinite t, d =>
    if t.contains d then some (nrRefs, .infinite t)
    else unionAdd 0 1 (.enumerated ∅) [t] 1 (.enumerated ∅) .nil d
  | .chars, d => if charsContains d then some (nrRefs, .chars) else none
  | .constructed _, _ => none
  | .union nrIn intable intables nrOut outtable outtables, d =>
    unionAdd nrRefs nrIn intable intables nrOut outtable outtables d

def addEach (start stop : IntValue) (t : ℕ × InternalSortTable C) : Option (ℕ × InternalSortTable C) :=
  loop stop (fun n t => t.2.add t.1 (int n)) start t

def naturalsAddRange (nrRefs : ℕ) (i1 i2 : IntValue) : Option (ℕ × InternalSortTable C) :=
  let this := (nrRefs, InternalSortTable.infinite .naturals)
  if 0 ≤ i1.1 then some this
  else
    -- for (n = i1; n < stop; ++n)
    match checked ((if 0 < i2.1 then 0 else i2.1) - 1) with
    | some last => addEach i1 last this
    | none => some this

def InternalSortTable.addRange (nrRefs : ℕ) :
    InternalSortTable C → IntValue → IntValue → Option (ℕ × InternalSortTable C)
  | .finite t, i1, i2 => (t.addRange nrRefs i1 i2).map fun r => (r.1, .finite r.2)
  | .infinite .naturals, i1, i2 => naturalsAddRange nrRefs i1 i2
  | .infinite t, _, _ => some (nrRefs, .infinite t)
  | .chars, i1, i2 => addEach i1 i2 (nrRefs, .chars)
  | .constructed _, _, _ => none
  | .union nrIn intable intables nrOut outtable outtables, i1, i2 =>
    addEach i1 i2 (nrRefs, .union nrIn intable intables nrOut outtable outtables)

end Operations

section Bounds

def minValue : IntValue := ⟨minInt, le_rfl, by decide⟩

def maxValue : IntValue := ⟨maxInt, by decide, le_rfl⟩

def zeroValue : IntValue := ⟨0, by decide, by decide⟩

theorem int_lt_maxDouble : (2147483648 : ℚ) < maxDouble :=
  calc (2147483648 : ℚ) < (2 ^ 53 - 1) * 1 := by norm_num
    _ ≤ maxDouble := mul_le_mul_of_nonneg_left (one_le_pow₀ (by norm_num)) (by norm_num)

theorem maxDouble_pos : 0 < maxDouble := lt_trans (by norm_num) int_lt_maxDouble

theorem abs_int_lt_maxDouble (n : IntValue) : |(n.1 : ℚ)| < maxDouble := by
  have hlt : |n.1| ≤ 2147483648 := by
    have h1 : n.1 ≤ 2147483647 := n.2.2
    have h2 : -2147483648 ≤ n.1 := n.2.1
    exact abs_le.mpr ⟨h2, by omega⟩
  calc |(n.1 : ℚ)| = ((|n.1| : ℤ) : ℚ) := (Int.cast_abs (R := ℚ)).symm
    _ ≤ ((2147483648 : ℤ) : ℚ) := Int.cast_le.mpr hlt
    _ < maxDouble := int_lt_maxDouble

def maxDoubleValue : DoubleValue :=
  ⟨maxDouble, (abs_of_pos maxDouble_pos).le, fun n hn => (abs_int_lt_maxDouble n).ne (by
    rw [hn, abs_of_pos maxDouble_pos])⟩

def minDoubleValue : DoubleValue :=
  ⟨-maxDouble, by rw [abs_neg, abs_of_pos maxDouble_pos], fun n hn => (abs_int_lt_maxDouble n).ne (by
    rw [hn, abs_neg, abs_of_pos maxDouble_pos])⟩

end Bounds

section First

-- a result of none is the null pointer
def FiniteTable.first : FiniteTable C → Option (DomainElement C)
  | .enumerated table => if h : table.Nonempty then some (table.min' h) else none
  | .intRange first _ => some (.int first)

def FiniteTable.last : FiniteTable C → Option (DomainElement C)
  | .enumerated table => if h : table.Nonempty then some (table.max' h) else none
  | .intRange _ last => some (.int last)

-- where the iterator of a table starts, none at its end
def FiniteTable.sortBegin : FiniteTable C → Option (DomainElement C)
  | .enumerated table => if h : table.Nonempty then some (table.min' h) else none
  | .intRange first last => if first ≤ last then some (.int first) else none

def InfiniteTable.first : InfiniteTable → DomainElement C
  | .naturals => .int zeroValue
  | .integers => .int minValue
  | .floats => .double minDoubleValue
  | .strings => .string []

-- no result: the table throws
def InfiniteTable.last : InfiniteTable → Option (DomainElement C)
  | .naturals => some (.int maxValue)
  | .integers => some (.int maxValue)
  | .floats => some (.double maxDoubleValue)
  | .strings => none

def minByte : Byte := 128

def nextString : List Byte → Option (List Byte)
  | [] => none
  | c :: cs =>
    match nextString cs with
    | some cs' => some (c :: cs')
    | none =>
      if c + 1 = minByte then none else some ((c + 1) :: List.replicate cs.length minByte)

-- operator++ of the iterator; adding one to the least double changes nothing
def InfiniteTable.next : InfiniteTable → DomainElement C → Option (DomainElement C)
  | .naturals, .int n => (checked (n.1 + 1)).map .int
  | .integers, .int n => (checked (n.1 + 1)).map .int
  | .floats, d => some d
  | .strings, .string s => some (.string ((nextString s).getD (List.replicate (s.length + 1) minByte)))
  | _, _ => none

section UnionIterator

variable (out : DomainElement C → Bool)

-- what curriterator points to when the loop over the iterators after it ends; none of those ends
def settle : ℕ → DomainElement C → List (InfiniteTable × DomainElement C) → Option (DomainElement C)
  | _, curr, [] => some curr
  | 0, _, _ => none
  | fuel + 1, curr, (t, d) :: jts =>
    if out d then (t.next d).bind fun d => settle fuel curr ((t, d) :: jts)
    -- curriterator becomes jt, which the next round finds equal to it
    else if d < curr then (t.next d).bind fun d => settle fuel d jts
    else if d = curr then (t.next d).bind fun _ => settle fuel curr jts
    else settle fuel curr ((t, d) :: jts)

def settleInfinite (fuel : ℕ) : List InfiniteTable → Option (DomainElement C)
  | [] => none
  | t :: ts => if out t.first then settleInfinite fuel ts
    else settle out fuel t.first (ts.map fun t => (t, t.first))

def unionFirst (fuel : ℕ) (intable : FiniteTable C) (intables : List InfiniteTable) :
    Option (DomainElement C) :=
  match intable.sortBegin with
  | some d => if out d then settleInfinite out fuel intables
    else settle out fuel d (intables.map fun t => (t, t.first))
  | none => settleInfinite out fuel intables

end UnionIterator

-- the compounds of the finite constructors; an infinite one is only iterated after a finite one
def constructedElements (constructors : List (Constructor C)) : List C :=
  (constructors.filterMap (·.elements)).flatten

-- no result: an exception, an end iterator that is read, or a loop that does not end
def InternalSortTable.first (fuel : ℕ) : InternalSortTable C → Option (Option (DomainElement C))
  | .finite t => some t.first
  | .infinite t => some (some t.first)
  | .chars => some (some (.string [minByte]))
  | .constructed constructors => (constructedElements constructors).head?.map fun c => some (.compound c)
  | .union _ intable intables _ outtable outtables =>
    (unionFirst (fun d => outtable.contains d || outtables.contains d) fuel intable intables).map some

def higher (contains : DomainElement C → Bool) (result : Option (DomainElement C))
    (temp : Option (DomainElement C)) : Option (DomainElement C) :=
  match temp with
  | some t => if contains t then
      match result with
      | some r => if r < t then some t else some r
      | none => some t
    else result
  | none => result

def unionLast (contains : DomainElement C → Bool) (intable : FiniteTable C)
    (intables : List InfiniteTable) : Option (DomainElement C) := do
  let lasts ← intables.mapM InfiniteTable.last
  (intable.last :: lasts.map some).foldl (higher contains) none

def InternalSortTable.last : InternalSortTable C → Option (Option (DomainElement C))
  | .finite t => some t.last
  | .infinite t => t.last.map some
  | .chars => some (some (.string [minByte - 1]))
  | .constructed constructors =>
    if constructors.any (·.elements.isNone) then none
    else (constructedElements constructors).getLast?.map fun c => some (.compound c)
  | .union nrIn intable intables nrOut outtable outtables =>
    (unionLast (InternalSortTable.union nrIn intable intables nrOut outtable outtables).contains
      intable intables).map some

end First

end SortTables
