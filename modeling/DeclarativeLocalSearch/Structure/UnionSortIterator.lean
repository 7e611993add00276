import DeclarativeLocalSearch.Structure.InverseIterator

namespace Structure

variable {D : Type}

structure SortIterator (D : Type) where
  table : SortTable D
  position : ℕ

namespace SortIterator

def deref (it : SortIterator D) : Option D := it.table.element it.position

def isAtEnd (it : SortIterator D) : Bool := it.deref.isNone

def next (it : SortIterator D) : SortIterator D := { it with position := it.position + 1 }

end SortIterator

-- at the end, the current iterator is the one past the last
structure UnionInternalSortIterator (D : Type) where
  iterators : List (SortIterator D)
  curriterator : ℕ

structure UnionInternalSortTable (D : Type) where
  intables : List (SortTable D)
  outtables : List (SortTable D)

namespace UnionInternalSortIterator

section Iterator

variable [LinearOrder D] (outtables : List (SortTable D))

def contains (d : D) : Bool := outtables.all fun out => !out.contains d

def ready (it : SortIterator D) : Bool :=
  match it.deref with
  | none => false
  | some d => contains outtables d

-- the second loop; no result: it does not end, or dereferences an iterator at its end
def settle : ℕ → ℕ → UnionInternalSortIterator D → Option (UnionInternalSortIterator D)
  | 0, _, _ => none
  | n + 1, j, it =>
    match it.iterators[j]? with
    | none => some it
    | some jt =>
      match jt.deref with
      | none => some it
      | some d =>
        if contains outtables d then
          (it.iterators[it.curriterator]?.bind SortIterator.deref).bind fun e =>
            if d < e then settle n j { it with curriterator := j }
            else if e = d then settle n (j + 1) { it with iterators := it.iterators.modify j SortIterator.next }
            else settle n j it
        else settle n j { it with iterators := it.iterators.modify j SortIterator.next }

-- no result when no iterator is ready: the vector is read past its end
def setcurriterator (n : ℕ) (iterators : List (SortIterator D)) : Option (UnionInternalSortIterator D) :=
  let curriterator := iterators.findIdx (ready outtables)
  iterators[curriterator]?.bind fun it =>
    if it.isAtEnd then some ⟨iterators, curriterator⟩
    else settle outtables n (curriterator + 1) ⟨iterators, curriterator⟩

def hasNext (it : UnionInternalSortIterator D) : Bool := it.curriterator ≠ it.iterators.length

def deref (it : UnionInternalSortIterator D) : Option D :=
  it.iterators[it.curriterator]?.bind SortIterator.deref

def next (n : ℕ) (it : UnionInternalSortIterator D) : Option (UnionInternalSortIterator D) :=
  setcurriterator outtables n (it.iterators.modify it.curriterator SortIterator.next)

end Iterator

end UnionInternalSortIterator

namespace UnionInternalSortTable

open UnionInternalSortIterator

variable [LinearOrder D] (u : UnionInternalSortTable D)

def contains (d : D) : Bool :=
  if u.intables.any (fun table => table.contains d) = false then false
  else !u.outtables.any fun table => table.contains d

def sortBegin (n : ℕ) : Option (UnionInternalSortIterator D) :=
  setcurriterator u.outtables n (u.intables.map fun table => ⟨table, 0⟩)

-- the elements given so far, and the iterator after them
inductive Run : List D → UnionInternalSortIterator D → Prop
  | sortBegin {n it} : u.sortBegin n = some it → Run [] it
  | next {ds it d n it'} : Run ds it → it.hasNext = true → it.deref = some d → it.next u.outtables n = some it' →
      Run (ds ++ [d]) it'

structure Enumerates (ds : List D) : Prop where
  ends : ∃ it, u.Run ds it ∧ it.hasNext = false
  sorted : ds.Pairwise (· < ·)
  mem : ∀ d, d ∈ ds ↔ u.contains d = true

end UnionInternalSortTable

namespace UnionInternalSortIterator

variable [LinearOrder D] {outtables : List (SortTable D)} {it it' : UnionInternalSortIterator D} {n : ℕ}

theorem settle_lt : ∀ {n j : ℕ} {it : UnionInternalSortIterator D}, it.curriterator < it.iterators.length →
    settle outtables n j it = some it' → it'.curriterator < it'.iterators.length := by
  intro n
  induction n with
  | zero => exact fun _ h => absurd h nofun
  | succ n ih =>
    intro j it hlt h
    rw [settle] at h
    split at h
    · exact Option.some.inj h ▸ hlt
    · next jt hj =>
      have hj : j < it.iterators.length := (List.getElem?_eq_some_iff.mp hj).1
      split at h
      · exact Option.some.inj h ▸ hlt
      · split_ifs at h with hcontains
        · obtain ⟨e, -, h⟩ := Option.bind_eq_some_iff.mp h
          split_ifs at h with hless heq
          · exact ih hj h
          · exact ih (by simpa using hlt) h
          · exact ih hlt h
        · exact ih (by simpa using hlt) h

theorem setcurriterator_hasNext {iterators : List (SortIterator D)}
    (h : setcurriterator outtables n iterators = some it) : it.hasNext = true := by
  obtain ⟨jt, hj, h⟩ := Option.bind_eq_some_iff.mp h
  have hlt := (List.getElem?_eq_some_iff.mp hj).1
  have hstart : (⟨iterators, iterators.findIdx (ready outtables)⟩ : UnionInternalSortIterator D).curriterator <
      iterators.length := hlt
  refine decide_eq_true (Nat.ne_of_lt ?_)
  split_ifs at h with hend
  · exact Option.some.inj h ▸ hlt
  · exact settle_lt hstart h

end UnionInternalSortIterator

namespace UnionInternalSortTable

open UnionInternalSortIterator

variable [LinearOrder D] (u : UnionInternalSortTable D)

theorem Run.hasNext {u : UnionInternalSortTable D} {ds : List D} {it : UnionInternalSortIterator D} (h : u.Run ds it) :
    it.hasNext = true := by
  cases h with
  | sortBegin h => exact setcurriterator_hasNext h
  | next _ _ _ h => exact setcurriterator_hasNext h

theorem not_enumerates (ds : List D) : ¬ u.Enumerates ds := by
  rintro ⟨⟨it, hrun, hend⟩, -, -⟩
  exact absurd (hrun.hasNext.symm.trans hend) nofun

-- the table with the element 1 only
def one : SortTable ℕ where
  element n := if n = 0 then some 1 else none
  ends n _ := if_neg (Nat.succ_ne_zero n)
  injective m n d hm hn := by
    split_ifs at hm hn with h h'
    exact h.trans h'.symm
  contains d := d = 1
  contains_iff d := by simp [eq_comm]
  size := tablesize .exact 1

theorem not_enumerates_one : ¬ ∃ ds, UnionInternalSortTable.Enumerates ⟨[one], []⟩ ds := by
  rintro ⟨ds, ⟨it, hrun, hend⟩, -, -⟩
  exact absurd (hrun.hasNext.symm.trans hend) nofun

end UnionInternalSortTable

end Structure
