import Mathlib.Data.Finset.Erase
import Mathlib.Data.Finset.Insert

namespace Structure

variable {D : Type}

-- the sorts of the arguments, by what their tables contain
abbrev Sorts (D : Type) := List (D → Bool)

-- no result: the tables are read past their end
def Sorts.contains : Sorts D → List D → Option Bool
  | _, [] => some true
  | [], _ :: _ => none
  | sort :: sorts, d :: tuple => if sort d then Sorts.contains sorts tuple else some false

-- two tables, one the inverse of the other: the tuples of the one that is stored, and whether that is the first one
structure InverseTables (D : Type) where
  table : List D → Bool
  first : Bool

namespace InverseTables

def contains (sorts : Sorts D) (tables : InverseTables D) (first : Bool) (tuple : List D) : Option Bool :=
  if tables.first = first then some (tables.table tuple)
  else if tables.table tuple then some false
  else sorts.contains tuple

-- the tuple is added to the table if that is stored, and else removed from the other one
def moveTo [DecidableEq D] (tables : InverseTables D) (first : Bool) (tuple : List D) : InverseTables D :=
  { tables with table := Function.update tables.table tuple (tables.first == first) }

end InverseTables

structure PredInter (D : Type) where
  sorts : Sorts D
  ctpf : InverseTables D
  cfpt : InverseTables D
  inconsistentElements : Finset (List D)

namespace PredInter

section Operations

variable (inter : PredInter D) (tuple : List D) (ignoresortchecks : Bool)

def isTrue : Option Bool := inter.ctpf.contains inter.sorts true tuple

def isFalse : Option Bool :=
  (inter.cfpt.contains inter.sorts true tuple).bind fun cf =>
    if cf then some true
    else if ignoresortchecks then some false
    else (inter.sorts.contains tuple).map (!·)

-- the checks of moveTupleFromTo fail
def rejects : Bool :=
  tuple.length ≠ inter.sorts.length || (!ignoresortchecks && (inter.sorts.zip tuple).any fun p => !p.1 p.2)

-- the interpretation afterwards, and whether an exception was thrown
abbrev Outcome (D : Type) := PredInter D × Bool

def moveTupleFromTo (moved : PredInter D) : Outcome D :=
  if inter.rejects tuple ignoresortchecks then (inter, true) else (moved, false)

def Outcome.andThen (o : Outcome D) (next : PredInter D → Outcome D) : Outcome D := if o.2 then o else next o.1

variable [DecidableEq D]

def eraseInconsistent : PredInter D :=
  { inter with inconsistentElements := inter.inconsistentElements.erase tuple }

def makeTrueExactly : Outcome D :=
  let inter := inter.eraseInconsistent tuple
  Outcome.andThen
    (inter.moveTupleFromTo tuple ignoresortchecks { inter with cfpt := inter.cfpt.moveTo false tuple }) fun inter =>
      inter.moveTupleFromTo tuple ignoresortchecks { inter with ctpf := inter.ctpf.moveTo true tuple }

def makeFalseExactly : Outcome D :=
  let inter := inter.eraseInconsistent tuple
  Outcome.andThen
    (inter.moveTupleFromTo tuple ignoresortchecks { inter with cfpt := inter.cfpt.moveTo true tuple }) fun inter =>
      inter.moveTupleFromTo tuple ignoresortchecks { inter with ctpf := inter.ctpf.moveTo false tuple }

def insertInconsistent (insert : Bool) : PredInter D :=
  if insert then { inter with inconsistentElements := Insert.insert tuple inter.inconsistentElements } else inter

def makeTrueAtLeast : Option (Outcome D) :=
  (inter.isFalse tuple ignoresortchecks).map fun isFalse =>
    let inter := inter.insertInconsistent tuple isFalse
    inter.moveTupleFromTo tuple ignoresortchecks { inter with ctpf := inter.ctpf.moveTo true tuple }

def makeFalseAtLeast : Option (Outcome D) :=
  (inter.isTrue tuple).bind fun isTrue =>
    let inter := inter.insertInconsistent tuple isTrue
    (inter.sorts.contains tuple).map fun contains =>
      if contains then
        inter.moveTupleFromTo tuple ignoresortchecks { inter with cfpt := inter.cfpt.moveTo true tuple }
      else (inter, false)

inductive Operation where
  | makeTrueExactly
  | makeFalseExactly
  | makeTrueAtLeast
  | makeFalseAtLeast

def call : Operation → Option (Outcome D)
  | .makeTrueExactly => some (inter.makeTrueExactly tuple ignoresortchecks)
  | .makeFalseExactly => some (inter.makeFalseExactly tuple ignoresortchecks)
  | .makeTrueAtLeast => inter.makeTrueAtLeast tuple ignoresortchecks
  | .makeFalseAtLeast => inter.makeFalseAtLeast tuple ignoresortchecks

end Operations

section Atomic

variable {inter moved : PredInter D} {tuple : List D} {ignoresortchecks : Bool}

theorem moveTupleFromTo_of_rejects (h : inter.rejects tuple ignoresortchecks = true) :
    inter.moveTupleFromTo tuple ignoresortchecks moved = (inter, true) := if_pos h

theorem moveTupleFromTo_of_not_rejects (h : ¬ inter.rejects tuple ignoresortchecks = true) :
    inter.moveTupleFromTo tuple ignoresortchecks moved = (moved, false) := if_neg h

theorem rejects_congr {inter' : PredInter D} (h : inter'.sorts = inter.sorts) :
    inter'.rejects tuple ignoresortchecks = inter.rejects tuple ignoresortchecks := by
  rw [rejects, rejects, h]

theorem exactly_of_rejects {erased moved : PredInter D} {next : PredInter D → Outcome D}
    (h : erased.rejects tuple ignoresortchecks = true) :
    Outcome.andThen (erased.moveTupleFromTo tuple ignoresortchecks moved) next = (erased, true) := by
  rw [moveTupleFromTo_of_rejects h]
  rfl

theorem exactly_of_not_rejects {erased moved : PredInter D} {next : PredInter D → PredInter D}
    (hmoved : moved.sorts = erased.sorts) (h : ¬ erased.rejects tuple ignoresortchecks = true) :
    (Outcome.andThen (erased.moveTupleFromTo tuple ignoresortchecks moved) fun inter =>
      inter.moveTupleFromTo tuple ignoresortchecks (next inter)).2 = false := by
  rw [moveTupleFromTo_of_not_rejects h]
  have hnext : ¬ moved.rejects tuple ignoresortchecks = true := by rwa [rejects_congr hmoved]
  exact congrArg Prod.snd (moveTupleFromTo_of_not_rejects hnext)

variable [DecidableEq D]

theorem insertInconsistent_sorts {insert : Bool} : (inter.insertInconsistent tuple insert).sorts = inter.sorts := by
  cases insert <;> rfl

theorem insertInconsistent_eq_iff {insert : Bool} : inter.insertInconsistent tuple insert = inter ↔
    (insert = true → tuple ∈ inter.inconsistentElements) := by
  cases insert with
  | false => exact iff_of_true rfl (by simp)
  | true =>
    have hinsert : inter.insertInconsistent tuple true = inter ↔
        Insert.insert tuple inter.inconsistentElements = inter.inconsistentElements :=
      ⟨congrArg inconsistentElements, fun h => by rw [insertInconsistent, if_pos rfl, h]⟩
    rw [hinsert, Finset.insert_eq_self]
    simp

theorem eraseInconsistent_eq_iff : inter.eraseInconsistent tuple = inter ↔ tuple ∉ inter.inconsistentElements := by
  rw [← Finset.erase_eq_self]
  exact ⟨congrArg inconsistentElements, fun h => by rw [eraseInconsistent, h]⟩

-- the tuple is not among those whose inconsistency the operation changes before the checks
def Settled (inter : PredInter D) (tuple : List D) (ignoresortchecks : Bool) : Operation → Prop
  | .makeTrueExactly => tuple ∉ inter.inconsistentElements
  | .makeFalseExactly => tuple ∉ inter.inconsistentElements
  | .makeTrueAtLeast => inter.isFalse tuple ignoresortchecks = some true → tuple ∈ inter.inconsistentElements
  | .makeFalseAtLeast =>
    inter.isTrue tuple = some true → inter.sorts.contains tuple = some true → tuple ∈ inter.inconsistentElements

def Atomic (inter : PredInter D) (tuple : List D) (ignoresortchecks : Bool) (op : Operation) : Prop :=
  ∀ o, inter.call tuple ignoresortchecks op = some o → o.2 = true → o.1 = inter

theorem atomic_iff (inter : PredInter D) (tuple : List D) (ignoresortchecks : Bool) (op : Operation) :
    Atomic inter tuple ignoresortchecks op ↔
      (inter.rejects tuple ignoresortchecks = true → Settled inter tuple ignoresortchecks op) := by
  unfold Atomic
  by_cases h : inter.rejects tuple ignoresortchecks = true
  · have herased : (inter.eraseInconsistent tuple).rejects tuple ignoresortchecks = true := (rejects_congr rfl).trans h
    rw [imp_iff_right h]
    cases op with
    | makeTrueExactly =>
      have hcall : inter.makeTrueExactly tuple ignoresortchecks = (inter.eraseInconsistent tuple, true) := by
        unfold makeTrueExactly
        exact exactly_of_rejects herased
      simp only [call, hcall, Option.some.injEq, forall_eq', forall_true_left]
      exact eraseInconsistent_eq_iff
    | makeFalseExactly =>
      have hcall : inter.makeFalseExactly tuple ignoresortchecks = (inter.eraseInconsistent tuple, true) := by
        unfold makeFalseExactly
        exact exactly_of_rejects herased
      simp only [call, hcall, Option.some.injEq, forall_eq', forall_true_left]
      exact eraseInconsistent_eq_iff
    | makeTrueAtLeast =>
      simp only [call, makeTrueAtLeast, Settled]
      cases hfalse : inter.isFalse tuple ignoresortchecks with
      | none => exact iff_of_true nofun nofun
      | some isFalse =>
        have hinsert : (inter.insertInconsistent tuple isFalse).rejects tuple ignoresortchecks = true :=
          (rejects_congr insertInconsistent_sorts).trans h
        simp only [Option.map_some, Option.some.injEq, forall_eq', moveTupleFromTo_of_rejects hinsert, forall_true_left]
        exact insertInconsistent_eq_iff
    | makeFalseAtLeast =>
      simp only [call, makeFalseAtLeast, Settled]
      cases htrue : inter.isTrue tuple with
      | none => exact iff_of_true nofun nofun
      | some isTrue =>
        have hinsert : (inter.insertInconsistent tuple isTrue).rejects tuple ignoresortchecks = true :=
          (rejects_congr insertInconsistent_sorts).trans h
        rw [Option.bind_some]
        simp only [insertInconsistent_sorts]
        cases hcontains : inter.sorts.contains tuple with
        | none => exact iff_of_true nofun nofun
        | some contains =>
          cases contains with
          | false => simp
          | true =>
            simp only [Option.map_some, if_true, Option.some.injEq, forall_eq', moveTupleFromTo_of_rejects hinsert,
              forall_true_left]
            exact insertInconsistent_eq_iff
  · rw [iff_true_right fun h' => absurd h' h]
    intro o ho hthrows
    have hfalse : o.2 = false := by
      cases op with
      | makeTrueExactly =>
        obtain rfl := Option.some.inj ho
        exact exactly_of_not_rejects rfl h
      | makeFalseExactly =>
        obtain rfl := Option.some.inj ho
        exact exactly_of_not_rejects rfl h
      | makeTrueAtLeast =>
        obtain ⟨isFalse, -, rfl⟩ := Option.map_eq_some_iff.mp ho
        refine congrArg Prod.snd (moveTupleFromTo_of_not_rejects ?_)
        rwa [rejects_congr insertInconsistent_sorts]
      | makeFalseAtLeast =>
        obtain ⟨isTrue, -, ho⟩ := Option.bind_eq_some_iff.mp ho
        obtain ⟨contains, -, rfl⟩ := Option.map_eq_some_iff.mp ho
        cases contains with
        | false => rfl
        | true =>
          refine congrArg Prod.snd (moveTupleFromTo_of_not_rejects ?_)
          rwa [rejects_congr insertInconsistent_sorts]
    exact absurd (hthrows.symm.trans hfalse) nofun

-- a predicate over one sort, with the element 0 only, of which nothing is known
def unknownZero : PredInter ℕ := ⟨[fun d => d == 0], ⟨fun _ => false, true⟩, ⟨fun _ => false, true⟩, ∅⟩

-- the element 1 is not of the sort, and stays an inconsistent tuple
theorem not_atomic_unknownZero : ¬ Atomic unknownZero [1] false .makeTrueAtLeast := by
  intro h
  have hinconsistent := congrArg inconsistentElements (h _ rfl rfl)
  exact absurd hinconsistent (by decide)

end Atomic

end PredInter

end Structure
