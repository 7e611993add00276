import DeclarativeLocalSearch.Structure.TwoValuedEnough

namespace TwoValued

variable {P F D : Type} [DecidableEq P] [DecidableEq F] [DecidableEq D]

structure PredicateSymbolIterator (P D : Type) where
  predicate : P
  tuple : List D
  state : ℕ

-- of the tuples only the image is stored beside the input; the iterator is what is left of the sort, if anything
structure FunctionSymbolIterator (F D : Type) where
  function : F
  tuple : List D
  iterator : Option (List D)
  prevTuple : D
  doPartial : Bool
  falsied : List D

inductive TwoValuedSymbolIterator (P F D : Type) where
  | pred (it : PredicateSymbolIterator P D)
  | func (it : FunctionSymbolIterator F D)

namespace PredicateSymbolIterator

variable (it : PredicateSymbolIterator P D) (s : Interpretation P F D)

def doNext : Option (PredicateSymbolIterator P D × Interpretation P F D) :=
  if it.state = 0 then some ({ it with state := 1 }, s.set (.pred it.predicate it.tuple) .true)
  else if it.state = 1 then some ({ it with state := 2 }, s.set (.pred it.predicate it.tuple) .false)
  else none

def undo : PredicateSymbolIterator P D × Interpretation P F D :=
  ({ it with state := 0 }, s.set (.pred it.predicate it.tuple) .unknown)

def isFinished : Bool := it.state = 2

end PredicateSymbolIterator

namespace FunctionSymbolIterator

variable (voc : Vocabulary P F D) (it : FunctionSymbolIterator F D) (s : Interpretation P F D)

def isFinished : Bool := ! it.doPartial && it.iterator.isNone

-- the first image that is left and unknown
def init : FunctionSymbolIterator F D :=
  match (it.iterator.getD []).dropWhile fun e => s.value (.graph it.function it.tuple e) ≠ .unknown with
  | [] => { it with iterator := none, doPartial := if voc.isPartial it.function then true else it.doPartial }
  | e :: images => { it with iterator := some (e :: images) }

-- there is nothing to take an image from when the iterator is gone
def doNext : Option (FunctionSymbolIterator F D × Interpretation P F D) :=
  if it.doPartial then
    some ({ it with doPartial := false }, s.set (.graph it.function it.tuple it.prevTuple) .false)
  else
    match it.iterator with
    | some (e :: images) =>
      let s := (s.set (.graph it.function it.tuple it.prevTuple) .false).set (.graph it.function it.tuple e) .true
      some (init voc { it with falsied := it.falsied ++ [e], prevTuple := e, iterator := some images } s, s)
    | _ => none

def makeUnknown (images : List D) (s : Interpretation P F D) : Interpretation P F D :=
  images.foldl (fun s e => s.set (.graph it.function it.tuple e) .unknown) s

def undo : FunctionSymbolIterator F D × Interpretation P F D :=
  let s := it.makeUnknown it.falsied s
  let it := init voc { it with iterator := some (voc.imageSort it.function) } s
  match it.iterator with
  | some (e :: _) => ({ it with prevTuple := e }, s)
  | _ => (it, s)

-- the sort of the images is taken to have an element
def new (function : F) (tuple : List D) : Option (FunctionSymbolIterator F D) :=
  match voc.imageSort function with
  | e :: images => some ⟨function, tuple, some (e :: images), e, false, []⟩
  | [] => none

end FunctionSymbolIterator

namespace TwoValuedSymbolIterator

variable (voc : Vocabulary P F D)

def doNext (s : Interpretation P F D) : TwoValuedSymbolIterator P F D →
    Option (TwoValuedSymbolIterator P F D × Interpretation P F D)
  | .pred it => (it.doNext s).map fun (it, s) => (.pred it, s)
  | .func it => (it.doNext voc s).map fun (it, s) => (.func it, s)

def undo (s : Interpretation P F D) : TwoValuedSymbolIterator P F D →
    TwoValuedSymbolIterator P F D × Interpretation P F D
  | .pred it => let (it, s) := it.undo s; (.pred it, s)
  | .func it => let (it, s) := it.undo voc s; (.func it, s)

def isFinished : TwoValuedSymbolIterator P F D → Bool
  | .pred it => it.isFinished
  | .func it => it.isFinished

end TwoValuedSymbolIterator

section Create

variable (voc : Vocabulary P F D) (s : Interpretation P F D)

def createPredicate : List (TwoValuedSymbolIterator P F D) :=
  voc.preds.flatMap fun p =>
    if s.approxTwoValued p then []
    else
      ((voc.predUniverse p).filter fun t => s.value (.pred p t) = .unknown).map fun t => .pred ⟨p, t, 0⟩

def createInput (f : F) (d : List D) : Option (List (TwoValuedSymbolIterator P F D)) :=
  if images voc s f .true d ≠ [] then some []
  else (FunctionSymbolIterator.new voc f d).map fun it => [.func (it.init voc s)]

-- the iterators for one input after the other
def createFunction : List (F × List D) → Option (List (TwoValuedSymbolIterator P F D))
  | [] => some []
  | (f, d) :: inputs => do
    let out ← createInput voc s f d
    let rest ← createFunction inputs
    some (out ++ rest)

def functionInputs : List (F × List D) :=
  voc.funcs.flatMap fun f => if s.functable f then [] else (voc.domain f).map fun d => (f, d)

def create : Option (List (TwoValuedSymbolIterator P F D)) :=
  (createFunction voc s (functionInputs voc s)).map fun out => createPredicate voc s ++ out

end Create

-- the position is none when it is below zero
structure TwoValuedStructureIterator (P F D : Type) where
  structure_ : Interpretation P F D
  stack : List (TwoValuedSymbolIterator P F D)
  position : Option ℕ

namespace TwoValuedStructureIterator

variable (voc : Vocabulary P F D)

def new (original : Interpretation P F D) : Option (TwoValuedStructureIterator P F D) :=
  (create voc original).map fun stack => ⟨original, stack, some 0⟩

def isFinished (it : TwoValuedStructureIterator P F D) : Bool := it.position.isNone

def doNexts : List (TwoValuedSymbolIterator P F D) → Interpretation P F D →
    Option (List (TwoValuedSymbolIterator P F D) × Interpretation P F D)
  | [], s => some ([], s)
  | it :: stack, s => do
    let (it, s) ← it.doNext voc s
    let (stack, s) ← doNexts stack s
    some (it :: stack, s)

-- from the last one down, those that are finished start again
def backtrack : List (TwoValuedSymbolIterator P F D) → Interpretation P F D →
    Option ℕ × List (TwoValuedSymbolIterator P F D) × Interpretation P F D
  | [], s => (none, [], s)
  | it :: stack, s =>
    match backtrack stack s with
    | (some position, stack, s) => (some (position + 1), it :: stack, s)
    | (none, stack, s) =>
      if it.isFinished then
        let (it, s) := it.undo voc s
        (none, it :: stack, s)
      else (some 0, it :: stack, s)

def next (it : TwoValuedStructureIterator P F D) :
    Option (Option (Interpretation P F D) × TwoValuedStructureIterator P F D) :=
  match it.position with
  | none => some (none, it)
  | some position => do
    let (stack, s) ← doNexts voc (it.stack.drop position) it.structure_
    let out := clean voc s
    let (position, stack, s) := backtrack voc (it.stack.take position ++ stack) s
    some (some out, ⟨s, stack, position⟩)

-- the structures that are returned until the iterator is finished
def all : ℕ → TwoValuedStructureIterator P F D → Option (List (Interpretation P F D))
  | 0, _ => none
  | fuel + 1, it =>
    if it.isFinished then some []
    else do
      let (out, it) ← it.next voc
      let rest ← all fuel it
      some (out.toList ++ rest)

end TwoValuedStructureIterator

end TwoValued
