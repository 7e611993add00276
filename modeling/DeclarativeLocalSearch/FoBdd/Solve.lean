import DeclarativeLocalSearch.FoBdd.FuncTerms

namespace FoBdd

inductive StdPred where
  | eq
  | lt
  | gt
  deriving DecidableEq, Repr

-- the comparison seen from its second argument
def StdPred.inverted : StdPred → StdPred
  | .eq => .eq
  | .lt => .gt
  | .gt => .lt

-- the sort is that of the symbol; other kernels are never solved
inductive FOBDDKernel (V F G S : Type) where
  | comparison (symbol : StdPred) (sort : S) (left right : FOBDDTerm V F G S)
  | other

namespace FuncTerms

variable {V F G S : Type} [DecidableEq V] [DecidableEq F] [DecidableEq G] [DecidableEq S]
  (M : FuncTerms V F G S)

mutual

def contains (arg : FOBDDTerm V F G S) : FOBDDTerm V F G S → Bool
  | .var v => decide (.var v = arg)
  | .index s i => decide (.index s i = arg)
  | .domain s d => decide (.domain s d = arg)
  | .arith op type l r => decide (.arith op type l r = arg) || contains arg l || contains arg r
  | .func f args => decide (.func f args = arg) || containsAny arg args
  | .agg g => decide (.agg g = arg) || M.setContains g arg

def containsAny (arg : FOBDDTerm V F G S) : FOBDDTerms V F G S → Bool
  | .nil => false
  | .cons t ts => contains arg t || containsAny arg ts

end

-- how many of the terms satisfy p, and the place of the last of them
def countOccurrences (p : FOBDDTerm V F G S → Bool) : ℕ → ℕ × ℕ → List (FOBDDTerm V F G S) → ℕ × ℕ
  | _, counted, [] => counted
  | i, (counter, place), t :: ts =>
    countOccurrences p (i + 1) (if p t then (counter + 1, i) else (counter, place)) ts

-- the factors of the term at a place, if the second of them is the one that is looked for
def factorsAt (terms : List (FOBDDTerm V F G S)) (place : ℕ) (arg : FOBDDTerm V F G S) :
    Option (List (FOBDDTerm V F G S)) := do
  let factors := M.getTerms .multiplication (← terms[place]?)
  if factors[1]? = some arg then some factors else none

-- the sum of the terms but for the one at the given place
def restTerm (n place : ℕ) : ℕ → Option (FOBDDTerm V F G S) → List (FOBDDTerm V F G S) →
    Option (Option (FOBDDTerm V F G S))
  | _, restterm, [] => some restterm
  | i, restterm, t :: ts =>
    if i = place then restTerm n place (i + 1) restterm ts
    else match restterm with
      | none => restTerm n place (i + 1) (some t) ts
      | some rest => do
        restTerm n place (i + 1) (some (← M.getArithTerm n .addition (← M.typeFor rest t) rest t)) ts

-- constval * argument + restterm op 0
def isolate (n : ℕ) (symbol : StdPred) (right : FOBDDTerm V F G S) (constval : ℚ) :
    Option (FOBDDTerm V F G S) → Option (Option (FOBDDTerm V F G S))
  | none => if constval < 0 ∨ symbol = .eq then some (some right) else some none
  | some restterm =>
    if constval = -1 then some (some restterm)
    else if constval = 1 then
      if symbol = .eq then do some (some (← M.invert n restterm)) else some none
    else if M.isSubsort (M.sort restterm) M.intsort then some none
    else if constval > 0 ∧ symbol ≠ .eq then some none
    -- there is no quotient by zero
    else if constval = 0 then none
    else do
      let d := .domain M.floatsort (createDomElem (-1 / constval))
      some (some (← M.getArithTerm n .multiplication (← M.disambiguate (some M.floatsort)) restterm d))

def isIntZero : FOBDDTerm V F G S → Bool
  | .domain _ d => d = .int 0
  | _ => false

def isZero : FOBDDTerm V F G S → Bool
  | .domain _ d => d.toRat = 0
  | _ => false

-- occ and inv: how often the argument and its inverse occur, and where
def solveOccurrence (n : ℕ) (symbol : StdPred) (right argument inverted : FOBDDTerm V F G S)
    (terms : List (FOBDDTerm V F G S)) (occ inv : ℕ × ℕ) : Option (Option (FOBDDTerm V F G S)) :=
  if occ.1 > 1 ∨ inv.1 > 1 then some none
  else if occ.1 = 1 then
    match M.factorsAt terms occ.2 argument with
    | some [.domain _ constant, _] => do
      M.isolate n symbol right constant.toRat (← M.restTerm n occ.2 0 none terms)
    | _ => some none
  else if inv.1 = 1 then
    match M.factorsAt terms inv.2 inverted with
    | some [.domain _ constant, factor] =>
      if factor ≠ argument then some none
      else do M.isolate n symbol right (-constant.toRat) (← M.restTerm n inv.2 0 none terms)
    | _ => some none
  else some none

-- that the right hand side is zero is asserted by the code
def solveSum (n : ℕ) (symbol : StdPred) (left right argument : FOBDDTerm V F G S) :
    Option (Option (FOBDDTerm V F G S)) :=
  if isZero right = false then none
  else do
    let terms := M.getTerms .addition left
    let inverted ← M.invert n argument
    M.solveOccurrence n symbol right argument inverted terms
      (countOccurrences (M.contains argument) 0 (0, 0) terms)
      (countOccurrences (M.contains inverted) 0 (0, 0) terms)

-- getAtomKernel on a comparison: the constant kernel, or the comparison that is looked up
def getComparison : ℕ → StdPred → S → FOBDDTerm V F G S → FOBDDTerm V F G S →
    Option (Bool ⊕ FOBDDKernel V F G S)
  | 0, _, _, _, _ => none
  | n + 1, symbol, sort, left, right =>
    if symbol = .eq ∧ left = right then some (.inl true)
    else if M.isSubsort (M.sort right) M.floatsort ∧ isIntZero right = false then do
      let zero_term := .domain M.natsort (.int 0)
      let minus_right ← M.invert n right
      let plusterm ← M.getArithTerm n .addition (← M.typeFor left right) left minus_right
      getComparison n symbol (← M.resolve (M.sort plusterm) M.natsort) plusterm zero_term
    else if M.multiplicationBefore left right then getComparison n symbol.inverted sort right left
    else some (.inr (.comparison symbol sort left right))

-- no result stands for a run that does not return, and the result none for the pointer NULL
def solve (rewriteArithmetic : Bool) (n : ℕ) (kernel : FOBDDKernel V F G S) (argument : FOBDDTerm V F G S) :
    Option (Option (FOBDDTerm V F G S)) :=
  if !rewriteArithmetic then some none
  else match kernel with
    | .other => some none
    | .comparison symbol sort left right =>
      if left = argument ∧ M.contains argument right = false then
        some (if symbol = .eq then some right else none)
      else if right = argument ∧ M.contains argument left = false then some (some left)
      else if M.isSubsort sort M.floatsort = false then some none
      else if M.isSubsort (M.sort argument) M.floatsort = false then some none
      else solveSum M n symbol left right argument

end FuncTerms

end FoBdd
