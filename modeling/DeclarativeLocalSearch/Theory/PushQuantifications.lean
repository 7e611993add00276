import DeclarativeLocalSearch.Theory.Visitor

namespace Theory

variable {S P F D : Type} [DecidableEq S]

-- a set of variables goes through its elements in an order of its own
structure SetOrder (S : Type) [DecidableEq S] where
  elements : List (Variable S) → List (Variable S)
  mem_elements : ∀ vars v, v ∈ elements vars ↔ v ∈ vars
  nodup : ∀ vars, (elements vars).Nodup

namespace Flatten

def spliced (conj : Bool) : Formula S P F D → List (Formula S P F D)
  | .bool .pos conj' subs => if conj = conj' then subs else [.bool .pos conj' subs]
  | f => [f]

def mergeQuant (sign : SIGN) (q : QUANT) (vars : List (Variable S)) : Formula S P F D → Formula S P F D
  | .quant .pos q' vars' sub =>
    if q = q' then .quant sign q (vars ∪ vars') sub else .quant sign q vars (.quant .pos q' vars' sub)
  | f => .quant sign q vars f

def visitor : TheoryMutatingVisitor S P F D where
  visitBool sign conj subs n := (.bool sign conj (subs.flatMap (spliced conj)), n)
  visitQuant sign q vars _ sub n := (mergeQuant sign q vars sub, n)

end Flatten

def flatten (f : Formula S P F D) (n : ℕ) : Formula S P F D × ℕ := Flatten.visitor.visit f n

def sharesVars (f : Formula S P F D) (vars : List (Variable S)) : Bool := f.freeVars.any (· ∈ vars)

abbrev Level (S : Type) := QUANT × List (Variable S)

namespace PushQuantifications

-- the quantifications one below the other, and the formula below them
def quantforms : Formula S P F D → List (Level S) × Formula S P F D
  | .quant _ q vars sub => ((q, vars) :: (quantforms sub).1, (quantforms sub).2)
  | f => ([], f)

def inLevels (levels : List (Level S)) (f : Formula S P F D) : Bool :=
  levels.any fun level => sharesVars f level.2

-- each level with the formulas for which it is the deepest one
def formulalevels : List (Level S) → List (Formula S P F D) → List (Level S × List (Formula S P F D))
  | [], _ => []
  | level :: levels, subs =>
    (level, subs.filter fun f => sharesVars f level.2 && !inLevels levels f) ::
      formulalevels levels subs

def splitOverSameQuant : List (Variable S) → List (Formula S P F D) →
    List (Variable S × List (Formula S P F D))
  | [], _ => []
  | v :: vs, subs =>
    (v, subs.filter fun f => v ∈ f.freeVars && !sharesVars f vs) :: splitOverSameQuant vs subs

def group (conj : Bool) : List (Formula S P F D) → Formula S P F D
  | [f] => f
  | subs => .bool .pos conj subs

def addVariable (conj : Bool) (q : QUANT) (split : Variable S × List (Formula S P F D))
    (prevform : Option (Formula S P F D)) : Option (Formula S P F D) :=
  some (.quant .pos q [split.1] (group conj (split.2 ++ prevform.toList)))

variable (order : SetOrder S)

def addLevel (conj : Bool) (level : Level S × List (Formula S P F D))
    (prevform : Option (Formula S P F D)) : Option (Formula S P F D) :=
  let splitvariables := order.elements level.1.2
  let nonquantformulas := level.2.filter fun f => !sharesVars f splitvariables
  let prevform := (splitOverSameQuant splitvariables level.2).foldr (addVariable conj level.1.1) prevform
  if nonquantformulas = [] then prevform
  else some (.bool .pos conj (nonquantformulas ++ prevform.toList))

def pushed (levels : List (Level S)) (conj : Bool) (subs : List (Formula S P F D)) : Formula S P F D :=
  let prevform := (formulalevels levels subs).foldr (addLevel order conj) none
  group conj ((subs.filter fun f => !inLevels levels f) ++ prevform.toList)

def visitQuant (sign : SIGN) (q : QUANT) (vars : List (Variable S)) (sub visited : Formula S P F D)
    (n : ℕ) : Formula S P F D × ℕ :=
  if vars = [] then (visited, n)
  else
    match quantforms (.quant sign q vars sub) with
    | (levels, .bool .pos conj subs) =>
      if conj = q.isUniv then flatten (pushed order levels conj subs) n
      else (.quant sign q vars sub, n)
    | _ => (.quant sign q vars sub, n)

def visitor : TheoryMutatingVisitor S P F D where
  visitBool sign conj subs n := (.bool sign conj subs, n)
  visitQuant := visitQuant order

end PushQuantifications

end Theory
