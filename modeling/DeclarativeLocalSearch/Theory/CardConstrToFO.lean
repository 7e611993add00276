import DeclarativeLocalSearch.Foundation.Counting
import DeclarativeLocalSearch.Theory.NormalForm
import DeclarativeLocalSearch.Theory.OverridingVisitor
import DeclarativeLocalSearch.Theory.Rules

set_option linter.dupNamespace false

namespace Theory

variable {S P F D : Type}

def inInt (k : ℤ) : Prop := -2 ^ 31 ≤ k ∧ k < 2 ^ 31

instance (k : ℤ) : Decidable (inInt k) := inferInstanceAs (Decidable (_ ∧ _))

def sizeT (k : ℤ) : ℕ := (k % 2 ^ 64).toNat

def invertComp : CompType → CompType
  | .eq => .eq
  | .neq => .neq
  | .lt => .gt
  | .gt => .lt
  | .leq => .geq
  | .geq => .leq

def isComparisonPredicate : PFSymbol S P F → Bool
  | .eq _ | .lt _ | .gt _ => true
  | _ => false

def getComparison (sign : SIGN) : PFSymbol S P F → CompType
  | .eq _ => if sign = .pos then .eq else .neq
  | .lt _ => if sign = .pos then .lt else .geq
  | _ => if sign = .pos then .gt else .leq

-- the elements that are integers of the machine, and what it makes of an integer out of its range
structure MachineIntegers (D : Type) where
  asInt : D → Option ℤ
  inInt_asInt : ∀ d k, asInt d = some k → inInt k
  overflow : ℤ → ℤ

namespace MachineIntegers

variable (M : MachineIntegers D)

def int (k : ℤ) : ℤ := if inInt k then k else M.overflow k

def isOne : QuantSetExpr S P F D → Bool
  | .mk _ _ (.dom _ d) => M.asInt d = some 1
  | _ => false

-- a sum of ones is a cardinality, too
def isCard : Term S P F D → Bool
  | .agg .card _ => true
  | .agg .sum sets => sets.all M.isOne
  | _ => false

def cardOf : Term S P F D → Option (AggFunction × List (QuantSetExpr S P F D))
  | .agg g sets => if M.isCard (.agg g sets) then some (g, sets) else none
  | _ => none

end MachineIntegers

namespace CardConstrToFO

variable [DecidableEq S]

section Solve

def copy (n : ℕ) (vars : List (Variable S)) (i : ℕ) (v : Variable S) : Variable S :=
  fresh (n + i * firstFree vars) v

def copies (n : ℕ) (vars : List (Variable S)) (b : ℕ) : List (Variable S) :=
  (List.range b).flatMap fun i => vars.map (copy n vars i)

-- the condition for the i-th copy of the variables
def conditions (vars : List (Variable S)) (condition : Formula S P F D) (n : ℕ) :
    List ℕ → ℕ → List (Formula S P F D) × ℕ
  | [], m => ([], m)
  | i :: is, m =>
    let f := condition.clone (renewed (n + i * firstFree vars) vars id) m
    let fs := conditions vars condition n is f.2
    (f.1 :: fs.1, fs.2)

def differ (n : ℕ) (vars : List (Variable S)) (j k : ℕ) : Formula S P F D :=
  .bool .pos false (vars.map fun v => .pred .neg (.eq v.sort) [.var (copy n vars j v), .var (copy n vars k v)])

def allDiffer (n : ℕ) (vars : List (Variable S)) (b : ℕ) : List (Formula S P F D) :=
  (List.range b).flatMap fun j => (List.range j).map fun k => differ n vars j k

-- the variables in one position are listed by the first of them: there is one
def solveGreater (b : ℕ) : QuantSetExpr S P F D → ℕ → Formula S P F D × ℕ
  | .mk vars condition _, n =>
    let conjuncts := conditions vars condition n (List.range b) (n + b * firstFree vars)
    (.quant .pos .exist (copies n vars b) (.bool .pos true (conjuncts.1 ++ allDiffer n vars b)), conjuncts.2)

def solveLesser (b : ℕ) (s : QuantSetExpr S P F D) (n : ℕ) : Formula S P F D × ℕ :=
  let f := solveGreater ((b + 1) % 2 ^ 64) s n
  (f.1.negate, f.2)

variable (M : MachineIntegers D)

def solve (sign : SIGN) (c : CompType) (bound : ℤ) (s : QuantSetExpr S P F D) (n : ℕ) :
    Formula S P F D × ℕ :=
  match c with
  | .gt => solveLesser (sizeT (M.int (bound - 1))) s n
  | .geq => solveLesser (sizeT bound) s n
  | .lt => solveGreater (sizeT (M.int (bound + 1))) s n
  | .leq => solveGreater (sizeT bound) s n
  | .eq =>
    let a := solveGreater (sizeT bound) s n
    let b := solveLesser (sizeT bound) s a.2
    (.bool sign true [a.1, b.1], b.2)
  | .neq =>
    let a := solveGreater (sizeT (M.int (bound + 1))) s n
    let b := solveLesser (sizeT (M.int (bound - 1))) s a.2
    (.bool sign false [a.1, b.1], b.2)

end Solve

variable (V : SortedVocabulary S P F) (M : MachineIntegers D) (maxVarsToIntroduce : ℤ)

-- the bound and the set of an aggregate atom that is converted
def converted (bound : Term S P F D) (g : AggFunction) (sets : List (QuantSetExpr S P F D)) :
    Option (ℤ × QuantSetExpr S P F D) :=
  match g, bound, sets with
  | .card, .dom s d, [.mk vars condition term] =>
    match M.asInt d with
    | some k =>
      if V.isSubsort none s (V.std .int) then
        if maxVarsToIntroduce ≠ 0 ∧ sizeT maxVarsToIntroduce < sizeT k * vars.dedup.length % 2 ^ 64 then none
        else some (k, .mk vars condition term)
      else none
    | none => none
  | _, _, _ => none

-- a comparison with a cardinality as an aggregate atom
def aggForm (sign : SIGN) (symbol : PFSymbol S P F) (args : List (Term S P F D)) : Formula S P F D :=
  match args with
  | [left, right] =>
    if isComparisonPredicate symbol then
      match M.cardOf left, M.cardOf right with
      | some (g, sets), _ => .agg sign right (invertComp (getComparison sign symbol)) g sets
      | none, some (g, sets) => .agg sign left (getComparison sign symbol) g sets
      | none, none => .pred sign symbol [left, right]
    else .pred sign symbol [left, right]
  | args => .pred sign symbol args

def stops : Formula S P F D → Bool
  | .pred sign symbol args =>
    match aggForm M sign symbol args with
    | .agg _ bound _ g sets => (converted V M maxVarsToIntroduce bound g sets).isSome
    | _ => false
  | .agg _ bound _ g sets => (converted V M maxVarsToIntroduce bound g sets).isSome
  | _ => false

def convert (f : Formula S P F D) (n : ℕ) : Formula S P F D × ℕ :=
  let f := match f with
    | .pred sign symbol args => aggForm M sign symbol args
    | f => f
  match f with
  | .agg sign bound comp g sets =>
    match converted V M maxVarsToIntroduce bound g sets with
    | some (k, s) => solve M sign comp k s n
    | none => (f, n)
  | f => (f, n)

-- on formulas without comparison chains
def unchainedVisitor : OverridingVisitor S P F D where
  stops := stops V M maxVarsToIntroduce
  replace := convert V M maxVarsToIntroduce
  rebuild := aggForm M

def visitor : OverridingVisitor S P F D where
  stops
    | .eqChain _ _ _ terms => terms.any M.isCard
    | f => stops V M maxVarsToIntroduce f
  replace
    | .eqChain sign conj comps terms, n =>
      let f := (splitComparisonChains V none).visit (.eqChain sign conj comps terms) n
      (unchainedVisitor V M maxVarsToIntroduce).visit f.1 (max f.2 (firstFree f.1.vars))
    | f, n => convert V M maxVarsToIntroduce f n
  rebuild := aggForm M

def visitRule (r : Rule S P F D) (n : ℕ) : Rule S P F D × ℕ :=
  let args := (visitor V M maxVarsToIntroduce).visitTerms r.args n
  let body := (visitor V M maxVarsToIntroduce).visit r.body args.2
  ({ r with args := args.1, body := body.1 }, body.2)

end CardConstrToFO

def Rule.vars (r : Rule S P F D) : List (Variable S) := termsVars r.args ++ r.body.vars

def Theory.vars (T : Theory S P F D) : List (Variable S) :=
  T.sentences.flatMap Formula.vars ++ T.definitions.flatten.flatMap Rule.vars ++
    (allOf T.fixpdefs).flatMap Rule.vars

def replaceCardinalitiesWithFOFormulas [DecidableEq S] (V : SortedVocabulary S P F)
    (M : MachineIntegers D) (T : Theory S P F D) (maxVarsToIntroduce : ℤ) : Theory S P F D :=
  (visitTheory (CardConstrToFO.visitor V M maxVarsToIntroduce).visit
    (CardConstrToFO.visitRule V M maxVarsToIntroduce) T (firstFree T.vars)).1

end Theory
