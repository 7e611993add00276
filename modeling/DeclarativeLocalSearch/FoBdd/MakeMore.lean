import DeclarativeLocalSearch.FoBdd.Kernels
import Mathlib.Data.Finset.SDiff

namespace FoBdd

namespace FOBDDManager

section SymbolCollector

variable {A S P : Type} [DecidableEq P] (symbols : A → Finset P)

def visitSets (rec : ℕ → Op A S (Finset P)) : List ℕ → Op A S (Finset P)
  | [] => pure ∅
  | b :: sets => do
    let subformula ← rec b
    let subsets ← visitSets rec sets
    pure (subformula ∪ subsets)

-- symbols gives the predicate of an atom and the functions in its terms
def visitKernel (rec : ℕ → Op A S (Finset P)) : KernelContent A S → Op A S (Finset P)
  | .trueKernel => pure ∅
  | .falseKernel => pure ∅
  | .atom terms sets => do pure (symbols terms ∪ (← visitSets rec sets))
  | .quant _ b => rec b
  | .agg left right sets => do pure (symbols left ∪ symbols right ∪ (← visitSets rec sets))

def visitBDD : ℕ → ℕ → Op A S (Finset P)
  | 0, _ => failure
  | n + 1, b =>
    if b = truebdd ∨ b = falsebdd then pure ∅
    else do
      let kernel ← visitKernel symbols (visitBDD n) (← getContent (← kernelOf b))
      let intrue ← visitBDD n (← truebranch b)
      let infalse ← visitBDD n (← falsebranch b)
      pure (kernel ∪ intrue ∪ infalse)

def collectSymbols (n kernel : ℕ) : Op A S (Finset P) := do
  visitKernel symbols (visitBDD symbols n) (← getContent kernel)

variable (before : ℕ → ℕ → Bool) (goal : Bool) (symbolsToRemove : Finset P)

def mergeBranches (n t f : ℕ) : Op A S ℕ :=
  if goal then disjunction before n t f else conjunction before n t f

def makeMoreWithout : ℕ → ℕ → Op A S ℕ
  | 0, _ => failure
  | n + 1, b =>
    if b = truebdd ∨ b = falsebdd then pure b
    else do
      let kernel ← kernelOf b
      let kernelsymbols ← collectSymbols symbols n kernel
      if ∃ sym ∈ symbolsToRemove, sym ∈ kernelsymbols then
        makeMoreWithout n (← mergeBranches before goal n (← truebranch b) (← falsebranch b))
      else
        let newtrue ← makeMoreWithout n (← truebranch b)
        let newfalse ← makeMoreWithout n (← falsebranch b)
        getBDD kernel newtrue newfalse

def makeMoreTrueWithout (n b : ℕ) : Op A S ℕ :=
  makeMoreWithout symbols before true symbolsToRemove n b

def makeMoreFalseWithout (n b : ℕ) : Op A S ℕ :=
  makeMoreWithout symbols before false symbolsToRemove n b

end SymbolCollector

-- V: variables, I: indices, W: costs and numbers of answers. The estimates solve kernels on the way, which
-- makes new kernels
structure BddStatistics (V I A S W : Type) where
  variablesOf : ℕ → Op A S (Finset V)
  indicesOf : ℕ → Op A S (Finset I)
  estimateCostAll : ℕ → Finset V → Finset I → Op A S W
  estimateNrAnswers : ℕ → Finset V → Finset I → Op A S W
  estimateKernelAnswers : ℕ → Finset V → Finset I → Op A S W
  estimateChance : ℕ → Op A S W
  univNrAnswers : Finset V → Finset I → W

section Cost

variable {V I A S W : Type} [DecidableEq V] [DecidableEq I] [Add W] [Sub W] [Mul W] [One W] [LT W]
  [DecidableLT W] (E : BddStatistics V I A S W) (goal : Bool)

def isGoalbdd (goal : Bool) (b : ℕ) : Bool := (goal && b == truebdd) || (!goal && b == falsebdd)

def getTotalWeigthedCost (b : ℕ) (vars : Finset V) (ind : Finset I) (weightPerAns : W) : Op A S W := do
  let bddCost ← E.estimateCostAll b vars ind
  let bddAnswers ← E.estimateNrAnswers b vars ind
  pure (bddCost + bddAnswers * weightPerAns)

-- the branch that is left when the kernel is dropped, if it costs less
def cheaperBranch (b : ℕ) (vars : Finset V) (ind : Finset I) (weightPerAns : W) : Op A S (Option ℕ) := do
  let totalBddCost ← getTotalWeigthedCost E b vars ind weightPerAns
  let t ← truebranch b
  let f ← falsebranch b
  if isGoalbdd (!goal) f then
    let totalBranchCost ← getTotalWeigthedCost E t vars ind weightPerAns
    if totalBranchCost < totalBddCost then pure (some t) else pure none
  else if isGoalbdd (!goal) t then
    let totalBranchCost ← getTotalWeigthedCost E f vars ind weightPerAns
    if totalBranchCost < totalBddCost then pure (some f) else pure none
  else pure none

def makeMoreBranches (rec : ℕ → Finset V → Finset I → W → Op A S ℕ) (b : ℕ) (vars : Finset V)
    (ind : Finset I) (kernelvars : Finset V) (kernelindices : Finset I) (weightPerAns : W) :
    Op A S (ℕ × ℕ) := do
  let kernel ← kernelOf b
  let kernelAnswers ← E.estimateKernelAnswers kernel kernelvars kernelindices
  let chance ← E.estimateChance kernel
  let trueBranchWeight := kernelAnswers * weightPerAns
  let newtrue ← rec (← truebranch b) (vars \ kernelvars) (ind \ kernelindices) trueBranchWeight
  let kernelFalseAnswers := E.univNrAnswers kernelvars kernelindices * (1 - chance)
  let falsebranchweight := kernelFalseAnswers * weightPerAns
  let newfalse ← rec (← falsebranch b) (vars \ kernelvars) (ind \ kernelindices) falsebranchweight
  pure (newtrue, newfalse)

def makeMore : ℕ → ℕ → Finset V → Finset I → W → Op A S ℕ
  | 0, _, _, _, _ => failure
  | n + 1, b, vars, ind, weightPerAns =>
    if b = truebdd ∨ b = falsebdd then pure b
    else do
      let kernelvars ← E.variablesOf (← kernelOf b)
      let kernelindices ← E.indicesOf (← kernelOf b)
      match ← cheaperBranch E goal b vars ind weightPerAns with
      | some branch => makeMore n branch vars ind weightPerAns
      | none =>
        let (newtrue, newfalse) ←
          makeMoreBranches E (makeMore n) b vars ind kernelvars kernelindices weightPerAns
        if newtrue ≠ (← truebranch b) ∨ newfalse ≠ (← falsebranch b) then
          makeMore n (← getBDD (← kernelOf b) newtrue newfalse) vars ind weightPerAns
        else pure b

def makeMoreTrue (n b : ℕ) (vars : Finset V) (indices : Finset I) (weightPerAns : W) : Op A S ℕ :=
  makeMore E true n b vars indices weightPerAns

def makeMoreFalse (n b : ℕ) (vars : Finset V) (indices : Finset I) (weightPerAns : W) : Op A S ℕ :=
  makeMore E false n b vars indices weightPerAns

end Cost

end FOBDDManager

end FoBdd
