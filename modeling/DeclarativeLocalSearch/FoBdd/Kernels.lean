import DeclarativeLocalSearch.FoBdd.Manager

namespace FoBdd

open DecisionDiagram

-- the terms a manager works with: variables V, terms A, sorts S
structure TermLanguage (V A S : Type) where
  -- getAtomKernel before the lookup: the simplified atom, or the constant it comes down to
  simplify : A → List ℕ → Bool ⊕ A × List ℕ
  simplify_sets : ∀ a sets a' sets', simplify a sets = .inr (a', sets') → sets' ⊆ sets
  contains : A → ℕ → Bool
  setvars : A → ℕ → ℕ
  -- whether the interpretation of a builtin sort is empty
  builtin : S → Option Bool
  sortAtom : S → A
  sort : V → S
  bump : V → ℕ → A → A
  -- an equality that can be solved for the index 0 to a total term of a subsort of the sort
  solves : S → A → Bool

variable {V A S : Type}

namespace FOBDDManager

section Contains

variable (L : TermLanguage V A S)

def setsContain (rec : ℕ → ℕ → Op A S Bool) (vars : ℕ → ℕ) (i : ℕ) : ℕ → List ℕ → Op A S Bool
  | _, [] => pure false
  | j, b :: sets => do
    if ← rec b (i + vars j) then pure true else setsContain rec vars i (j + 1) sets

def contentContains (rec : ℕ → ℕ → Op A S Bool) (x : KernelContent A S) (i : ℕ) : Op A S Bool :=
  match x with
  | .trueKernel => pure false
  | .falseKernel => pure false
  | .atom terms sets =>
    if L.contains terms i then pure true else setsContain rec (L.setvars terms) i 0 sets
  | .quant _ b => rec b (i + 1)
  | .agg left right sets =>
    if L.contains left i then pure true
    else if L.contains right i then pure true
    else setsContain rec (L.setvars right) i 0 sets

def getContent (k : ℕ) : Op A S (KernelContent A S) := do
  match (← get).content k with
  | some x => pure x
  | none => failure

def kernelContains (rec : ℕ → ℕ → Op A S Bool) (k i : ℕ) : Op A S Bool := do
  contentContains L rec (← getContent k) i

def containsDeBruijnIndex : ℕ → ℕ → ℕ → Op A S Bool
  | 0, _, _ => failure
  | n + 1, b, i => do
    match (← get).bdd b with
    | none => failure
    | some (.leaf _) => pure false
    | some (.branch k t f) =>
      if ← kernelContains L (containsDeBruijnIndex n) k i then pure true
      else if ← containsDeBruijnIndex n f i then pure true
      else containsDeBruijnIndex n t i

end Contains

section Kernels

variable [DecidableEq A] [DecidableEq S] (L : TermLanguage V A S)

def newOrder (category : KernelOrderCategory) : Op A S KernelOrder := do
  let number := (← get).nextorder category
  modify fun s => { s with nextorder := Function.update s.nextorder category (number + 1) }
  pure ⟨category, number⟩

def addKernel (order : KernelOrder) (x : KernelContent A S) : Op A S ℕ := do
  let k := (← get).nextkernel
  modify fun s => { s with
    order := Function.update s.order k (some order)
    content := Function.update s.content k (some x)
    nextkernel := k + 1
    kernels := Table.insert2 s.kernels order.category order.number k
    kerneltable := Table.insert s.kerneltable x k }
  pure k

def lookupKernelContent (category : Op A S Bool) (x : KernelContent A S) : Op A S ℕ := do
  match (← get).kerneltable x with
  | some k => pure k
  | none => addKernel (← newOrder (if ← category then .deBruijn else .standard)) x

def getAtomKernel (n : ℕ) (terms : A) (sets : List ℕ) : Op A S ℕ :=
  match L.simplify terms sets with
  | .inl v => pure (if v then truekernel else falsekernel)
  | .inr (terms, sets) =>
    let x := .atom terms sets
    lookupKernelContent (contentContains L (containsDeBruijnIndex L n) x 0) x

-- the order of an aggregate kernel is chosen by the aggregate term alone
def getAggKernel (n : ℕ) (left right : A) (sets : List ℕ) : Op A S ℕ :=
  lookupKernelContent (contentContains L (containsDeBruijnIndex L n) (.atom right sets) 0)
    (.agg left right sets)

def longestSet (rec : ℕ → Op A S ℕ) : ℕ → List ℕ → Op A S ℕ
  | result, [] => pure result
  | result, b :: sets => do longestSet rec (max result ((← rec b) + 1)) sets

def longestKernel (rec : ℕ → Op A S ℕ) : KernelContent A S → Op A S ℕ
  | .trueKernel => pure 0
  | .falseKernel => pure 0
  | .atom _ _ => pure 1
  | .quant _ b => do pure ((← rec b) + 1)
  | .agg _ _ sets => longestSet rec 0 sets

def longestbranch : ℕ → ℕ → Op A S ℕ
  | 0, _ => failure
  | n + 1, b => do
    match (← get).bdd b with
    | none => failure
    | some (.leaf _) => pure 1
    | some (.branch k t f) =>
      let kernellength ← longestKernel (longestbranch n) (← getContent k)
      let truelength ← longestbranch n t
      let falselength ← longestbranch n f
      pure (max (truelength + kernellength) (falselength + kernellength))

def isSolved (n : ℕ) (sort : S) (b : ℕ) : Op A S Bool := do
  if (← longestbranch n b) = 2 then
    match ← getContent (← kernelOf b) with
    | .atom terms _ => pure (L.solves sort terms && (← truebranch b) == truebdd)
    | _ => pure false
  else pure false

def getQuantKernel (n : ℕ) (sort : S) (b : ℕ) : Op A S ℕ := do
  if b = truebdd then pure truekernel
  else if b = falsebdd then pure falsekernel
  else if ← isSolved L n sort b then pure truekernel
  else lookupKernelContent (containsDeBruijnIndex L n b 1) (.quant sort b)

end Kernels

section Quantification

variable [DecidableEq A] [DecidableEq S] (L : TermLanguage V A S)

-- a visitor that changes terms; the depth is the number of quantifiers above them
def changeSets (rec : ℕ → ℕ → Op A S ℕ) (depth : ℕ) (vars : ℕ → ℕ) :
    ℕ → List ℕ → Op A S (List ℕ)
  | _, [] => pure []
  | j, b :: sets => do
    let b' ← rec (depth + vars j) b
    let sets' ← changeSets rec depth vars (j + 1) sets
    pure (b' :: sets')

def changeContent (terms : ℕ → A → A) (n : ℕ) (rec : ℕ → ℕ → Op A S ℕ) (depth k : ℕ) :
    KernelContent A S → Op A S ℕ
  | .trueKernel => pure k
  | .falseKernel => pure k
  | .atom a sets => do
    let sets' ← changeSets rec depth (L.setvars a) 0 sets
    getAtomKernel L n (terms depth a) sets'
  | .quant sort b => do
    let b' ← rec (depth + 1) b
    getQuantKernel L n sort b'
  | .agg left right sets => do
    let sets' ← changeSets rec depth (L.setvars right) 0 sets
    getAggKernel L n (terms depth left) (terms depth right) sets'

def change (terms : ℕ → A → A) : ℕ → ℕ → ℕ → Op A S ℕ
  | 0, _, _ => failure
  | n + 1, depth, b => do
    if b = truebdd then pure truebdd
    else if b = falsebdd then pure falsebdd
    else
      let k ← kernelOf b
      let nk ← changeContent L terms n (change terms n) depth k (← getContent k)
      let nt ← change terms n depth (← truebranch b)
      let nf ← change terms n depth (← falsebranch b)
      ifthenelse n nk nt nf

def storeQuantified (sort : S) (b result : ℕ) : Op A S Unit := modify fun s =>
  { s with quanttable := Table.insert2 s.quanttable sort b result }

-- ?x[Sort]:Sort(x)
def sortNotEmpty (n : ℕ) (sort : S) : Op A S ℕ := do
  getQuantKernel L n sort (← getBDD (← getAtomKernel L n (L.sortAtom sort) []) truebdd falsebdd)

-- the branches of a diagram without the quantified variable; ok says which calls are let through
def quantifyIndependent (ok : FOBDDManager A S → ℕ → ℕ → Bool) (n : ℕ) (sort : S) (b : ℕ) :
    Op A S ℕ :=
  match L.builtin sort with
  | some empty => if empty then negation n b else pure b
  | none => do
    let k ← sortNotEmpty L n sort
    if ok (← get) k b then getBDD k b falsebdd else failure

def quantifyRoot (n : ℕ) (rec : S → ℕ → Op A S ℕ) (sort : S) (b k : ℕ) : Op A S ℕ := do
  if (← getOrder k).category = .standard then do
    let newfalse ← rec sort (← falsebranch b)
    let newtrue ← rec sort (← truebranch b)
    ifthenelse n k newtrue newfalse
  else do
    getBDD (← getQuantKernel L n sort b) truebdd falsebdd

def quantifyDependent (n : ℕ) (rec : S → ℕ → Op A S ℕ) (sort : S) (b : ℕ) : Op A S ℕ := do
  match (← get).quanttable sort b with
  | some result => pure result
  | none =>
    let result ← quantifyRoot L n rec sort b (← kernelOf b)
    storeQuantified sort b result
    pure result

def quantify (ok : FOBDDManager A S → ℕ → ℕ → Bool) : ℕ → S → ℕ → Op A S ℕ
  | 0, _, _ => failure
  | n + 1, sort, b => do
    if b = falsebdd then pure b
    else if b = truebdd then quantifyIndependent L ok n sort b
    else if ← containsDeBruijnIndex L n b 0 then quantifyDependent L n (quantify ok n) sort b
    else quantifyIndependent L ok n sort b

def existsquantify (ok : FOBDDManager A S → ℕ → ℕ → Bool) (n : ℕ) (var : V) (b : ℕ) :
    Op A S ℕ := do
  quantify L ok n (L.sort var) (← change L (L.bump var) n 0 b)

def univquantify (ok : FOBDDManager A S → ℕ → ℕ → Bool) (n : ℕ) (var : V) (b : ℕ) :
    Op A S ℕ := do
  let negatedbdd ← negation n b
  let quantbdd ← existsquantify L ok n var negatedbdd
  negation n quantbdd

end Quantification

end FOBDDManager

end FoBdd
