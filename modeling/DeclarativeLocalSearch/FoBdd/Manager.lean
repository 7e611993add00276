import Mathlib.Control.Monad.Basic
import Mathlib.Data.Prod.Lex
import DeclarativeLocalSearch.Foundation.DecisionDiagram

namespace FoBdd

inductive KernelOrderCategory where
  | standard
  | deBruijn
  | trueFalse
  deriving DecidableEq, Repr

def KernelOrderCategory.less (x y : KernelOrderCategory) : Bool :=
  match x with
  | .trueFalse => false
  | .deBruijn => y == .trueFalse
  | .standard => y != .standard

structure KernelOrder where
  category : KernelOrderCategory
  number : ℕ
  deriving DecidableEq, Repr

namespace KernelOrder

def less (o ko : KernelOrder) : Bool :=
  if o.category.less ko.category then true
  else if ko.category.less o.category then false
  else o.number > ko.number

def depth : KernelOrderCategory → ℕ
  | .standard => 2
  | .deBruijn => 1
  | .trueFalse => 0

def rank (o : KernelOrder) : ℕ ×ₗ ℕ := toLex (depth o.category, o.number)

theorem less_iff (o ko : KernelOrder) : o.less ko = true ↔ ko.rank < o.rank := by
  obtain ⟨c, n⟩ := o
  obtain ⟨c', n'⟩ := ko
  rw [rank, rank, Prod.Lex.toLex_lt_toLex]
  cases c <;> cases c' <;> simp [less, KernelOrderCategory.less, depth]

theorem less_irrefl (o : KernelOrder) : ¬ o.less o = true := by
  rw [less_iff]
  exact lt_irrefl _

theorem less_trans {o o' o'' : KernelOrder} (h : o.less o' = true) (h' : o'.less o'' = true) :
    o.less o'' = true := by
  rw [less_iff] at *
  exact h'.trans h

theorem rank_injective : Function.Injective rank := by
  rintro ⟨c, n⟩ ⟨c', n'⟩ h
  have h := toLex.injective h
  simp only [Prod.mk.injEq] at h
  obtain ⟨hc, rfl⟩ := h
  cases c <;> cases c' <;> simp [depth] at hc ⊢

theorem less_trichotomous (o o' : KernelOrder) : o.less o' = true ∨ o = o' ∨ o'.less o = true := by
  rw [less_iff, less_iff]
  rcases lt_trichotomy o.rank o'.rank with h | h | h
  · exact Or.inr (Or.inr h)
  · exact Or.inr (Or.inl (rank_injective h))
  · exact Or.inl h

theorem less_succ (c : KernelOrderCategory) (n : ℕ) : less ⟨c, n + 1⟩ ⟨c, n⟩ = true := by
  rw [less_iff, rank, rank, Prod.Lex.toLex_lt_toLex]
  exact Or.inr ⟨rfl, n.lt_succ_self⟩

theorem less_of_less_succ {c : KernelOrderCategory} {n : ℕ} {o : KernelOrder}
    (h : less ⟨c, n + 1⟩ o = true) : o = ⟨c, n⟩ ∨ less ⟨c, n⟩ o = true := by
  rcases less_trichotomous o ⟨c, n⟩ with hlt | rfl | hlt
  · rw [less_iff] at h hlt
    obtain ⟨c', m⟩ := o
    rw [rank, rank, Prod.Lex.toLex_lt_toLex] at h hlt
    simp only at h hlt
    omega
  · exact Or.inl rfl
  · exact Or.inr hlt

theorem less_succ_of_less {c : KernelOrderCategory} {n : ℕ} {o : KernelOrder}
    (h : o.less ⟨c, n⟩ = true) : o = ⟨c, n + 1⟩ ∨ o.less ⟨c, n + 1⟩ = true := by
  rcases less_trichotomous o ⟨c, n + 1⟩ with hlt | rfl | hlt
  · exact Or.inr hlt
  · exact Or.inl rfl
  · rcases less_of_less_succ hlt with rfl | hlt
    · exact absurd h (less_irrefl _)
    · exact absurd (less_trans h hlt) (less_irrefl _)

theorem below_wf : WellFounded fun o o' : KernelOrder => o'.less o = true := by
  refine Subrelation.wf ?_ (InvImage.wf rank (wellFounded_lt))
  intro o o' h
  exact (less_iff o' o).mp h

end KernelOrder

end FoBdd

namespace FoBdd

open DecisionDiagram

-- A: terms (with the symbol they are the arguments of), S: sorts; sets are the formulas of the set
-- expressions that occur in the terms
inductive KernelContent (A S : Type) where
  | trueKernel
  | falseKernel
  | atom (terms : A) (sets : List ℕ)
  | quant (sort : S) (bdd : ℕ)
  | agg (left right : A) (sets : List ℕ)
  deriving DecidableEq

-- the diagrams a kernel is about
def KernelContent.bdds {A S : Type} : KernelContent A S → List ℕ
  | .trueKernel => []
  | .falseKernel => []
  | .atom _ sets => sets
  | .quant _ b => [b]
  | .agg _ _ sets => sets

-- pointers to kernels and to BDDs are numbers
structure FOBDDManager (A S : Type) where
  order : ℕ → Option KernelOrder
  content : ℕ → Option (KernelContent A S)
  nextkernel : ℕ
  bdd : Diagram ℕ ℕ
  nextbdd : ℕ
  nextorder : KernelOrderCategory → ℕ
  kernels : KernelOrderCategory → ℕ → Option ℕ
  kerneltable : KernelContent A S → Option ℕ
  bddtable : ℕ → ℕ → ℕ → Option ℕ
  negationtable : ℕ → Option ℕ
  conjunctiontable : ℕ → ℕ → Option ℕ
  disjunctiontable : ℕ → ℕ → Option ℕ
  ifthenelsetable : ℕ → ℕ → ℕ → Option ℕ
  quanttable : S → ℕ → Option ℕ

abbrev truekernel : ℕ := 0

abbrev falsekernel : ℕ := 1

abbrev truebdd : ℕ := 0

abbrev falsebdd : ℕ := 1

variable {A S : Type}

-- no result stands for a run that has not returned
abbrev Op (A S α : Type) := StateT (FOBDDManager A S) Option α

namespace Op

theorem bind_eq_some {α β : Type} {m : Op A S α} {f : α → Op A S β} {s s' : FOBDDManager A S}
    {b : β} : (m >>= f).run s = some (b, s') ↔
      ∃ a s1, m.run s = some (a, s1) ∧ (f a).run s1 = some (b, s') := by
  rw [StateT.run_bind]
  simp [Option.bind_eq_some_iff]

theorem pure_eq_some {α : Type} {a b : α} {s s' : FOBDDManager A S} :
    (pure a : Op A S α).run s = some (b, s') ↔ a = b ∧ s = s' := by
  rw [StateT.run_pure]
  simp

theorem get_bind {α : Type} {f : FOBDDManager A S → Op A S α} {s : FOBDDManager A S} :
    ((get : Op A S _) >>= f).run s = (f s).run s := rfl

theorem modify_eq_some {f : FOBDDManager A S → FOBDDManager A S} {s s' : FOBDDManager A S}
    {u : Unit} : (modify f : Op A S Unit).run s = some (u, s') ↔ f s = s' := by
  rw [StateT.run_modify]
  simp

theorem failure_eq_some {α : Type} {s s' : FOBDDManager A S} {a : α} :
    ¬ (failure : Op A S α).run s = some (a, s') := by
  rintro ⟨⟩

end Op

namespace FOBDDManager

section Operations

def getOrder (k : ℕ) : Op A S KernelOrder := do
  match (← get).order k with
  | some o => pure o
  | none => failure

-- operator< on kernels
def kernelLess (k k' : ℕ) : Op A S Bool := do
  pure ((← getOrder k).less (← getOrder k'))

def kernelOf (b : ℕ) : Op A S ℕ := do
  match (← get).bdd b with
  | some (.leaf v) => pure (if v then truekernel else falsekernel)
  | some (.branch k _ _) => pure k
  | none => failure

def truebranch (b : ℕ) : Op A S ℕ := do
  match (← get).bdd b with
  | some (.branch _ t _) => pure t
  | _ => failure

def falsebranch (b : ℕ) : Op A S ℕ := do
  match (← get).bdd b with
  | some (.branch _ _ f) => pure f
  | _ => failure

def addBDD (kernel truebranch falsebranch : ℕ) : Op A S ℕ := do
  let newbdd := (← get).nextbdd
  modify fun s => { s with
    bdd := Function.update s.bdd newbdd (some (.branch kernel truebranch falsebranch))
    nextbdd := newbdd + 1
    bddtable := Table.insert3 s.bddtable kernel falsebranch truebranch newbdd }
  pure newbdd

def getBDD (kernel truebranch falsebranch : ℕ) : Op A S ℕ := do
  if kernel = truekernel then pure truebranch
  else if kernel = falsekernel then pure falsebranch
  else if falsebranch = truebranch then pure falsebranch
  else
    match (← get).bddtable kernel falsebranch truebranch with
    | some result => pure result
    | none => addBDD kernel truebranch falsebranch

def storeNegation (b result : ℕ) : Op A S Unit := modify fun s =>
  { s with negationtable := Table.insert s.negationtable b result }

-- one level of a recursive operation is written with the operation on smaller arguments as rec
def negateNode (rec : ℕ → Op A S ℕ) (b : ℕ) : Op A S ℕ := do
  match (← get).negationtable b with
  | some result => pure result
  | none =>
    let newfalse ← rec (← falsebranch b)
    let newtrue ← rec (← truebranch b)
    let result ← getBDD (← kernelOf b) newtrue newfalse
    storeNegation b result
    pure result

def negation : ℕ → ℕ → Op A S ℕ
  | 0, _ => failure
  | n + 1, b =>
    if b = truebdd then pure falsebdd
    else if b = falsebdd then pure truebdd
    else negateNode (negation n) b

-- what tells conjunction and disjunction apart: the base cases and the memo table
structure Connective (A S : Type) where
  zero : ℕ
  one : ℕ
  table : FOBDDManager A S → ℕ → ℕ → Option ℕ
  store : ℕ → ℕ → ℕ → Op A S Unit

def combineNodes (rec : ℕ → ℕ → Op A S ℕ) (bdd1 bdd2 : ℕ) : Op A S ℕ := do
  let kernel1 ← kernelOf bdd1
  let kernel2 ← kernelOf bdd2
  if ← kernelLess kernel1 kernel2 then
    let newfalse ← rec (← falsebranch bdd1) bdd2
    let newtrue ← rec (← truebranch bdd1) bdd2
    getBDD kernel1 newtrue newfalse
  else if ← kernelLess kernel2 kernel1 then
    let newfalse ← rec bdd1 (← falsebranch bdd2)
    let newtrue ← rec bdd1 (← truebranch bdd2)
    getBDD kernel2 newtrue newfalse
  else
    let newfalse ← rec (← falsebranch bdd1) (← falsebranch bdd2)
    let newtrue ← rec (← truebranch bdd1) (← truebranch bdd2)
    getBDD kernel1 newtrue newfalse

def combineOrdered (c : Connective A S) (rec : ℕ → ℕ → Op A S ℕ) (bdd1 bdd2 : ℕ) :
    Op A S ℕ := do
  match c.table (← get) bdd1 bdd2 with
  | some result => pure result
  | none =>
    let result ← combineNodes rec bdd1 bdd2
    c.store bdd1 bdd2 result
    pure result

-- before compares two pointers
def combine (before : ℕ → ℕ → Bool) (c : Connective A S) : ℕ → ℕ → ℕ → Op A S ℕ
  | 0, _, _ => failure
  | n + 1, bdd1, bdd2 =>
    if bdd1 = c.zero ∨ bdd2 = c.zero then pure c.zero
    else if bdd1 = c.one then pure bdd2
    else if bdd2 = c.one then pure bdd1
    else if bdd1 = bdd2 then pure bdd1
    else if before bdd2 bdd1 then combineOrdered c (combine before c n) bdd2 bdd1
    else combineOrdered c (combine before c n) bdd1 bdd2

def conjunctive : Connective A S where
  zero := falsebdd
  one := truebdd
  table s := s.conjunctiontable
  store bdd1 bdd2 result := modify fun s =>
    { s with conjunctiontable := Table.insert2 s.conjunctiontable bdd1 bdd2 result }

def disjunctive : Connective A S where
  zero := truebdd
  one := falsebdd
  table s := s.disjunctiontable
  store bdd1 bdd2 result := modify fun s =>
    { s with disjunctiontable := Table.insert2 s.disjunctiontable bdd1 bdd2 result }

def conjunction (before : ℕ → ℕ → Bool) : ℕ → ℕ → ℕ → Op A S ℕ := combine before conjunctive

def disjunction (before : ℕ → ℕ → Bool) : ℕ → ℕ → ℕ → Op A S ℕ := combine before disjunctive

def storeIfthenelse (kernel tb fb result : ℕ) : Op A S Unit := modify fun s =>
  { s with ifthenelsetable := Table.insert3 s.ifthenelsetable kernel tb fb result }

section IfThenElse

variable (rec : ℕ → ℕ → ℕ → Op A S ℕ) (kernel tb fb : ℕ)

def splitTrue (truekernel : ℕ) : Op A S ℕ := do
  let newtrue ← rec kernel (← truebranch tb) fb
  let newfalse ← rec kernel (← falsebranch tb) fb
  getBDD truekernel newtrue newfalse

def splitFalse (falsekernel : ℕ) : Op A S ℕ := do
  let newtrue ← rec kernel tb (← truebranch fb)
  let newfalse ← rec kernel tb (← falsebranch fb)
  getBDD falsekernel newtrue newfalse

def splitBoth (truekernel : ℕ) : Op A S ℕ := do
  let newtrue ← rec kernel (← truebranch tb) (← truebranch fb)
  let newfalse ← rec kernel (← falsebranch tb) (← falsebranch fb)
  getBDD truekernel newtrue newfalse

def placeKernel : Op A S ℕ := do
  let truekernel ← kernelOf tb
  let falsekernel ← kernelOf fb
  if ← kernelLess kernel truekernel then
    if ← kernelLess kernel falsekernel then getBDD kernel tb fb
    else if kernel = falsekernel then getBDD kernel tb (← falsebranch fb)
    else splitFalse rec kernel tb fb falsekernel
  else if kernel = truekernel then
    if ← kernelLess kernel falsekernel then getBDD kernel (← truebranch tb) fb
    else if kernel = falsekernel then getBDD kernel (← truebranch tb) (← falsebranch fb)
    else splitFalse rec kernel tb fb falsekernel
  else
    if (← kernelLess kernel falsekernel) ∨ kernel = falsekernel ∨
        (← kernelLess truekernel falsekernel) then
      splitTrue rec kernel tb fb truekernel
    else if truekernel = falsekernel then splitBoth rec kernel tb fb truekernel
    else splitFalse rec kernel tb fb falsekernel

def mergeKernel : Op A S ℕ :=
  if kernel = truekernel then pure tb
  else if kernel = falsekernel then pure fb
  else if tb = fb then pure tb
  else do
    let result ← placeKernel rec kernel tb fb
    storeIfthenelse kernel tb fb result
    pure result

def lookupKernel : Op A S ℕ := do
  match (← get).ifthenelsetable kernel tb fb with
  | some result => pure result
  | none => mergeKernel rec kernel tb fb

end IfThenElse

def ifthenelse : ℕ → ℕ → ℕ → ℕ → Op A S ℕ
  | 0, _, _, _ => failure
  | n + 1, kernel, tb, fb => lookupKernel (ifthenelse n) kernel tb fb

end Operations

end FOBDDManager

end FoBdd
