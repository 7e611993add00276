import DeclarativeLocalSearch.FoBdd.Quantify
import DeclarativeLocalSearch.Theory.NormalForm

namespace FoBdd

open Theory FOBDDManager

variable {S P F D A : Type}

inductive TruthType where
  | certainTrue
  | certainFalse
  | possTrue
  | possFalse
  deriving DecidableEq, Repr

def swapTF : TruthType → TruthType
  | .possFalse => .possTrue
  | .possTrue => .possFalse
  | .certainFalse => .certainTrue
  | .certainTrue => .certainFalse

def needFalse (value : TruthType) : Bool := value = .certainFalse || value = .possFalse

def needPossible (value : TruthType) : Bool := value = .possTrue || value = .possFalse

inductive AtomKernelType where
  | twoValued
  | ct
  | cf
  deriving DecidableEq, Repr

-- the atoms and terms of a theory as those of the diagrams, and the substitution of terms for variables
structure AtomLanguage (S P F D A : Type) extends TermLanguage (Variable S) A S where
  atom : AtomKernelType → PFSymbol S P F → List (Term S P F D) → A
  substitute : List (Variable S × Term S P F D) → A → A
  sort_eq : sort = Variable.sort

-- what the diagrams are generated for: the bounds of the symbols with their variables, the symbols that are
-- not replaced by them, and those that a given structure interprets by a two-valued table
structure GenerateBDDAccordingToBounds (S P F D A : Type) where
  vocabulary : SortedVocabulary S P F
  arity : PFSymbol S P F → ℕ
  builtin : PFSymbol S P F → Bool
  language : AtomLanguage S P F D A
  before : ℕ → ℕ → Bool
  ctbounds : PFSymbol S P F → Option ℕ
  cfbounds : PFSymbol S P F → Option ℕ
  vars : PFSymbol S P F → List (Variable S)
  cannotBeReplaced : PFSymbol S P F → Bool
  twoValued : PFSymbol S P F → Bool

namespace GenerateBDDAccordingToBounds

variable [DecidableEq S] [DecidableEq A] (G : GenerateBDDAccordingToBounds S P F D A) (n : ℕ)

section Factory

-- a derived symbol is a kernel type of its parent
def checkIfBoundedPredicate : Option SymbolType → AtomKernelType × Bool
  | none => (.twoValued, false)
  | some .cf => (.cf, false)
  | some .ct => (.ct, false)
  | some .pf => (.ct, true)
  | some .pt => (.cf, true)

-- partial terms were unnested
def turnIntoBdd (sign : SIGN) (type : Option SymbolType) (symbol : PFSymbol S P F) (args : List (Term S P F D)) :
    Op A S ℕ := do
  let (akt, swap) := checkIfBoundedPredicate type
  let kernel ← getAtomKernel G.language.toTermLanguage n (G.language.atom akt symbol args) []
  if (sign = .neg) ≠ (swap = true) then ifthenelse n kernel falsebdd truebdd
  else ifthenelse n kernel truebdd falsebdd

-- not in the sort of the symbol, and in that of the term
def outofbounds (sort termsort : S) (t : Term S P F D) : Op A S ℕ := do
  let out ← turnIntoBdd G n .neg none (.sort sort) [t]
  let temp ← conjunction G.before n truebdd out
  let insort ← turnIntoBdd G n .pos none (.sort termsort) [t]
  conjunction G.before n temp insort

end Factory

def substitute (b : ℕ) (mva : List (Variable S × Term S P F D)) : Op A S ℕ :=
  change G.language.toTermLanguage (fun _ => G.language.substitute mva) n 0 b

def existsquantifyAll : List (Variable S) → ℕ → Op A S ℕ
  | [], b => pure b
  | var :: vars, b => do
    existsquantifyAll vars (← existsquantify G.language.toTermLanguage always n var b)

def univquantifyAll (vars : List (Variable S)) (b : ℕ) : Op A S ℕ := do
  let negatedbdd ← negation n b
  let quantbdd ← existsquantifyAll G n vars negatedbdd
  negation n quantbdd

section Visit

def termSort (t : Term S P F D) : S := (G.vocabulary.termSort t).getD (G.vocabulary.std .int)

def checkBounds (disj : Bool) : List (S × Term S P F D) → ℕ → Op A S ℕ
  | [], result => pure result
  | (sort, t) :: l, result => do
    if G.termSort t = sort ∨ sort ∈ G.vocabulary.ancestors none (G.termSort t) then checkBounds disj l result
    else
      let out ← G.outofbounds n sort (G.termSort t) t
      if disj then checkBounds disj l (← disjunction G.before n out result)
      else
        let inside ← negation n out
        checkBounds disj l (← conjunction G.before n inside result)

-- the diagram of what is certain about the symbol
def certainBdd (getct : Bool) (symbol : PFSymbol S P F) (args : List (Term S P F D)) : Op A S ℕ :=
  match G.cannotBeReplaced symbol, G.ctbounds symbol, G.cfbounds symbol with
  | false, some ct, some cf => substitute G n (if getct then ct else cf) ((G.vars symbol).zip args)
  | _, _, _ =>
    if G.twoValued symbol then turnIntoBdd G n (if getct then .pos else .neg) none symbol args
    else turnIntoBdd G n .pos (some (if getct then .ct else .cf)) symbol args

def visitPred (type : TruthType) (sign : SIGN) (symbol : PFSymbol S P F) (args : List (Term S P F D)) :
    Op A S ℕ := do
  if G.builtin symbol then
    let result ← turnIntoBdd G n sign none symbol args
    if needFalse type then negation n result else pure result
  else
    let switchsign : Bool := sign = .neg
    let getct : Bool := type = .certainTrue || type = .possFalse
    let result ← certainBdd G n (getct != switchsign) symbol args
    let result ← if needPossible type then negation n result else pure result
    let sorts := (List.range (G.arity symbol)).map fun i => G.vocabulary.sort symbol i
    checkBounds G n (switchsign != needFalse type) (sorts.zip args) result

def visitBool (rec : Formula S P F D → Op A S ℕ) (conjunctive : Bool) :
    List (Formula S P F D) → ℕ → Op A S ℕ
  | [], currbdd => pure currbdd
  | f :: fs, currbdd => do
    let newbdd ← rec f
    if conjunctive then visitBool rec conjunctive fs (← conjunction G.before n currbdd newbdd)
    else visitBool rec conjunctive fs (← disjunction G.before n currbdd newbdd)

def splitComparisonChainsOf (f : Formula S P F D) : Formula S P F D :=
  let cloned := f.clone id (firstFree f.vars)
  ((splitComparisonChains G.vocabulary none).visit cloned.1 cloned.2).1

def removeEquivalencesOf (f : Formula S P F D) : Formula S P F D :=
  let cloned := f.clone id (firstFree f.vars)
  (removeEquivalences.visit cloned.1 cloned.2).1

end Visit

def evaluate : ℕ → Formula S P F D → TruthType → Op A S ℕ
  | 0, _, _ => failure
  | n + 1, .pred sign symbol args, type => visitPred G n type sign symbol args
  | n + 1, .bool sign conj subs, type =>
    let conjunctive := (if sign = .pos then conj else ! conj) != needFalse type
    let rectype := if sign = .pos then type else swapTF type
    visitBool G n (fun f => evaluate n f rectype) conjunctive subs (if conjunctive then truebdd else falsebdd)
  | n + 1, .quant sign q vars f, type => do
    let universal := (if sign = .pos then q.isUniv else ! q.isUniv) != needFalse type
    let rectype := if sign = .pos then type else swapTF type
    let subbdd ← evaluate n f rectype
    if universal then univquantifyAll G n vars subbdd else existsquantifyAll G n vars subbdd
  | n + 1, .eqChain sign conj comps terms, type =>
    evaluate n (splitComparisonChainsOf G (.eqChain sign conj comps terms)) type
  | n + 1, .equiv sign l r, type => evaluate n (removeEquivalencesOf (.equiv sign l r)) type
  | _ + 1, .agg _ _ _ _ _, type => pure (if needPossible type then truebdd else falsebdd)

end GenerateBDDAccordingToBounds

end FoBdd
