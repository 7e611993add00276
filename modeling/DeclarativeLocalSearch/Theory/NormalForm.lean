import DeclarativeLocalSearch.Theory.FormulaVisitor
import DeclarativeLocalSearch.Theory.PushQuantifications
import DeclarativeLocalSearch.Theory.Sorts

namespace Theory

inductive SymbolType where
  | ct
  | cf
  | pt
  | pf
  deriving DecidableEq, Repr

inductive Predicate (Q : Type) where
  | symbol (q : Q)
  | derived (parent : Predicate Q) (type : SymbolType)
  deriving DecidableEq, Repr

def Predicate.derivedSymbol {Q : Type} (p : Predicate Q) (type : SymbolType) : Predicate Q :=
  .derived p type

def Predicate.parent {Q : Type} : Predicate Q → Q
  | .symbol q => q
  | .derived p _ => p.parent

-- the interpretations of the symbols, with what is certain about them
structure Interpretations (Q D : Type) where
  univ : Q → List D → Prop
  holds : Q → List D → Prop
  ct : Q → List D → Prop
  cf : Q → List D → Prop
  ct_univ : ∀ q ds, ct q ds → univ q ds
  cf_univ : ∀ q ds, cf q ds → univ q ds

namespace Interpretations

variable {Q D : Type} (J : Interpretations Q D)

-- the table of the derived symbol is that of a two-valued interpretation
def inter : Predicate Q → (List D → Prop) × (List D → Prop)
  | .symbol q => (J.ct q, J.cf q)
  | .derived p type =>
    let inverse (table : List D → Prop) (ds : List D) : Prop := ¬ table ds ∧ J.univ p.parent ds
    let table := match type with
      | .ct => (inter p).1
      | .cf => (inter p).2
      | .pt => inverse (inter p).2
      | .pf => inverse (inter p).1
    (table, inverse table)

def predicate : Predicate Q → List D → Prop
  | .symbol q => J.holds q
  | .derived p type => (J.inter (.derived p type)).1

theorem inter_univ (p : Predicate Q) (ds : List D) :
    ((J.inter p).1 ds → J.univ p.parent ds) ∧ ((J.inter p).2 ds → J.univ p.parent ds) := by
  induction p with
  | symbol q => exact ⟨J.ct_univ q ds, J.cf_univ q ds⟩
  | derived p type ih =>
    refine ⟨?_, fun h => h.2⟩
    cases type with
    | ct => exact ih.1
    | cf => exact ih.2
    | pt => exact fun h => h.2
    | pf => exact fun h => h.2

end Interpretations

-- a structure with the interpretations of its predicates
structure DerivedStructure (S Q F D : Type) extends Structure S (Predicate Q) F D where
  interpretations : Interpretations Q D
  predicate_eq : predicate = interpretations.predicate

end Theory

namespace Theory

variable {S P Q F D : Type}

def Formula.negate : Formula S P F D → Formula S P F D
  | .pred sign symbol args => .pred sign.negate symbol args
  | .eqChain sign conj comps terms => .eqChain sign.negate conj comps terms
  | .equiv sign l r => .equiv sign.negate l r
  | .bool sign conj subs => .bool sign.negate conj subs
  | .quant sign q vars f => .quant sign.negate q vars f
  | .agg sign bound comp g sets => .agg sign.negate bound comp g sets

def CompType.negate : CompType → CompType
  | .eq => .neq
  | .neq => .eq
  | .lt => .geq
  | .gt => .leq
  | .leq => .gt
  | .geq => .lt

def QUANT.negate : QUANT → QUANT
  | .univ => .exist
  | .exist => .univ

section SplitComparisonChains

variable [DecidableEq S] (V : SortedVocabulary S P F) (voc : Option (S → Bool))

-- the sort of the comparison, which fits the sorts of both sides
def disambiguate : Option S → Option S → Option S
  | some a, some b => V.resolve voc a b
  | some a, none => if V.ancestors voc a = [] then none else some a
  | none, some b => if V.ancestors voc b = [] then none else some b
  | none, none => none

def comparisonSort (l r : Term S P F D) : Option S := disambiguate V voc (V.termSort l) (V.termSort r)

def CompType.symbol (sort : S) : CompType → PFSymbol S P F
  | .eq | .neq => .eq sort
  | .lt | .geq => .lt sort
  | .gt | .leq => .gt sort

def CompType.sign : CompType → SIGN
  | .eq | .lt | .gt => .pos
  | .neq | .leq | .geq => .neg

-- there is such a sort, by an assertion
def splitComparisons (first : Bool) :
    List CompType → List (Term S P F D) → ℕ → List (Formula S P F D) × ℕ
  | c :: cs, l :: r :: ts, n =>
    let sort := (comparisonSort V voc l r).getD (V.std .int)
    let left := if first then (l, n) else l.clone id n
    let atoms := splitComparisons false cs (r :: ts) left.2
    (.pred c.sign (c.symbol sort) [left.1, r] :: atoms.1, atoms.2)
  | _, _, n => ([], n)

def splitComparisonChains : FormulaVisitor S P F D where
  visitEqChain sign conj comps terms n :=
    let atoms := splitComparisons V voc true comps terms n
    match atoms.1 with
    | [f] => (if sign = .neg then f.negate else f, atoms.2)
    | fs => (.bool sign conj fs, atoms.2)

end SplitComparisonChains

section RemoveEquivalences

variable [DecidableEq S]

def removeEquivalences : FormulaVisitor S P F D where
  visitEquiv sign nl nr n :=
    let newl := nl.clone id n
    let right := nr.clone id newl.2
    let newr := nr.clone id right.2
    let left := nl.clone id newr.2
    (.bool sign true [.bool .pos false [newl.1.negate, right.1], .bool .pos false [left.1, newr.1.negate]],
      left.2)

end RemoveEquivalences

section PushNegations

def SymbolType.negate : SymbolType → SymbolType
  | .ct => .pf
  | .cf => .pt
  | .pt => .cf
  | .pf => .ct

def pushAtom (sign : SIGN) (symbol : PFSymbol S (Predicate Q) F) (args : List (Term S (Predicate Q) F D)) :
    Formula S (Predicate Q) F D :=
  match sign, symbol with
  | .neg, .predicate (.derived p type) =>
    .pred .pos (.predicate ((Predicate.derived p type).derivedSymbol type.negate)) args
  | sign, symbol => .pred sign symbol args

mutual

def Term.pushNegations : Term S (Predicate Q) F D → Term S (Predicate Q) F D
  | .var v => .var v
  | .func f args => .func f (pushTerms args)
  | .dom s d => .dom s d
  | .agg g sets => .agg g (pushSets sets)

def pushTerms : List (Term S (Predicate Q) F D) → List (Term S (Predicate Q) F D)
  | [] => []
  | t :: ts => t.pushNegations :: pushTerms ts

def QuantSetExpr.pushNegations : QuantSetExpr S (Predicate Q) F D → QuantSetExpr S (Predicate Q) F D
  | .mk vars condition term => .mk vars (condition.pushNegations .pos) term.pushNegations

def pushSets : List (QuantSetExpr S (Predicate Q) F D) → List (QuantSetExpr S (Predicate Q) F D)
  | [] => []
  | s :: ss => s.pushNegations :: pushSets ss

-- the outer sign is that by which the formula above negates this one
def Formula.pushNegations : Formula S (Predicate Q) F D → SIGN → Formula S (Predicate Q) F D
  | .pred sign symbol args, outer => pushAtom (outer.under sign) symbol (pushTerms args)
  | .eqChain sign conj comps terms, outer =>
    match outer.under sign with
    | .pos => .eqChain .pos conj comps (pushTerms terms)
    | .neg => .eqChain .pos (! conj) (comps.map CompType.negate) (pushTerms terms)
  | .equiv sign l r, outer =>
    .equiv .pos (l.pushNegations .pos) (r.pushNegations (outer.under sign))
  | .bool sign conj subs, outer =>
    .bool .pos (if outer.under sign = .pos then conj else ! conj) (pushFormulas subs (outer.under sign))
  | .quant sign q vars f, outer =>
    .quant .pos (if outer.under sign = .pos then q else q.negate) vars (f.pushNegations (outer.under sign))
  | .agg sign bound comp g sets, outer =>
    .agg (outer.under sign) bound.pushNegations comp g (pushSets sets)

def pushFormulas : List (Formula S (Predicate Q) F D) → SIGN → List (Formula S (Predicate Q) F D)
  | [], _ => []
  | f :: fs, outer => f.pushNegations outer :: pushFormulas fs outer

end

end PushNegations

def flattener [DecidableEq S] : FormulaVisitor S P F D where
  visitBool sign conj subs := .bool sign conj (subs.flatMap (Flatten.spliced conj))
  visitQuant sign q vars f := Flatten.mergeQuant sign q vars f

section NormalForm

variable [DecidableEq S] (V : SortedVocabulary S (Predicate Q) F) (voc : Option (S → Bool))

def FormulaVisitor.execute (W : FormulaVisitor S P F D) (f : Formula S P F D) : Formula S P F D :=
  (W.visit f (firstFree f.vars)).1

def normalForm (f : Formula S (Predicate Q) F D) : Formula S (Predicate Q) F D :=
  let f := (splitComparisonChains V voc).execute f
  let f := removeEquivalences.execute f
  let f := f.pushNegations .pos
  (flatten f (firstFree f.vars)).1

end NormalForm

section Shape

def Formula.unchained : Formula S P F D → Prop
  | .eqChain _ _ _ _ => False
  | _ => True

def Formula.basic : Formula S P F D → Prop
  | .eqChain _ _ _ _ => False
  | .equiv _ _ _ => False
  | _ => True

-- only atoms are negated
def Formula.pushed : Formula S P F D → Prop
  | .pred _ _ _ => True
  | .eqChain _ _ _ _ => False
  | .equiv _ _ _ => False
  | .bool sign _ _ => sign = .pos
  | .quant sign _ _ _ => sign = .pos
  | .agg _ _ _ _ _ => True

-- and no formula is of the kind of the one above it
def Formula.normal : Formula S P F D → Prop
  | .pred _ _ _ => True
  | .eqChain _ _ _ _ => False
  | .equiv _ _ _ => False
  | .bool sign conj subs => sign = .pos ∧ ∀ s gs, Formula.bool s conj gs ∉ subs
  | .quant sign q _ f => sign = .pos ∧ ∀ s ws g, f ≠ .quant s q ws g
  | .agg _ _ _ _ _ => True

end Shape

end Theory
