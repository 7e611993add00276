import DeclarativeLocalSearch.ApproximatingDefinition.Formulas
import DeclarativeLocalSearch.Foundation.WellFoundedModel

namespace ApproximatingDefinition

open Theory (SIGN Variable PFSymbol firstFree)

inductive TruthPropagation where
  | true
  | false
  deriving DecidableEq, Repr

inductive Direction where
  | up
  | down
  deriving DecidableEq, Repr

inductive RuleType where
  | cheap
  | forall_
  deriving DecidableEq, Repr

-- the new predicates; that of a formula is named by its place in the theory, innermost index first
inductive ApproxSymbol (S P F : Type) where
  | ct (symbol : PFSymbol S P F)
  | cf (symbol : PFSymbol S P F)
  | inputCt (symbol : PFSymbol S P F)
  | inputCf (symbol : PFSymbol S P F)
  | formulaCt (place : List ℕ)
  | formulaCf (place : List ℕ)
  | original (symbol : PFSymbol S P F)
  deriving DecidableEq

variable {S P F D O : Type} [DecidableEq S] [DecidableEq P] [DecidableEq F]

structure PredForm (S P F D : Type) where
  sign : SIGN
  symbol : ApproxSymbol S P F
  args : List (Arg S D)

abbrev Body (S P F D : Type) := Formula S (ApproxSymbol S P F) D Empty

def PredForm.atom (pf : PredForm S P F D) : Body S P F D := .pred pf.sign pf.symbol pf.args

structure Rule (S P F D : Type) where
  head : PredForm S P F D
  body : Body S P F D

def Rule.quantVars (r : Rule S P F D) : List (Variable S) := r.head.args.flatMap Arg.freeVars

abbrev Sentence (S P F D O : Type) := Formula S (PFSymbol S P F) D O

structure ApproxDefGeneratorData (S P F : Type) where
  builtin : PFSymbol S P F → Bool
  freesymbols : PFSymbol S P F → Bool
  derivations : TruthPropagation → Direction → Bool
  ruleTypes : RuleType → Bool

namespace ApproxDefGeneratorData

variable (data : ApproxDefGeneratorData S P F)

def isBuiltin : ApproxSymbol S P F → Bool
  | .original symbol => data.builtin symbol
  | _ => false

def isFree : ApproxSymbol S P F → Bool
  | .original symbol => data.freesymbols symbol
  | _ => false

def add (head : PredForm S P F D) (body : Body S P F D) : List (Rule S P F D) :=
  if data.isBuiltin head.symbol || data.isFree head.symbol then [] else [⟨head, body⟩]

section Mappings

def createGeneralPredForm (place : List ℕ) (f : Sentence S P F D O) : PredForm S P F D × PredForm S P F D :=
  let subterms := f.freeVars.dedup.map Arg.var
  (⟨.pos, .formulaCt place, subterms⟩, ⟨.pos, .formulaCf place, subterms⟩)

def ctcfpair (place : List ℕ) (f : Sentence S P F D O) : PredForm S P F D × PredForm S P F D :=
  match f with
  | .pred sign symbol args =>
    if data.builtin symbol then (⟨sign, .original symbol, args⟩, ⟨sign.negate, .original symbol, args⟩)
    else
      let pair := (⟨.pos, .ct symbol, args⟩, ⟨.pos, .cf symbol, args⟩)
      if sign = .neg then pair.swap else pair
  | f => createGeneralPredForm place f

def formula2ct (place : List ℕ) (f : Sentence S P F D O) : PredForm S P F D := (data.ctcfpair place f).1

def formula2cf (place : List ℕ) (f : Sentence S P F D O) : PredForm S P F D := (data.ctcfpair place f).2

abbrev Mapping (S P F D O : Type) := List ℕ → Sentence S P F D O → PredForm S P F D

end Mappings

-- the rules that take what is given over, for the first atom of a symbol
def handlePredForm (baseformulasAlreadyAdded : Bool) (place : List ℕ) (sign : SIGN) (symbol : PFSymbol S P F)
    (args : List (Arg S D)) (handled : List (PFSymbol S P F)) : List (Rule S P F D) × List (PFSymbol S P F) :=
  if baseformulasAlreadyAdded || data.builtin symbol then ([], handled)
  else if symbol ∈ handled then ([], handled)
  else
    let pf : Sentence S P F D Empty := .pred sign symbol args
    let (ctpred, cfpred) : ApproxSymbol S P F × ApproxSymbol S P F :=
      if sign = .neg then (.inputCf symbol, .inputCt symbol) else (.inputCt symbol, .inputCf symbol)
    let newSubTerms : List (Arg S D) := args.mapIdx fun it t => .var ⟨it, t.sort⟩
    (data.add ⟨.pos, (data.formula2ct place pf).symbol, newSubTerms⟩ (.pred .pos ctpred newSubTerms) ++
      data.add ⟨.pos, (data.formula2cf place pf).symbol, newSubTerms⟩ (.pred .pos cfpred newSubTerms),
    symbol :: handled)

section Visit

variable (generate : List ℕ → Sentence S P F D O → List (Rule S P F D)) (baseformulasAlreadyAdded : Bool)

mutual

-- the subformulas come first
def visit (place : List ℕ) : Sentence S P F D O → List (PFSymbol S P F) →
    List (Rule S P F D) × List (PFSymbol S P F)
  | .pred sign symbol args, handled =>
    data.handlePredForm baseformulasAlreadyAdded place sign symbol args handled
  | .bool conj subs, handled =>
    let (rules, handled) := visitAll place 0 subs handled
    (rules ++ generate place (.bool conj subs), handled)
  | .quant univ vars f, handled =>
    let (rules, handled) := visit (0 :: place) f handled
    (rules ++ generate place (.quant univ vars f), handled)
  | .other _ _, handled => ([], handled)

def visitAll (place : List ℕ) (i : ℕ) : List (Sentence S P F D O) → List (PFSymbol S P F) →
    List (Rule S P F D) × List (PFSymbol S P F)
  | [], handled => ([], handled)
  | f :: fs, handled =>
    let (rules, handled) := visit (i :: place) f handled
    let (rest, handled) := visitAll place (i + 1) fs handled
    (rules ++ rest, handled)

end

end Visit

section TopDown

variable (map1 map2 : Mapping S P F D O)

def generateTopDownBool (place : List ℕ) (conj : Bool) (subs : List (Sentence S P F D O)) : List (Rule S P F D) :=
  let bf : Sentence S P F D O := .bool conj subs
  if data.ruleTypes .cheap then
    subs.zipIdx.flatMap fun (sub, i) =>
      let v := bf.freeVars.dedup.filter (· ∉ sub.freeVars)
      let f : Body S P F D :=
        if conj then (map2 place bf).atom
        else
          .bool true ((map2 place bf).atom ::
            (subs.zipIdx.filter fun (_, j) => j ≠ i).map fun (other, j) => (map1 (j :: place) other).atom)
      data.add (map2 (i :: place) sub) (if v = [] then f else .quant false v f)
  else []

def generateTopDownQuant (place : List ℕ) (univ : Bool) (vars : List (Variable S)) (sub : Sentence S P F D O) :
    List (Rule S P F D) :=
  let qf : Sentence S P F D O := .quant univ vars sub
  if univ then
    if data.ruleTypes .cheap then data.add (map2 (0 :: place) sub) (map2 place qf).atom else []
  else if data.ruleTypes .forall_ then
    let newvar (v : Variable S) : Variable S := ⟨firstFree (vars ++ sub.freeVars) + v.id, v.sort⟩
    let newSubTerms := (map2 (0 :: place) sub).args.map fun t =>
      match t with
      | .var v => if v ∈ vars then .var (newvar v) else .var v
      | t => t
    let vareqs : Body S P F D :=
      .bool true (vars.map fun v => .pred .pos (.original (.eq v.sort)) [.var (newvar v), .var v])
    let quant : Body S P F D := .quant true (vars.map newvar)
      (.bool false [vareqs, .pred .pos (map1 (0 :: place) sub).symbol newSubTerms])
    data.add (map2 (0 :: place) sub) (.bool true [quant, (map2 place qf).atom])
  else []

def generateTopDownApproximation (place : List ℕ) : Sentence S P F D O → List (Rule S P F D)
  | .bool conj subs => data.generateTopDownBool map1 map2 place conj subs
  | .quant univ vars sub => data.generateTopDownQuant map1 map2 place univ vars sub
  | _ => []

end TopDown

def topDown (place : List ℕ) (f : Sentence S P F D O) : List (Rule S P F D) :=
  (if data.derivations .false .down then
    data.generateTopDownApproximation data.formula2ct data.formula2cf place f else []) ++
  if data.derivations .true .down then
    data.generateTopDownApproximation data.formula2cf data.formula2ct place f else []

def generateBottomUpApproximation (map : Mapping S P F D O) (place : List ℕ) (conj : Bool)
    (subs : List (Sentence S P F D O)) : List (Rule S P F D) :=
  let bf : Sentence S P F D O := .bool conj subs
  if data.ruleTypes .cheap then
    if conj then subs.zipIdx.flatMap fun (sub, i) => data.add (map place bf) (map (i :: place) sub).atom
    else data.add (map place bf) (.bool true (subs.zipIdx.map fun (sub, i) => (map (i :: place) sub).atom))
  else []

-- for a quantification no rule is made in the direction of truth
def bottomUp (place : List ℕ) : Sentence S P F D O → List (Rule S P F D)
  | .bool conj subs =>
    (if data.derivations .false .up then data.generateBottomUpApproximation data.formula2cf place conj subs else []) ++
    if data.derivations .true .up then data.generateBottomUpApproximation data.formula2ct place conj subs else []
  | .quant univ vars sub =>
    if data.derivations .false .up then
      data.add (data.formula2cf place (.quant univ vars sub))
        (.quant (! univ) vars (data.formula2cf (0 :: place) sub).atom)
    else []
  | _ => []

def hasDerivation (direction : Direction) : Bool :=
  data.derivations .true direction || data.derivations .false direction

-- each sentence is true
def getBasicDefinition (sentences : List (Sentence S P F D O)) : List (Rule S P F D) :=
  sentences.zipIdx.flatMap fun (sentence, i) =>
    let sentenceCt := data.formula2ct [i] sentence
    if data.isBuiltin sentenceCt.symbol then [] else [⟨sentenceCt, .bool true []⟩]

def getDefinition (sentences : List (Sentence S P F D O)) : List (Rule S P F D) :=
  let down := data.hasDerivation .down
  let (downRules, handled) := if down then data.visitAll data.topDown false [] 0 sentences [] else ([], [])
  let upRules := if data.hasDerivation .up then (data.visitAll data.bottomUp down [] 0 sentences handled).1 else []
  data.getBasicDefinition sentences ++ downRules ++ upRules

end ApproxDefGeneratorData

end ApproximatingDefinition
