import DeclarativeLocalSearch.Theory.NormalForm
import DeclarativeLocalSearch.Theory.Rules
import DeclarativeLocalSearch.Theory.Simplify

namespace Theory

variable {S P F D : Type} [DecidableEq S]

-- a head that is an equality defines the function on its left
def Rule.graphed (r : Rule S P F D) : Rule S P F D :=
  match r.head, r.args with
  | .eq _, [.func f args, right] => { r with head := .function f, args := args ++ [right] }
  | _, _ => r

section UnnestTerms

variable (V : SortedVocabulary S P F)

-- the variables of the head, and the terms that were moved for them
def moveHeadTerms (symbol : PFSymbol S P F) :
    ℕ → List (Term S P F D) → ℕ → List (Variable S × Option (Term S P F D))
  | _, [], _ => []
  | i, .var v :: ts, n => (v, none) :: moveHeadTerms symbol (i + 1) ts n
  | i, t :: ts, n => (⟨n, V.sort symbol i⟩, some t) :: moveHeadTerms symbol (i + 1) ts (n + 1)

def movedVars (head : List (Variable S × Option (Term S P F D))) : List (Variable S) :=
  head.filterMap fun x => x.2.map fun _ => x.1

-- the terms have sorts, by an assertion
def equalities (head : List (Variable S × Option (Term S P F D))) : List (Formula S P F D) :=
  head.filterMap fun x => x.2.map fun t =>
    .pred .pos (.eq ((V.termSort t).getD (V.std .int))) [.var x.1, t]

def visitRuleHead (r : Rule S P F D) (n : ℕ) : Rule S P F D :=
  let head := moveHeadTerms V r.head 0 r.args n
  { quantVars := r.quantVars ++ movedVars head
    head := r.head
    args := head.map fun x => .var x.1
    body :=
      if equalities V head = [] then r.body
      else .bool .pos true (equalities V head ++ if Simplify.isTrue r.body then [] else [r.body]) }

end UnnestTerms

namespace ReplaceDefinitionsWithCompletion

variable (V : SortedVocabulary S P F) (arity : PFSymbol S P F → ℕ)

def newVars (symbol : PFSymbol S P F) (n : ℕ) : List (Variable S) :=
  (List.range (arity symbol)).map fun i => ⟨n + i, V.sort symbol i⟩

-- a later position of a variable overwrites an earlier one
def old2newheadvars : List (Term S P F D) → List (Variable S) → Variable S → Variable S
  | .var w :: ts, h :: hs, v =>
    if v ∈ termsFreeVars ts then old2newheadvars ts hs v else if v = w then h else v
  | _, _, v => v

def quantified (q : QUANT) (vars : List (Variable S)) (f : Formula S P F D) : Formula S P F D :=
  if vars = [] then f else .quant .pos q vars f

-- the sentence that the body implies the head, and the body over the head variables of the symbol; the
-- rule is a copy of its own
def visitRule (headvars : List (Variable S)) (rule : Rule S P F D) (n : ℕ) :
    (Formula S P F D × Formula S P F D) × ℕ :=
  let newrule := visitRuleHead V rule.graphed n
  let n := n + newrule.args.length
  let hv := newrule.quantVars.filter (· ∈ termsFreeVars newrule.args)
  let bv := newrule.quantVars.filter (· ∉ termsFreeVars newrule.args)
  let body := quantified .exist bv newrule.body
  let left := body.clone (renewed n hv id) (n + firstFree hv)
  let right := cloneTerms newrule.args (renewed n hv id) left.2
  let newbody := body.clone (old2newheadvars newrule.args headvars) right.2
  ((quantified .univ (hv.map (fresh n)) (.bool .pos false [left.1.negate, .pred .pos newrule.head right.1]),
    newbody.1), newbody.2)

variable [DecidableEq P] [DecidableEq F]

def headvars : List (PFSymbol S P F) → ℕ → PFSymbol S P F → List (Variable S)
  | [], _, _ => []
  | s :: ss, n, symbol =>
    if symbol = s then newVars V arity s n else headvars ss (n + arity s) symbol

def headvarsEnd (symbols : List (PFSymbol S P F)) (n : ℕ) : ℕ := n + (symbols.map arity).sum

def visitRules (vars : PFSymbol S P F → List (Variable S)) :
    List (Rule S P F D) → ℕ → List (PFSymbol S P F × Formula S P F D × Formula S P F D) × ℕ
  | [], n => ([], n)
  | r :: rs, n =>
    let sentences := visitRule V (vars r.graphed.head) r n
    let rest := visitRules vars rs sentences.2
    ((r.graphed.head, sentences.1) :: rest.1, rest.2)

-- the sentence that the head implies one of the bodies
def headSentence (symbol : PFSymbol S P F) (vars : List (Variable S)) (bodies : List (Formula S P F D)) :
    Formula S P F D :=
  let body := match bodies with
    | [body] => body
    | bodies => .bool .pos false bodies
  quantified .univ vars (.bool .pos false [.pred .neg symbol (vars.map .var), body])

def visitDefinition (rules : List (Rule S P F D)) (n : ℕ) : List (Formula S P F D) × ℕ :=
  let symbols := (rules.map fun r => r.graphed.head).dedup
  let vars := headvars V arity symbols n
  let visited := visitRules V vars rules (headvarsEnd arity symbols n)
  (visited.1.map (fun x => x.2.1) ++ symbols.map fun symbol =>
    headSentence symbol (vars symbol) ((visited.1.filter fun x => x.1 = symbol).map fun x => x.2.2), visited.2)

end ReplaceDefinitionsWithCompletion

end Theory
