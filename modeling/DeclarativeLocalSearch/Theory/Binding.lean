import DeclarativeLocalSearch.Theory.Syntax

namespace Theory

variable {S P F D : Type}

section Bound

mutual

def Term.boundVars : Term S P F D → List (Variable S)
  | .var _ => []
  | .func _ args => termsBoundVars args
  | .dom _ _ => []
  | .agg _ sets => setsBoundVars sets

def termsBoundVars : List (Term S P F D) → List (Variable S)
  | [] => []
  | t :: ts => t.boundVars ++ termsBoundVars ts

def QuantSetExpr.boundVars : QuantSetExpr S P F D → List (Variable S)
  | .mk vars condition term => vars ++ (condition.boundVars ++ term.boundVars)

def setsBoundVars : List (QuantSetExpr S P F D) → List (Variable S)
  | [] => []
  | s :: ss => s.boundVars ++ setsBoundVars ss

def Formula.boundVars : Formula S P F D → List (Variable S)
  | .pred _ _ args => termsBoundVars args
  | .eqChain _ _ _ terms => termsBoundVars terms
  | .equiv _ l r => l.boundVars ++ r.boundVars
  | .bool _ _ subs => formulasBoundVars subs
  | .quant _ _ vars f => vars ++ f.boundVars
  | .agg _ bound _ _ sets => bound.boundVars ++ setsBoundVars sets

def formulasBoundVars : List (Formula S P F D) → List (Variable S)
  | [] => []
  | f :: fs => f.boundVars ++ formulasBoundVars fs

end

end Bound

section Prepared

mutual

def Term.prepared : Term S P F D → Prop
  | .var _ => True
  | .func _ args => termsPrepared args
  | .dom _ _ => True
  | .agg _ sets => setsPrepared sets

def termsPrepared : List (Term S P F D) → Prop
  | [] => True
  | t :: ts => t.prepared ∧ termsPrepared ts

def QuantSetExpr.prepared : QuantSetExpr S P F D → Prop
  | .mk vars condition term =>
    (∀ v ∈ vars, v ∉ condition.boundVars ++ term.boundVars) ∧ condition.prepared ∧ term.prepared

def setsPrepared : List (QuantSetExpr S P F D) → Prop
  | [] => True
  | s :: ss => s.prepared ∧ setsPrepared ss

-- the negations are pushed, and no variable is quantified again where it is quantified
def Formula.prepared : Formula S P F D → Prop
  | .pred _ _ args => termsPrepared args
  | .eqChain _ _ _ terms => termsPrepared terms
  | .equiv _ l r => l.prepared ∧ r.prepared
  | .bool sign _ subs => sign = .pos ∧ formulasPrepared subs
  | .quant sign _ vars f => sign = .pos ∧ (∀ v ∈ vars, v ∉ f.boundVars) ∧ f.prepared
  | .agg _ bound _ _ sets => bound.prepared ∧ setsPrepared sets

def formulasPrepared : List (Formula S P F D) → Prop
  | [] => True
  | f :: fs => f.prepared ∧ formulasPrepared fs

end

end Prepared

theorem termsFreeVars_eq_flatMap [DecidableEq S] (ts : List (Term S P F D)) :
    termsFreeVars ts = ts.flatMap Term.freeVars := by
  induction ts with
  | nil => rfl
  | cons t ts ih => rw [termsFreeVars, ih, List.flatMap_cons]

theorem setsFreeVars_eq_flatMap [DecidableEq S] (ss : List (QuantSetExpr S P F D)) :
    setsFreeVars ss = ss.flatMap QuantSetExpr.freeVars := by
  induction ss with
  | nil => rfl
  | cons s ss ih => rw [setsFreeVars, ih, List.flatMap_cons]

theorem formulasFreeVars_eq_flatMap [DecidableEq S] (fs : List (Formula S P F D)) :
    formulasFreeVars fs = fs.flatMap Formula.freeVars := by
  induction fs with
  | nil => rfl
  | cons f fs ih => rw [formulasFreeVars, ih, List.flatMap_cons]

theorem termsBoundVars_eq_flatMap (ts : List (Term S P F D)) :
    termsBoundVars ts = ts.flatMap Term.boundVars := by
  induction ts with
  | nil => rfl
  | cons t ts ih => rw [termsBoundVars, ih, List.flatMap_cons]

theorem setsBoundVars_eq_flatMap (ss : List (QuantSetExpr S P F D)) :
    setsBoundVars ss = ss.flatMap QuantSetExpr.boundVars := by
  induction ss with
  | nil => rfl
  | cons s ss ih => rw [setsBoundVars, ih, List.flatMap_cons]

theorem formulasBoundVars_eq_flatMap (fs : List (Formula S P F D)) :
    formulasBoundVars fs = fs.flatMap Formula.boundVars := by
  induction fs with
  | nil => rfl
  | cons f fs ih => rw [formulasBoundVars, ih, List.flatMap_cons]

theorem termsPrepared_iff {ts : List (Term S P F D)} : termsPrepared ts ↔ ∀ t ∈ ts, t.prepared := by
  induction ts with
  | nil => simp [termsPrepared]
  | cons t ts ih => simp [termsPrepared, ih]

theorem setsPrepared_iff {ss : List (QuantSetExpr S P F D)} :
    setsPrepared ss ↔ ∀ s ∈ ss, s.prepared := by
  induction ss with
  | nil => simp [setsPrepared]
  | cons s ss ih => simp [setsPrepared, ih]

theorem formulasPrepared_iff {fs : List (Formula S P F D)} :
    formulasPrepared fs ↔ ∀ f ∈ fs, f.prepared := by
  induction fs with
  | nil => simp [formulasPrepared]
  | cons f fs ih => simp [formulasPrepared, ih]

section Substitute

-- the quantified variables stay
variable (ρ : Variable S → Variable S)

mutual

def Term.substituteVarWithVar : Term S P F D → Term S P F D
  | .var v => .var (ρ v)
  | .func f args => .func f (substituteTerms args)
  | .dom s d => .dom s d
  | .agg g sets => .agg g (substituteSets sets)

def substituteTerms : List (Term S P F D) → List (Term S P F D)
  | [] => []
  | t :: ts => t.substituteVarWithVar :: substituteTerms ts

def QuantSetExpr.substituteVarWithVar : QuantSetExpr S P F D → QuantSetExpr S P F D
  | .mk vars condition term => .mk vars condition.substituteVarWithVar term.substituteVarWithVar

def substituteSets : List (QuantSetExpr S P F D) → List (QuantSetExpr S P F D)
  | [] => []
  | s :: ss => s.substituteVarWithVar :: substituteSets ss

def Formula.substituteVarWithVar : Formula S P F D → Formula S P F D
  | .pred sign symbol args => .pred sign symbol (substituteTerms args)
  | .eqChain sign conj comps terms => .eqChain sign conj comps (substituteTerms terms)
  | .equiv sign l r => .equiv sign l.substituteVarWithVar r.substituteVarWithVar
  | .bool sign conj subs => .bool sign conj (substituteFormulas subs)
  | .quant sign q vars f => .quant sign q vars f.substituteVarWithVar
  | .agg sign bound comp g sets => .agg sign bound.substituteVarWithVar comp g (substituteSets sets)

def substituteFormulas : List (Formula S P F D) → List (Formula S P F D)
  | [] => []
  | f :: fs => f.substituteVarWithVar :: substituteFormulas fs

end

theorem substituteTerms_eq_map (ts : List (Term S P F D)) :
    substituteTerms ρ ts = ts.map (Term.substituteVarWithVar ρ) := by
  induction ts with
  | nil => rfl
  | cons t ts ih => rw [substituteTerms, ih, List.map_cons]

theorem substituteSets_eq_map (ss : List (QuantSetExpr S P F D)) :
    substituteSets ρ ss = ss.map (QuantSetExpr.substituteVarWithVar ρ) := by
  induction ss with
  | nil => rfl
  | cons s ss ih => rw [substituteSets, ih, List.map_cons]

theorem substituteFormulas_eq_map (fs : List (Formula S P F D)) :
    substituteFormulas ρ fs = fs.map (Formula.substituteVarWithVar ρ) := by
  induction fs with
  | nil => rfl
  | cons f fs ih => rw [substituteFormulas, ih, List.map_cons]

end Substitute

end Theory
