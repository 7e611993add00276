import DeclarativeLocalSearch.Theory.Semantics

namespace Theory

variable {S P F D : Type}

def isConjWithSign : SIGN → Bool → Bool
  | .pos, conj => conj
  | .neg, conj => !conj

def isUnivWithSign : SIGN → QUANT → Bool
  | .pos, q => q = .univ
  | .neg, q => q = .exist

structure Vocabulary (S F : Type) where
  outsort : F → S
  isPartial : F → Bool

namespace Simplify

def isTrue : Formula S P F D → Bool
  | .bool sign conj [] => isConjWithSign sign conj
  | _ => false

def isFalse : Formula S P F D → Bool
  | .bool sign conj [] => !isConjWithSign sign conj
  | _ => false

def getFormula (trueform : Bool) : Formula S P F D := .bool .pos trueform []

section Absorb

variable (sign : SIGN)

def absorb (conj : Bool) (subforms : List (Formula S P F D)) : Formula S P F D :=
  if subforms.any isTrue && !isConjWithSign sign conj then getFormula true
  else if subforms.any isFalse && isConjWithSign sign conj then getFormula false
  else .bool sign conj (subforms.filter fun f => !isTrue f && !isFalse f)

def absorbQuant (q : QUANT) (vars : List (Variable S)) (subform : Formula S P F D) :
    Formula S P F D :=
  if isTrue subform && isUnivWithSign sign q then subform
  else if isFalse subform && !isUnivWithSign sign q then subform
  else .quant sign q vars subform

end Absorb

-- no rule that is meant for a positive sign is used under a negative one
def absorbSafe (sign : SIGN) (subforms : List (Formula S P F D)) : Prop :=
  sign = .pos ∨ ∀ f ∈ subforms, isTrue f = false ∧ isFalse f = false

def absorbQuantSafe (sign : SIGN) (q : QUANT) (subform : Formula S P F D) : Prop :=
  sign = .pos ∨ (isTrue subform && isUnivWithSign sign q) = false ∧
    (isFalse subform && !isUnivWithSign sign q) = false

mutual

def simplify : Formula S P F D → Formula S P F D
  | .bool sign conj [] => .bool sign conj []
  | .bool sign conj (f :: fs) => absorb sign conj (simplify f :: simplifyAll fs)
  | .quant sign q vars f => absorbQuant sign q vars (simplify f)
  | .pred sign symbol args => .pred sign symbol args
  | .eqChain sign conj comps terms => .eqChain sign conj comps terms
  | .equiv sign l r => .equiv sign l r
  | .agg sign bound comp g sets => .agg sign bound comp g sets

def simplifyAll : List (Formula S P F D) → List (Formula S P F D)
  | [] => []
  | f :: fs => simplify f :: simplifyAll fs

end

mutual

def simplifySafe : Formula S P F D → Prop
  | .bool _ _ [] => True
  | .bool sign _ (f :: fs) =>
    simplifySafe f ∧ simplifyAllSafe fs ∧ absorbSafe sign (simplify f :: simplifyAll fs)
  | .quant sign q _ f => simplifySafe f ∧ absorbQuantSafe sign q (simplify f)
  | .pred _ _ _ => True
  | .eqChain _ _ _ _ => True
  | .equiv _ _ _ => True
  | .agg _ _ _ _ _ => True

def simplifyAllSafe : List (Formula S P F D) → Prop
  | [] => True
  | f :: fs => simplifySafe f ∧ simplifyAllSafe fs

end

theorem simplifyAll_eq_map (fs : List (Formula S P F D)) : simplifyAll fs = fs.map simplify := by
  induction fs with
  | nil => rfl
  | cons f fs ih => rw [simplifyAll, ih, List.map_cons]

theorem sizeOf_filter_le {α : Type} [SizeOf α] (p : α → Bool) (l : List α) :
    sizeOf (l.filter p) ≤ sizeOf l := by
  induction l with
  | nil => simp
  | cons a l ih =>
    rw [List.filter_cons]
    split_ifs
    · simp only [List.cons.sizeOf_spec]
      omega
    · simp only [List.cons.sizeOf_spec]
      omega

theorem sizeOf_bool (sign sign' : SIGN) (conj conj' : Bool) (fs : List (Formula S P F D)) :
    sizeOf (Formula.bool sign conj fs) = sizeOf (Formula.bool sign' conj' fs) := by
  cases sign <;> cases sign' <;> cases conj <;> cases conj' <;> rfl

theorem sizeOf_absorb_le (sign : SIGN) (conj : Bool) (fs : List (Formula S P F D)) :
    sizeOf (absorb sign conj fs) ≤ sizeOf (Formula.bool sign conj fs) := by
  have mono : ∀ {gs : List (Formula S P F D)}, sizeOf gs ≤ sizeOf fs →
      sizeOf (Formula.bool sign conj gs) ≤ sizeOf (Formula.bool sign conj fs) := fun h => by
    simp only [Formula.bool.sizeOf_spec]
    omega
  have nil : sizeOf ([] : List (Formula S P F D)) ≤ sizeOf fs := by
    cases fs
    · exact Nat.le_refl _
    · simp only [List.nil.sizeOf_spec, List.cons.sizeOf_spec]
      omega
  unfold absorb getFormula
  split_ifs
  · rw [sizeOf_bool .pos sign true conj]
    exact mono nil
  · rw [sizeOf_bool .pos sign false conj]
    exact mono nil
  · exact mono (sizeOf_filter_le _ _)

theorem sizeOf_absorbQuant_le (sign : SIGN) (q : QUANT) (vars : List (Variable S))
    (f : Formula S P F D) :
    sizeOf (absorbQuant sign q vars f) ≤ sizeOf (Formula.quant sign q vars f) := by
  unfold absorbQuant
  split_ifs
  · simp only [Formula.quant.sizeOf_spec]
    omega
  · simp only [Formula.quant.sizeOf_spec]
    omega
  · exact Nat.le_refl _

mutual

theorem sizeOf_simplify_le : (f : Formula S P F D) → sizeOf (simplify f) ≤ sizeOf f
  | .bool _ _ [] => Nat.le_refl _
  | .bool sign conj (f :: fs) => by
    have hf := sizeOf_simplify_le f
    have hfs := sizeOf_simplifyAll_le fs
    refine Nat.le_trans (sizeOf_absorb_le sign conj _) ?_
    simp only [Formula.bool.sizeOf_spec, List.cons.sizeOf_spec]
    omega
  | .quant sign q vars f => by
    have hf := sizeOf_simplify_le f
    refine Nat.le_trans (sizeOf_absorbQuant_le sign q vars _) ?_
    simp only [Formula.quant.sizeOf_spec]
    omega
  | .pred _ _ _ => Nat.le_refl _
  | .eqChain _ _ _ _ => Nat.le_refl _
  | .equiv _ _ _ => Nat.le_refl _
  | .agg _ _ _ _ _ => Nat.le_refl _

theorem sizeOf_simplifyAll_le : (fs : List (Formula S P F D)) → sizeOf (simplifyAll fs) ≤ sizeOf fs
  | [] => Nat.le_refl _
  | f :: fs => by
    have hf := sizeOf_simplify_le f
    have hfs := sizeOf_simplifyAll_le fs
    simp only [simplifyAll, List.cons.sizeOf_spec]
    omega

end

section Visit

variable [DecidableEq S] [DecidableEq F] [DecidableEq D] (voc : Vocabulary S F)
  (I : Structure S P F D) (approxTwoValued : F → Bool)

mutual

def isIdentical (eq : Bool) : Term S P F D → Term S P F D → Bool
  | .var v, .var w => v = w
  | .func f xs, .func g ys =>
    if f ≠ g ∨ (voc.isPartial f ∧ ¬ eq) then false else areIdentical eq xs ys
  | .dom _ d, .dom _ d' => d = d'
  | _, _ => false

def areIdentical (eq : Bool) : List (Term S P F D) → List (Term S P F D) → Bool
  | x :: xs, y :: ys => isIdentical eq x y && areIdentical eq xs ys
  | [], [] => true
  | _, _ => false

end

def visitPred (sign : SIGN) : PFSymbol S P F → List (Term S P F D) → Formula S P F D
  | .eq s, [left, right] =>
    if isIdentical voc (sign = .pos) left right then getFormula (sign = .pos)
    else .pred sign (.eq s) [left, right]
  | symbol, args => .pred sign symbol args

def remainingVars (vars : List (Variable S)) (sub : Formula S P F D) : List (Variable S) :=
  vars.filter fun v => v ∈ sub.freeVars || I.isEmpty v.sort

def removeVars (sign : SIGN) (q : QUANT) (vars : List (Variable S)) (sub : Formula S P F D) :
    Formula S P F D :=
  let remainingvars := remainingVars I vars sub
  if remainingvars = [] then sub
  else if remainingvars.length < vars.length then
    let var2var := freshen (firstFree (vars ++ sub.vars)) remainingvars
    .quant sign q (remainingvars.map var2var) (sub.rename var2var)
  else .quant sign q vars sub

def domainElements : List (Term S P F D) → Option (List D)
  | [] => some []
  | .dom _ d :: ts => (domainElements ts).map (d :: ·)
  | _ :: _ => none

def evaluate (f : F) (args : List (Term S P F D)) : Term S P F D :=
  if approxTwoValued f then
    match domainElements args with
    | some tuple =>
      match I.function f tuple with
      | some result => .dom (voc.outsort f) result
      | none => .func f args
    | none => .func f args
  else .func f args

mutual

def visitTerm : Term S P F D → Term S P F D
  | .var v => .var v
  | .func f args => evaluate voc I approxTwoValued f (visitTerms args)
  | .dom s d => .dom s d
  | .agg g sets => .agg g (visitSets sets)
termination_by t => sizeOf t

def visitTerms : List (Term S P F D) → List (Term S P F D)
  | [] => []
  | t :: ts => visitTerm t :: visitTerms ts
termination_by ts => sizeOf ts

def visitSet : QuantSetExpr S P F D → QuantSetExpr S P F D
  | .mk vars condition term => .mk vars (visit condition) (visitTerm term)
termination_by s => sizeOf s

def visitSets : List (QuantSetExpr S P F D) → List (QuantSetExpr S P F D)
  | [] => []
  | s :: ss => visitSet s :: visitSets ss
termination_by ss => sizeOf ss

-- the atoms are left as they are but for the equalities
def visit : Formula S P F D → Formula S P F D
  | .pred sign symbol args => visitPred voc sign symbol args
  | .eqChain sign conj comps terms => .eqChain sign conj comps (visitTerms terms)
  | .equiv sign l r => .equiv sign (visit l) (visit r)
  | .bool sign conj subs => simplify (.bool sign conj (visitAll subs))
  | .quant sign q vars f =>
    let sub := simplify f
    if (isTrue sub && isUnivWithSign sign q) || (isFalse sub && !isUnivWithSign sign q) then
      visit sub
    else removeVars I sign q vars (visit sub)
  | .agg sign bound comp g sets => .agg sign (visitTerm bound) comp g (visitSets sets)
termination_by f => sizeOf f
decreasing_by
  all_goals simp_wf
  all_goals try omega
  all_goals
    have := sizeOf_simplify_le f
    omega

def visitAll : List (Formula S P F D) → List (Formula S P F D)
  | [] => []
  | f :: fs => visit f :: visitAll fs
termination_by fs => sizeOf fs

end

def SortedOn (vars : List (Variable S)) (e : Variable S → D) : Prop :=
  ∀ v ∈ vars, I.sort v.sort (e v)

def visitPredSafe (sign : SIGN) : PFSymbol S P F → List (Term S P F D) → Prop
  | .eq _, [left, right] => isIdentical voc (sign = .pos) left right = true →
    ∀ e, SortedOn I left.freeVars e → I.value left e ≠ none
  | _, _ => True

mutual

def visitTermSafe : Term S P F D → Prop
  | .var _ => True
  | .func _ args => visitTermsSafe args
  | .dom _ _ => True
  | .agg _ sets => visitSetsSafe sets
termination_by t => sizeOf t

def visitTermsSafe : List (Term S P F D) → Prop
  | [] => True
  | t :: ts => visitTermSafe t ∧ visitTermsSafe ts
termination_by ts => sizeOf ts

def visitSetSafe : QuantSetExpr S P F D → Prop
  | .mk _ condition term => visitSafe condition ∧ visitTermSafe term
termination_by s => sizeOf s

def visitSetsSafe : List (QuantSetExpr S P F D) → Prop
  | [] => True
  | s :: ss => visitSetSafe s ∧ visitSetsSafe ss
termination_by ss => sizeOf ss

-- what the visitor does at a negative sign, and at an equality of identical terms
def visitSafe : Formula S P F D → Prop
  | .pred sign symbol args => visitPredSafe voc I sign symbol args
  | .eqChain _ _ _ terms => visitTermsSafe terms
  | .equiv _ l r => visitSafe l ∧ visitSafe r
  | .bool sign conj subs =>
    visitAllSafe subs ∧ simplifySafe (.bool sign conj (visitAll voc I approxTwoValued subs))
  | .quant sign q vars f =>
    let sub := simplify f
    simplifySafe (.quant sign q vars f) ∧ visitSafe sub ∧
      (sign = .pos ∨ (isTrue sub && isUnivWithSign sign q) = true ∨
        (isFalse sub && !isUnivWithSign sign q) = true ∨
        remainingVars I vars (visit voc I approxTwoValued sub) ≠ [])
  | .agg _ bound _ _ sets => visitTermSafe bound ∧ visitSetsSafe sets
termination_by f => sizeOf f
decreasing_by
  all_goals simp_wf
  all_goals try omega
  all_goals
    have := sizeOf_simplify_le f
    omega

def visitAllSafe : List (Formula S P F D) → Prop
  | [] => True
  | f :: fs => visitSafe f ∧ visitAllSafe fs
termination_by fs => sizeOf fs

end

end Visit

end Simplify

end Theory
