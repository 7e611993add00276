import Mathlib.Data.List.Basic

namespace Theory

inductive SIGN where
  | pos
  | neg
  deriving DecidableEq, Repr

def SIGN.negate : SIGN → SIGN
  | .pos => .neg
  | .neg => .pos

inductive QUANT where
  | univ
  | exist
  deriving DecidableEq, Repr

inductive CompType where
  | eq
  | neq
  | lt
  | gt
  | leq
  | geq
  deriving DecidableEq, Repr

inductive AggFunction where
  | card
  | sum
  | prod
  | min
  | max
  deriving DecidableEq, Repr

structure Variable (S : Type) where
  id : ℕ
  sort : S
  deriving DecidableEq, Repr

instance {S : Type} [DecidableEq S] : LawfulBEq (Variable S) := inferInstance

-- the comparison predicates are there for every sort
inductive PFSymbol (S P F : Type) where
  | eq (sort : S)
  | lt (sort : S)
  | gt (sort : S)
  | sort (sort : S)
  | predicate (p : P)
  | function (f : F)
  deriving DecidableEq, Repr

mutual

inductive Term (S P F D : Type) where
  | var (v : Variable S)
  | func (function : F) (args : List (Term S P F D))
  | dom (sort : S) (value : D)
  | agg (function : AggFunction) (sets : List (QuantSetExpr S P F D))

inductive QuantSetExpr (S P F D : Type) where
  | mk (quantVars : List (Variable S)) (condition : Formula S P F D) (term : Term S P F D)

inductive Formula (S P F D : Type) where
  | pred (sign : SIGN) (symbol : PFSymbol S P F) (args : List (Term S P F D))
  | eqChain (sign : SIGN) (conj : Bool) (comps : List CompType) (terms : List (Term S P F D))
  | equiv (sign : SIGN) (left right : Formula S P F D)
  | bool (sign : SIGN) (conj : Bool) (subformulas : List (Formula S P F D))
  | quant (sign : SIGN) (quant : QUANT) (quantVars : List (Variable S)) (sub : Formula S P F D)
  | agg (sign : SIGN) (bound : Term S P F D) (comp : CompType) (function : AggFunction)
      (sets : List (QuantSetExpr S P F D))

end

variable {S P F D : Type}

theorem Formula.induct {pt : Term S P F D → Prop} {ps : QuantSetExpr S P F D → Prop}
    {pf : Formula S P F D → Prop}
    (var : ∀ v, pt (.var v))
    (func : ∀ f args, (∀ t ∈ args, pt t) → pt (.func f args))
    (dom : ∀ s d, pt (.dom s d))
    (agg : ∀ g sets, (∀ s ∈ sets, ps s) → pt (.agg g sets))
    (set : ∀ vars c t, pf c → pt t → ps (.mk vars c t))
    (pred : ∀ sign symbol args, (∀ t ∈ args, pt t) → pf (.pred sign symbol args))
    (eqChain : ∀ sign conj comps terms, (∀ t ∈ terms, pt t) → pf (.eqChain sign conj comps terms))
    (equiv : ∀ sign l r, pf l → pf r → pf (.equiv sign l r))
    (bool : ∀ sign conj subs, (∀ f ∈ subs, pf f) → pf (.bool sign conj subs))
    (quant : ∀ sign q vars f, pf f → pf (.quant sign q vars f))
    (aggForm : ∀ sign bound comp g sets, pt bound → (∀ s ∈ sets, ps s) →
      pf (.agg sign bound comp g sets)) :
    (∀ t, pt t) ∧ (∀ s, ps s) ∧ ∀ f, pf f := by
  have nil : ∀ {α : Type} {p : α → Prop}, ∀ x ∈ ([] : List α), p x :=
    fun _ hx => absurd hx List.not_mem_nil
  have cons : ∀ {α : Type} {p : α → Prop} {a : α} {l : List α}, p a → (∀ x ∈ l, p x) →
      ∀ x ∈ a :: l, p x := fun ha hl => List.forall_mem_cons.mpr ⟨ha, hl⟩
  refine ⟨@Term.rec S P F D pt ps pf (fun l => ∀ t ∈ l, pt t) (fun l => ∀ s ∈ l, ps s)
      (fun l => ∀ f ∈ l, pf f) var func dom agg set pred eqChain equiv bool quant aggForm ?_ ?_ ?_
      ?_ ?_ ?_,
    @QuantSetExpr.rec S P F D pt ps pf (fun l => ∀ t ∈ l, pt t) (fun l => ∀ s ∈ l, ps s)
      (fun l => ∀ f ∈ l, pf f) var func dom agg set pred eqChain equiv bool quant aggForm ?_ ?_ ?_
      ?_ ?_ ?_,
    @Formula.rec S P F D pt ps pf (fun l => ∀ t ∈ l, pt t) (fun l => ∀ s ∈ l, ps s)
      (fun l => ∀ f ∈ l, pf f) var func dom agg set pred eqChain equiv bool quant aggForm ?_ ?_ ?_
      ?_ ?_ ?_⟩
  all_goals first | exact nil | exact fun _ _ => cons

section FreeVars

variable [DecidableEq S]

mutual

def Term.freeVars : Term S P F D → List (Variable S)
  | .var v => [v]
  | .func _ args => termsFreeVars args
  | .dom _ _ => []
  | .agg _ sets => setsFreeVars sets

def termsFreeVars : List (Term S P F D) → List (Variable S)
  | [] => []
  | t :: ts => t.freeVars ++ termsFreeVars ts

def QuantSetExpr.freeVars : QuantSetExpr S P F D → List (Variable S)
  | .mk vars condition term => (condition.freeVars ++ term.freeVars).filter (· ∉ vars)

def setsFreeVars : List (QuantSetExpr S P F D) → List (Variable S)
  | [] => []
  | s :: ss => s.freeVars ++ setsFreeVars ss

def Formula.freeVars : Formula S P F D → List (Variable S)
  | .pred _ _ args => termsFreeVars args
  | .eqChain _ _ _ terms => termsFreeVars terms
  | .equiv _ l r => l.freeVars ++ r.freeVars
  | .bool _ _ subs => formulasFreeVars subs
  | .quant _ _ vars f => f.freeVars.filter (· ∉ vars)
  | .agg _ bound _ _ sets => bound.freeVars ++ setsFreeVars sets

def formulasFreeVars : List (Formula S P F D) → List (Variable S)
  | [] => []
  | f :: fs => f.freeVars ++ formulasFreeVars fs

end

theorem mem_termsFreeVars {v : Variable S} {ts : List (Term S P F D)} :
    v ∈ termsFreeVars ts ↔ ∃ t ∈ ts, v ∈ t.freeVars := by
  induction ts with
  | nil => simp [termsFreeVars]
  | cons t ts ih => simp [termsFreeVars, ih]

theorem mem_setsFreeVars {v : Variable S} {ss : List (QuantSetExpr S P F D)} :
    v ∈ setsFreeVars ss ↔ ∃ s ∈ ss, v ∈ s.freeVars := by
  induction ss with
  | nil => simp [setsFreeVars]
  | cons s ss ih => simp [setsFreeVars, ih]

theorem mem_formulasFreeVars {v : Variable S} {fs : List (Formula S P F D)} :
    v ∈ formulasFreeVars fs ↔ ∃ f ∈ fs, v ∈ f.freeVars := by
  induction fs with
  | nil => simp [formulasFreeVars]
  | cons f fs ih => simp [formulasFreeVars, ih]

end FreeVars

section Rename

variable (ρ : Variable S → Variable S)

mutual

def Term.rename : Term S P F D → Term S P F D
  | .var v => .var (ρ v)
  | .func f args => .func f (renameTerms args)
  | .dom s d => .dom s d
  | .agg g sets => .agg g (renameSets sets)

def renameTerms : List (Term S P F D) → List (Term S P F D)
  | [] => []
  | t :: ts => t.rename :: renameTerms ts

def QuantSetExpr.rename : QuantSetExpr S P F D → QuantSetExpr S P F D
  | .mk vars condition term => .mk (vars.map ρ) condition.rename term.rename

def renameSets : List (QuantSetExpr S P F D) → List (QuantSetExpr S P F D)
  | [] => []
  | s :: ss => s.rename :: renameSets ss

def Formula.rename : Formula S P F D → Formula S P F D
  | .pred sign symbol args => .pred sign symbol (renameTerms args)
  | .eqChain sign conj comps terms => .eqChain sign conj comps (renameTerms terms)
  | .equiv sign l r => .equiv sign l.rename r.rename
  | .bool sign conj subs => .bool sign conj (renameFormulas subs)
  | .quant sign q vars f => .quant sign q (vars.map ρ) f.rename
  | .agg sign bound comp g sets => .agg sign bound.rename comp g (renameSets sets)

def renameFormulas : List (Formula S P F D) → List (Formula S P F D)
  | [] => []
  | f :: fs => f.rename :: renameFormulas fs

end

theorem renameTerms_eq_map (ts : List (Term S P F D)) : renameTerms ρ ts = ts.map (Term.rename ρ) := by
  induction ts with
  | nil => rfl
  | cons t ts ih => rw [renameTerms, ih, List.map_cons]

theorem renameFormulas_eq_map (fs : List (Formula S P F D)) :
    renameFormulas ρ fs = fs.map (Formula.rename ρ) := by
  induction fs with
  | nil => rfl
  | cons f fs ih => rw [renameFormulas, ih, List.map_cons]

end Rename

section Fresh

-- all variables, the quantified ones too
mutual

def Term.vars : Term S P F D → List (Variable S)
  | .var v => [v]
  | .func _ args => termsVars args
  | .dom _ _ => []
  | .agg _ sets => setsVars sets

def termsVars : List (Term S P F D) → List (Variable S)
  | [] => []
  | t :: ts => t.vars ++ termsVars ts

def QuantSetExpr.vars : QuantSetExpr S P F D → List (Variable S)
  | .mk vars condition term => vars ++ condition.vars ++ term.vars

def setsVars : List (QuantSetExpr S P F D) → List (Variable S)
  | [] => []
  | s :: ss => s.vars ++ setsVars ss

def Formula.vars : Formula S P F D → List (Variable S)
  | .pred _ _ args => termsVars args
  | .eqChain _ _ _ terms => termsVars terms
  | .equiv _ l r => l.vars ++ r.vars
  | .bool _ _ subs => formulasVars subs
  | .quant _ _ vars f => vars ++ f.vars
  | .agg _ bound _ _ sets => bound.vars ++ setsVars sets

def formulasVars : List (Formula S P F D) → List (Variable S)
  | [] => []
  | f :: fs => f.vars ++ formulasVars fs

end

def firstFree : List (Variable S) → ℕ
  | [] => 0
  | v :: vs => max (v.id + 1) (firstFree vs)

theorem lt_firstFree {v : Variable S} {vs : List (Variable S)} (h : v ∈ vs) : v.id < firstFree vs := by
  induction vs with
  | nil => exact absurd h List.not_mem_nil
  | cons w vs ih =>
    rcases List.mem_cons.mp h with rfl | h
    · exact Nat.lt_of_lt_of_le (Nat.lt_succ_self _) (Nat.le_max_left _ _)
    · exact Nat.lt_of_lt_of_le (ih h) (Nat.le_max_right _ _)

variable [DecidableEq S]

theorem freeVars_subset :
    (∀ (t : Term S P F D), ∀ v ∈ t.freeVars, v ∈ t.vars) ∧
    (∀ (s : QuantSetExpr S P F D), ∀ v ∈ s.freeVars, v ∈ s.vars) ∧
    ∀ (f : Formula S P F D), ∀ v ∈ f.freeVars, v ∈ f.vars := by
  have terms : ∀ {ts : List (Term S P F D)}, (∀ t ∈ ts, ∀ v ∈ t.freeVars, v ∈ t.vars) →
      ∀ v ∈ termsFreeVars ts, v ∈ termsVars ts := by
    intro ts h v hv
    induction ts with
    | nil => exact hv
    | cons t ts ih =>
      obtain ⟨ht, hts⟩ := List.forall_mem_cons.mp h
      exact List.mem_append.mpr ((List.mem_append.mp hv).imp (ht v) (ih hts))
  have sets : ∀ {ss : List (QuantSetExpr S P F D)}, (∀ s ∈ ss, ∀ v ∈ s.freeVars, v ∈ s.vars) →
      ∀ v ∈ setsFreeVars ss, v ∈ setsVars ss := by
    intro ss h v hv
    induction ss with
    | nil => exact hv
    | cons s ss ih =>
      obtain ⟨hs, hss⟩ := List.forall_mem_cons.mp h
      exact List.mem_append.mpr ((List.mem_append.mp hv).imp (hs v) (ih hss))
  have formulas : ∀ {fs : List (Formula S P F D)}, (∀ f ∈ fs, ∀ v ∈ f.freeVars, v ∈ f.vars) →
      ∀ v ∈ formulasFreeVars fs, v ∈ formulasVars fs := by
    intro fs h v hv
    induction fs with
    | nil => exact hv
    | cons f fs ih =>
      obtain ⟨hf, hfs⟩ := List.forall_mem_cons.mp h
      exact List.mem_append.mpr ((List.mem_append.mp hv).imp (hf v) (ih hfs))
  refine Formula.induct ?_ ?_ ?_ ?_ ?_ ?_ ?_ ?_ ?_ ?_ ?_
  · exact fun _ _ h => h
  · exact fun _ _ ih => terms ih
  · exact fun _ _ _ h => h
  · exact fun _ _ ih => sets ih
  · intro vars c t ihc iht v hv
    have hv := (List.mem_filter.mp hv).1
    rw [QuantSetExpr.vars, List.append_assoc]
    exact List.mem_append_right _ (List.mem_append.mpr ((List.mem_append.mp hv).imp (ihc v) (iht v)))
  · exact fun _ _ _ ih => terms ih
  · exact fun _ _ _ _ ih => terms ih
  · exact fun _ _ _ ihl ihr v hv => List.mem_append.mpr ((List.mem_append.mp hv).imp (ihl v) (ihr v))
  · exact fun _ _ _ ih => formulas ih
  · exact fun _ _ _ _ ih v hv => List.mem_append_right _ (ih v (List.mem_filter.mp hv).1)
  · exact fun _ _ _ _ _ ihb ih v hv =>
      List.mem_append.mpr ((List.mem_append.mp hv).imp (ihb v) (sets ih v))

-- exchanges the variables of the list with new ones, when n is above all identifiers in use
def freshen (n : ℕ) (vs : List (Variable S)) (v : Variable S) : Variable S :=
  if v ∈ vs then ⟨n + v.id, v.sort⟩
  else if n ≤ v.id ∧ ⟨v.id - n, v.sort⟩ ∈ vs then ⟨v.id - n, v.sort⟩ else v

variable {n : ℕ} {vs : List (Variable S)}

theorem freshen_sort (v : Variable S) : (freshen n vs v).sort = v.sort := by
  unfold freshen
  split_ifs <;> rfl

theorem freshen_of_old {v : Variable S} (h : v ∉ vs) (hn : v.id < n) : freshen n vs v = v := by
  rw [freshen, if_neg h, if_neg fun hv => absurd hn (Nat.not_lt.mpr hv.1)]

theorem freshen_freshen (h : ∀ v ∈ vs, v.id < n) (v : Variable S) :
    freshen n vs (freshen n vs v) = v := by
  by_cases hv : v ∈ vs
  · have hnew : (⟨n + v.id, v.sort⟩ : Variable S) ∉ vs := fun hmem => by
      have := h _ hmem
      simp only at this
      omega
    rw [freshen.eq_def n vs v, if_pos hv, freshen, if_neg hnew, if_pos]
    · simp
    · refine ⟨Nat.le_add_right _ _, ?_⟩
      simpa using hv
  · by_cases hold : n ≤ v.id ∧ (⟨v.id - n, v.sort⟩ : Variable S) ∈ vs
    · rw [freshen.eq_def n vs v, if_neg hv, if_pos hold, freshen, if_pos hold.2]
      simp only [Nat.add_sub_cancel' hold.1]
    · have heq : freshen n vs v = v := by rw [freshen, if_neg hv, if_neg hold]
      rw [heq, heq]

end Fresh

end Theory
