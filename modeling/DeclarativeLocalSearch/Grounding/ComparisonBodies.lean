import Mathlib
import DeclarativeLocalSearch.Grounding.TseitinMeaning

namespace ComparisonBodies

open Grounding (TsType)
open Theory (CompType)

-- the literal that is true or false, or an atom with its sign
inductive Lit where
  | truth (positive : Bool)
  | atom (positive : Bool) (n : ℕ)

def Lit.neg : Lit → Lit
  | truth positive => truth (! positive)
  | atom positive n => atom (! positive) n

inductive EqType where
  | eq
  | neq
  | l
  | g
  | geq
  | leq

def EqType.rel : EqType → ℤ → ℤ → Bool
  | eq, a, b => a = b
  | neq, a, b => a ≠ b
  | l, a, b => a < b
  | g, a, b => b < a
  | geq, a, b => b ≤ a
  | leq, a, b => a ≤ b

-- a variable of the grounding, or the one that is stored for a number
inductive Var where
  | varid (n : ℕ)
  | stored (value : ℤ)

inductive CPBound where
  | varid (n : ℕ)
  | bound (value : ℤ)

structure Element where
  condition : Lit
  varid : ℕ

structure SumElement where
  condition : Lit
  var : Var
  weight : ℤ

inductive CPSetTerm where
  | sum (elements : List SumElement)
  | prod (elements : List Element) (weight : ℤ)
  | min (elements : List Element)
  | max (elements : List Element)

structure CPTsBody where
  type : TsType
  left : CPSetTerm
  comp : CompType
  right : CPBound
  -- asserted where the body is added
  not_rule : type ≠ .rule

-- the constraints of the solver that are used for these bodies
inductive Constraint where
  | binaryRelVar (head : Lit) (left : Var) (rel : EqType) (right : Var)
  | equivalence (head : Lit) (body : List Lit) (conj : Bool)
  | sumWeighted (head : ℕ) (elements : List SumElement) (rel : EqType) (bound : ℤ)
  | prodWeighted (head : ℕ) (elements : List Element) (weight : ℤ) (rel : EqType) (bound : Var)

section Source

def eqType : CompType → EqType
  | .eq => .eq
  | .neq => .neq
  | .leq => .leq
  | .geq => .geq
  | .lt => .l
  | .gt => .g

-- the literals, the constraints and the next number
def getConditionalComparisonList (comp : EqType) (rhsvarid : Var) (universal : Bool) :
    List Element → ℕ → List Lit × List Constraint × ℕ
  | [], next => ([], [], next)
  | e :: elements, next =>
    let impltseitin := Lit.atom true next
    let comptseitin := Lit.atom true (next + 1)
    let (tseitins, constraints, next) := getConditionalComparisonList comp rhsvarid universal elements (next + 2)
    (impltseitin :: tseitins,
      .binaryRelVar comptseitin (.varid e.varid) comp rhsvarid ::
      (if universal then .equivalence impltseitin [e.condition.neg, comptseitin] false
        else .equivalence impltseitin [e.condition, comptseitin] true) :: constraints,
      next)

def condlist (elements : List Element) (rhsvarid : Var) (tseitin : Lit) (comp : EqType) (conj : Bool) (next : ℕ) :
    List Constraint × ℕ :=
  let (tseitins, constraints, next) := getConditionalComparisonList comp rhsvarid conj elements next
  (constraints ++ [.equivalence tseitin tseitins conj], next)

-- two lists with a literal for each
def twolists (elements : List Element) (rhsvarid : Var) (tseitin : Lit) (comp1 : EqType) (conj1 : Bool)
    (comp2 : EqType) (conj2 : Bool) (conj : Bool) (next : ℕ) : List Constraint × ℕ :=
  let ts1 := Lit.atom true next
  let ts2 := Lit.atom true (next + 1)
  let (constraints1, next) := condlist elements rhsvarid ts1 comp1 conj1 (next + 2)
  let (constraints2, next) := condlist elements rhsvarid ts2 comp2 conj2 next
  (constraints1 ++ constraints2 ++ [.equivalence tseitin [ts1, ts2] conj], next)

def addMin (tseitin : Lit) (elements : List Element) (comp : CompType) (rhsvarid : Var) : ℕ → List Constraint × ℕ :=
  match comp with
  | .eq => twolists elements rhsvarid tseitin .geq true .leq false true
  | .neq => twolists elements rhsvarid tseitin .g false .l true false
  | .leq => condlist elements rhsvarid tseitin .leq false
  | .geq => condlist elements rhsvarid tseitin .geq true
  | .lt => condlist elements rhsvarid tseitin .l false
  | .gt => condlist elements rhsvarid tseitin .g true

def addMax (tseitin : Lit) (elements : List Element) (comp : CompType) (rhsvarid : Var) : ℕ → List Constraint × ℕ :=
  match comp with
  | .eq => twolists elements rhsvarid tseitin .leq true .geq false true
  | .neq => twolists elements rhsvarid tseitin .l false .g true false
  | .leq => condlist elements rhsvarid tseitin .leq true
  | .geq => condlist elements rhsvarid tseitin .geq false
  | .lt => condlist elements rhsvarid tseitin .l true
  | .gt => condlist elements rhsvarid tseitin .g false

-- translateTerm of the number
def CPBound.rhsvarid : CPBound → Var
  | varid n => .varid n
  | bound value => .stored value

-- a Tseitin is an atom with a sign, and createAtom takes the atom
def add (positive : Bool) (tseitin : ℕ) (body : CPTsBody) (next : ℕ) : List Constraint × ℕ :=
  match body.left with
  | .sum elements =>
    match body.right with
    | .varid n => ([.sumWeighted tseitin (elements ++ [⟨.truth true, .varid n, -1⟩]) (eqType body.comp) 0], next)
    | .bound value => ([.sumWeighted tseitin elements (eqType body.comp) value], next)
  | .prod elements weight => ([.prodWeighted tseitin elements weight (eqType body.comp) body.right.rhsvarid], next)
  | .min elements => addMin (.atom positive tseitin) elements body.comp body.right.rhsvarid next
  | .max elements => addMax (.atom positive tseitin) elements body.comp body.right.rhsvarid next

end Source

section Meaning

structure Assignment where
  lit : ℕ → Bool
  var : ℕ → ℤ

variable (A : Assignment)

def Lit.holds : Lit → Bool
  | truth positive => positive
  | atom positive n => A.lit n == positive

def Var.eval : Var → ℤ
  | varid n => A.var n
  | stored value => value

def CPBound.eval : CPBound → ℤ
  | varid n => A.var n
  | bound value => value

def sumValue (elements : List SumElement) : ℤ :=
  (elements.map fun e => if e.condition.holds A then e.weight * e.var.eval A else 0).sum

def prodValue (elements : List Element) : ℤ :=
  (elements.map fun e => if e.condition.holds A then A.var e.varid else 1).prod

-- the values of the elements that are in the set
def values (elements : List Element) : List ℤ :=
  (elements.filter fun e => e.condition.holds A).map fun e => A.var e.varid

def Constraint.holds : Constraint → Prop
  | binaryRelVar head left rel right => head.holds A = rel.rel (left.eval A) (right.eval A)
  | equivalence head body conj => head.holds A = if conj then body.all (Lit.holds A) else body.any (Lit.holds A)
  | sumWeighted head elements rel bound => A.lit head = rel.rel (sumValue A elements) bound
  | prodWeighted head elements weight rel bound => A.lit head = rel.rel (weight * prodValue A elements) (bound.eval A)

def compare {α : Type} [LinearOrder α] : CompType → α → α → Prop
  | .eq, a, b => a = b
  | .neq, a, b => a ≠ b
  | .lt, a, b => a < b
  | .gt, a, b => b < a
  | .leq, a, b => a ≤ b
  | .geq, a, b => b ≤ a

-- a minimum of nothing is above every value, and a maximum below
def CPTsBody.comparison (body : CPTsBody) : Prop :=
  match body.left with
  | .sum elements => compare body.comp (sumValue A elements) (body.right.eval A)
  | .prod elements weight => compare body.comp (weight * prodValue A elements) (body.right.eval A)
  | .min elements => compare body.comp (values A elements).minimum (body.right.eval A : WithTop ℤ)
  | .max elements => compare body.comp (values A elements).maximum (body.right.eval A : WithBot ℤ)

variable {A}

def Sat (A : Assignment) (constraints : List Constraint) : Prop := ∀ c ∈ constraints, c.holds A

-- the same values for the variables and for some of the atoms
structure Agree (p : ℕ → Prop) (A A' : Assignment) : Prop where
  var : A'.var = A.var
  lit : ∀ n, p n → A'.lit n = A.lit n

def Lit.Within (p : ℕ → Prop) : Lit → Prop
  | truth _ => True
  | atom _ n => p n

abbrev Lit.Below (next : ℕ) : Lit → Prop := Lit.Within (· < next)

def Constraint.Below (next : ℕ) : Constraint → Prop
  | binaryRelVar head _ _ _ => head.Below next
  | equivalence head body _ => head.Below next ∧ ∀ l ∈ body, l.Below next
  | sumWeighted head elements _ _ => head < next ∧ ∀ e ∈ elements, e.condition.Below next
  | prodWeighted head elements _ _ _ => head < next ∧ ∀ e ∈ elements, e.condition.Below next

end Meaning

section Agreement

variable {A A' A'' : Assignment} {p : ℕ → Prop} {next next' : ℕ}

theorem Agree.refl (A : Assignment) : Agree p A A := ⟨rfl, fun _ _ => rfl⟩

theorem Agree.symm (h : Agree p A A') : Agree p A' A := ⟨h.var.symm, fun n hn => (h.lit n hn).symm⟩

theorem Agree.trans (h : Agree p A A') (h' : Agree p A' A'') : Agree p A A'' :=
  ⟨h'.var.trans h.var, fun n hn => (h'.lit n hn).trans (h.lit n hn)⟩

theorem Agree.mono (h : Agree (· < next') A A') (hle : next ≤ next') : Agree (· < next) A A' :=
  ⟨h.var, fun n hn => h.lit n (Nat.lt_of_lt_of_le hn hle)⟩

theorem Lit.Below.mono {l : Lit} (h : l.Below next) (hle : next ≤ next') : l.Below next' := by
  cases l with
  | truth => trivial
  | atom positive n => exact Nat.lt_of_lt_of_le h hle

@[simp] theorem Lit.below_atom {positive : Bool} {n : ℕ} : (Lit.atom positive n).Below next ↔ n < next := Iff.rfl

theorem Lit.below_neg {l : Lit} : l.neg.Below next ↔ l.Below next := by
  cases l <;> rfl

@[simp] theorem holds_neg {l : Lit} : l.neg.holds A = ! l.holds A := by
  cases l with
  | truth => rfl
  | atom positive n => cases positive <;> cases h : A.lit n <;> simp [Lit.neg, Lit.holds, h]

theorem Agree.holds (h : Agree p A A') {l : Lit} (hl : l.Within p) : l.holds A' = l.holds A := by
  cases l with
  | truth => rfl
  | atom positive n => rw [Lit.holds, Lit.holds, h.lit n hl]

theorem Agree.eval_var (h : Agree p A A') (v : Var) : v.eval A' = v.eval A := by
  cases v with
  | varid n => exact congrFun h.var n
  | stored value => rfl

theorem Agree.eval_bound (h : Agree p A A') (b : CPBound) : b.eval A' = b.eval A := by
  cases b with
  | varid n => exact congrFun h.var n
  | bound value => rfl

theorem Agree.sumValue (h : Agree p A A') {elements : List SumElement}
    (he : ∀ e ∈ elements, e.condition.Within p) : sumValue A' elements = sumValue A elements := by
  refine congrArg List.sum (List.map_congr_left fun e hmem => ?_)
  rw [h.holds (he e hmem), h.eval_var]

theorem Agree.prodValue (h : Agree p A A') {elements : List Element}
    (he : ∀ e ∈ elements, e.condition.Within p) : prodValue A' elements = prodValue A elements := by
  refine congrArg List.prod (List.map_congr_left fun e hmem => ?_)
  rw [h.holds (he e hmem), h.var]

theorem Agree.values (h : Agree p A A') {elements : List Element}
    (he : ∀ e ∈ elements, e.condition.Within p) : values A' elements = values A elements := by
  unfold ComparisonBodies.values
  rw [h.var, List.filter_congr fun e hmem => by rw [h.holds (he e hmem)]]

theorem Agree.constraint (h : Agree (· < next) A A') {c : Constraint} (hc : c.Below next) (hold : c.holds A) :
    c.holds A' := by
  cases c with
  | binaryRelVar head left rel right =>
    rw [Constraint.holds, h.holds hc, h.eval_var, h.eval_var]
    exact hold
  | equivalence head body conj =>
    have hbody : body.map (Lit.holds A') = body.map (Lit.holds A) :=
      List.map_congr_left fun l hl => h.holds (hc.2 l hl)
    have hall : body.all (Lit.holds A') = body.all (Lit.holds A) := by
      simpa [List.all_map] using congrArg (fun l : List Bool => l.all id) hbody
    have hany : body.any (Lit.holds A') = body.any (Lit.holds A) := by
      simpa [List.any_map] using congrArg (fun l : List Bool => l.any id) hbody
    rw [Constraint.holds, h.holds hc.1, hall, hany]
    exact hold
  | sumWeighted head elements rel bound =>
    rw [Constraint.holds, h.lit head hc.1, h.sumValue hc.2]
    exact hold
  | prodWeighted head elements weight rel bound =>
    rw [Constraint.holds, h.lit head hc.1, h.prodValue hc.2, h.eval_var]
    exact hold

theorem Agree.sat (h : Agree (· < next) A A') {constraints : List Constraint} (hc : ∀ c ∈ constraints, c.Below next)
    (hold : Sat A constraints) : Sat A' constraints := fun c hmem => h.constraint (hc c hmem) (hold c hmem)

end Agreement

-- the literal is constrained to have a value, and the numbers that are used for it exclude nothing else
structure Defines (next next' : ℕ) (constraints : List Constraint) (tseitin : Lit) (F : Assignment → Bool) : Prop where
  le : next ≤ next'
  below : ∀ c ∈ constraints, c.Below next'
  complete : ∀ A, tseitin.holds A = F A → ∃ A', Agree (· < next) A A' ∧ Sat A' constraints
  sound : ∀ A, Sat A constraints → tseitin.holds A = F A

section Lists

variable {A : Assignment} {elements : List Element} {comp : EqType} {rhsvarid : Var} {universal : Bool} {next : ℕ}

-- what the literal for an element stands for
def conditional (comp : EqType) (rhsvarid : Var) (universal : Bool) (A : Assignment) (e : Element) : Bool :=
  if universal then ! e.condition.holds A || comp.rel (A.var e.varid) (rhsvarid.eval A)
  else e.condition.holds A && comp.rel (A.var e.varid) (rhsvarid.eval A)

def quantified (comp : EqType) (rhsvarid : Var) (universal : Bool) (elements : List Element) (A : Assignment) : Bool :=
  if universal then elements.all (conditional comp rhsvarid true A)
  else elements.any (conditional comp rhsvarid false A)

theorem list_cons (e : Element) : getConditionalComparisonList comp rhsvarid universal (e :: elements) next =
    (.atom true next :: (getConditionalComparisonList comp rhsvarid universal elements (next + 2)).1,
      .binaryRelVar (.atom true (next + 1)) (.varid e.varid) comp rhsvarid ::
      (if universal then .equivalence (.atom true next) [e.condition.neg, .atom true (next + 1)] false
        else .equivalence (.atom true next) [e.condition, .atom true (next + 1)] true) ::
      (getConditionalComparisonList comp rhsvarid universal elements (next + 2)).2.1,
      (getConditionalComparisonList comp rhsvarid universal elements (next + 2)).2.2) := rfl

theorem list_next : next ≤ (getConditionalComparisonList comp rhsvarid universal elements next).2.2 := by
  induction elements generalizing next with
  | nil => exact le_refl _
  | cons e elements ih => exact (Nat.le_add_right next 2).trans ih

theorem element_below {e : Element} (he : e.condition.Below next) : (if universal
    then Constraint.equivalence (.atom true next) [e.condition.neg, .atom true (next + 1)] false
    else .equivalence (.atom true next) [e.condition, .atom true (next + 1)] true).Below (next + 2) := by
  have hcond : e.condition.Below (next + 2) := he.mono (Nat.le_add_right _ _)
  have hneg : e.condition.neg.Below (next + 2) := Lit.below_neg.2 hcond
  split_ifs <;> simp [Constraint.Below, hcond, hneg]

theorem Constraint.Below.mono {c : Constraint} {next' : ℕ} (h : c.Below next) (hle : next ≤ next') : c.Below next' := by
  cases c with
  | binaryRelVar head left rel right => exact Lit.Below.mono h hle
  | equivalence head body conj => exact ⟨h.1.mono hle, fun l hl => (h.2 l hl).mono hle⟩
  | sumWeighted head elements rel bound => exact ⟨h.1.trans_le hle, fun e he => (h.2 e he).mono hle⟩
  | prodWeighted head elements weight rel bound => exact ⟨h.1.trans_le hle, fun e he => (h.2 e he).mono hle⟩

theorem list_below (he : ∀ e ∈ elements, e.condition.Below next) :
    (∀ c ∈ (getConditionalComparisonList comp rhsvarid universal elements next).2.1,
      c.Below (getConditionalComparisonList comp rhsvarid universal elements next).2.2) ∧
    ∀ l ∈ (getConditionalComparisonList comp rhsvarid universal elements next).1,
      l.Below (getConditionalComparisonList comp rhsvarid universal elements next).2.2 := by
  induction elements generalizing next with
  | nil => exact ⟨nofun, nofun⟩
  | cons e elements ih =>
    rw [List.forall_mem_cons] at he
    obtain ⟨hconstraints, hlits⟩ := ih fun e hmem => (he.2 e hmem).mono (Nat.le_add_right next 2)
    have hnext : next + 2 ≤ _ := @list_next elements comp rhsvarid universal (next + 2)
    rw [list_cons]
    refine ⟨List.forall_mem_cons.2 ⟨?_, List.forall_mem_cons.2 ⟨?_, hconstraints⟩⟩, List.forall_mem_cons.2 ⟨?_, hlits⟩⟩
    · exact Nat.lt_of_lt_of_le (Nat.lt_succ_self (next + 1)) hnext
    · exact (element_below he.1).mono hnext
    · exact Nat.lt_of_lt_of_le (Nat.lt_add_of_pos_right Nat.two_pos) hnext

theorem Agree.conditional {A' : Assignment} {p : ℕ → Prop} (h : Agree p A A') {e : Element}
    (he : e.condition.Within p) :
    conditional comp rhsvarid universal A' e = conditional comp rhsvarid universal A e := by
  unfold ComparisonBodies.conditional
  rw [h.holds he, h.var, h.eval_var]

theorem Agree.quantified {A' : Assignment} {p : ℕ → Prop} (h : Agree p A A')
    (he : ∀ e ∈ elements, e.condition.Within p) :
    quantified comp rhsvarid universal elements A' = quantified comp rhsvarid universal elements A := by
  have hmap : ∀ universal', elements.map (ComparisonBodies.conditional comp rhsvarid universal' A') =
      elements.map (ComparisonBodies.conditional comp rhsvarid universal' A) :=
    fun universal' => List.map_congr_left fun e hmem => h.conditional (he e hmem)
  have hall : elements.all (ComparisonBodies.conditional comp rhsvarid true A') =
      elements.all (ComparisonBodies.conditional comp rhsvarid true A) := by
    simpa [List.all_map] using congrArg (fun l : List Bool => l.all id) (hmap true)
  have hany : elements.any (ComparisonBodies.conditional comp rhsvarid false A') =
      elements.any (ComparisonBodies.conditional comp rhsvarid false A) := by
    simpa [List.any_map] using congrArg (fun l : List Bool => l.any id) (hmap false)
  rw [ComparisonBodies.quantified, ComparisonBodies.quantified, hall, hany]

theorem element_holds {e : Element}
    (hcomp : (Constraint.binaryRelVar (.atom true (next + 1)) (.varid e.varid) comp rhsvarid).holds A) :
    (if universal then Constraint.equivalence (.atom true next) [e.condition.neg, .atom true (next + 1)] false
      else .equivalence (.atom true next) [e.condition, .atom true (next + 1)] true).holds A ↔
    (Lit.atom true next).holds A = conditional comp rhsvarid universal A e := by
  have hcomp : (Lit.atom true (next + 1)).holds A = comp.rel (A.var e.varid) (rhsvarid.eval A) := hcomp
  cases universal <;> simp [Constraint.holds, conditional, hcomp]

theorem list_sound (hsat : Sat A (getConditionalComparisonList comp rhsvarid universal elements next).2.1) :
    (getConditionalComparisonList comp rhsvarid universal elements next).1.map (Lit.holds A) =
      elements.map (conditional comp rhsvarid universal A) := by
  induction elements generalizing next with
  | nil => rfl
  | cons e elements ih =>
    rw [list_cons] at hsat ⊢
    obtain ⟨hcomp, helement, hrest⟩ : _ ∧ _ ∧ Sat A _ := by
      simpa only [Sat, List.forall_mem_cons] using hsat
    rw [List.map_cons, List.map_cons, ih hrest, (element_holds hcomp).1 helement]

-- the two numbers of an element get their values
def Assignment.set (A : Assignment) (n : ℕ) (v w : Bool) : Assignment :=
  { A with lit := fun m => if m = n then v else if m = n + 1 then w else A.lit m }

theorem agree_set (A : Assignment) (v w : Bool) : Agree (· < next) A (A.set next v w) := by
  refine ⟨rfl, fun m hm => ?_⟩
  have hne : m ≠ next := Nat.ne_of_lt hm
  have hne' : m ≠ next + 1 := Nat.ne_of_lt (hm.trans (Nat.lt_succ_self next))
  simp [Assignment.set, hne, hne']

theorem list_complete (he : ∀ e ∈ elements, e.condition.Below next) (A : Assignment) :
    ∃ A', Agree (· < next) A A' ∧ Sat A' (getConditionalComparisonList comp rhsvarid universal elements next).2.1 := by
  induction elements generalizing next A with
  | nil => exact ⟨A, .refl A, nofun⟩
  | cons e elements ih =>
    rw [List.forall_mem_cons] at he
    -- the comparison's number and the condition's number, and then the rest
    let A₁ := A.set next (conditional comp rhsvarid universal A e) (comp.rel (A.var e.varid) (rhsvarid.eval A))
    have hagree : Agree (· < next) A A₁ := agree_set A _ _
    obtain ⟨A', hagree', hsat⟩ := ih (fun e hmem => (he.2 e hmem).mono (Nat.le_add_right next 2)) A₁
    refine ⟨A', hagree.trans (hagree'.mono (Nat.le_add_right next 2)), ?_⟩
    have hcomp : (Constraint.binaryRelVar (.atom true (next + 1)) (.varid e.varid) comp rhsvarid).holds A₁ := by
      rw [Constraint.holds, hagree.eval_var, hagree.eval_var]
      simp [A₁, Assignment.set, Lit.holds, Var.eval]
    have hvalue : (Lit.atom true next).holds A₁ = conditional comp rhsvarid universal A₁ e := by
      rw [hagree.conditional he.1]
      simp [A₁, Assignment.set, Lit.holds]
    have helement := (element_holds hcomp).2 hvalue
    rw [list_cons]
    refine List.forall_mem_cons.2 ⟨?_, List.forall_mem_cons.2 ⟨?_, hsat⟩⟩
    · exact hagree'.constraint (Nat.lt_succ_self (next + 1)) hcomp
    · exact hagree'.constraint (element_below he.1) helement

theorem condlist_defines {tseitin : Lit} (ht : tseitin.Below next) (he : ∀ e ∈ elements, e.condition.Below next) :
    Defines next (condlist elements rhsvarid tseitin comp universal next).2
      (condlist elements rhsvarid tseitin comp universal next).1 tseitin
      (quantified comp rhsvarid universal elements) := by
  obtain ⟨hconstraints, hlits⟩ := @list_below elements comp rhsvarid universal next he
  have hlast : ∀ A, Sat A (getConditionalComparisonList comp rhsvarid universal elements next).2.1 →
      ((Constraint.equivalence tseitin (getConditionalComparisonList comp rhsvarid universal elements next).1
        universal).holds A ↔ tseitin.holds A = quantified comp rhsvarid universal elements A) := by
    intro A hsat
    have hmap := list_sound hsat
    have hall := congrArg (fun l : List Bool => l.all id) hmap
    have hany := congrArg (fun l : List Bool => l.any id) hmap
    simp only [List.all_map, List.any_map, Function.id_comp] at hall hany
    rw [Constraint.holds, hall, hany, quantified]
    cases universal <;> rfl
  refine ⟨list_next, ?_, fun A hA => ?_, fun A hsat => ?_⟩
  · refine List.forall_mem_append.2 ⟨hconstraints, List.forall_mem_singleton.2 ⟨?_, hlits⟩⟩
    exact ht.mono list_next
  · obtain ⟨A', hagree, hsat⟩ := @list_complete elements comp rhsvarid universal next he A
    refine ⟨A', hagree, List.forall_mem_append.2 ⟨hsat, List.forall_mem_singleton.2 ((hlast A' hsat).2 ?_)⟩⟩
    rw [hagree.holds ht, hA, hagree.quantified he]
  · obtain ⟨hsat, hhead⟩ := List.forall_mem_append.1 hsat
    exact (hlast A hsat).1 (List.forall_mem_singleton.1 hhead)

theorem twolists_defines {tseitin : Lit} (ht : tseitin.Below next) (he : ∀ e ∈ elements, e.condition.Below next)
    (comp1 comp2 : EqType) (conj1 conj2 conj : Bool) :
    Defines next (twolists elements rhsvarid tseitin comp1 conj1 comp2 conj2 conj next).2
      (twolists elements rhsvarid tseitin comp1 conj1 comp2 conj2 conj next).1 tseitin
      fun A => if conj then quantified comp1 rhsvarid conj1 elements A && quantified comp2 rhsvarid conj2 elements A
        else quantified comp1 rhsvarid conj1 elements A || quantified comp2 rhsvarid conj2 elements A := by
  have hle : next ≤ next + 2 := Nat.le_add_right _ _
  have he₁ : ∀ e ∈ elements, e.condition.Below (next + 2) := fun e hmem => (he e hmem).mono hle
  have h₁ := @condlist_defines elements comp1 rhsvarid conj1 (next + 2) (.atom true next)
    (Nat.lt_add_of_pos_right Nat.two_pos) he₁
  have hts2 : (Lit.atom true (next + 1)).Below (next + 2) := Nat.lt_succ_self (next + 1)
  have h₂ := @condlist_defines elements comp2 rhsvarid conj2 _ (.atom true (next + 1)) (hts2.mono h₁.le)
    fun e hmem => (he₁ e hmem).mono h₁.le
  have hlast : ∀ A : Assignment, (Lit.atom true next).holds A = quantified comp1 rhsvarid conj1 elements A →
      (Lit.atom true (next + 1)).holds A = quantified comp2 rhsvarid conj2 elements A →
      ((Constraint.equivalence tseitin [.atom true next, .atom true (next + 1)] conj).holds A ↔ tseitin.holds A =
        if conj then quantified comp1 rhsvarid conj1 elements A && quantified comp2 rhsvarid conj2 elements A
        else quantified comp1 rhsvarid conj1 elements A || quantified comp2 rhsvarid conj2 elements A) := by
    intro A hA₁ hA₂
    rw [Constraint.holds]
    simp [hA₁, hA₂]
  refine ⟨hle.trans (h₁.le.trans h₂.le), ?_, fun A hA => ?_, fun A hsat => ?_⟩
  · refine List.forall_mem_append.2 ⟨List.forall_mem_append.2 ⟨fun c hc => (h₁.below c hc).mono h₂.le, h₂.below⟩, ?_⟩
    refine List.forall_mem_singleton.2 ⟨ht.mono (hle.trans (h₁.le.trans h₂.le)), ?_⟩
    have hts1 : (Lit.atom true next).Below (next + 2) := Nat.lt_add_of_pos_right Nat.two_pos
    simpa using ⟨hts1.mono (h₁.le.trans h₂.le), hts2.mono (h₁.le.trans h₂.le)⟩
  · -- first the two literals, and then the numbers of the one list and of the other
    let A₁ := A.set next (quantified comp1 rhsvarid conj1 elements A) (quantified comp2 rhsvarid conj2 elements A)
    have hagree₁ : Agree (· < next) A A₁ := agree_set A _ _
    have hfirst : (Lit.atom true next).holds A₁ = quantified comp1 rhsvarid conj1 elements A := by
      simp [A₁, Assignment.set, Lit.holds]
    have hsecond : (Lit.atom true (next + 1)).holds A₁ = quantified comp2 rhsvarid conj2 elements A := by
      simp [A₁, Assignment.set, Lit.holds]
    obtain ⟨A₂, hagree₂, hsat₁⟩ := h₁.complete A₁ (hfirst.trans (hagree₁.quantified he).symm)
    have hagree₂' := hagree₁.trans (hagree₂.mono hle)
    obtain ⟨A₃, hagree₃, hsat₂⟩ := h₂.complete A₂
      ((hagree₂.holds hts2).trans (hsecond.trans (hagree₂'.quantified he).symm))
    have hagree : Agree (· < next) A A₃ := hagree₂'.trans (hagree₃.mono (hle.trans h₁.le))
    have hsat₁' : Sat A₃ _ := hagree₃.sat h₁.below hsat₁
    refine ⟨A₃, hagree, List.forall_mem_append.2 ⟨List.forall_mem_append.2 ⟨hsat₁', hsat₂⟩, ?_⟩⟩
    refine List.forall_mem_singleton.2 ((hlast A₃ (h₁.sound A₃ hsat₁') (h₂.sound A₃ hsat₂)).2 ?_)
    rw [hagree.holds ht, hA, hagree.quantified he, hagree.quantified he]
  · obtain ⟨hsat, hhead⟩ := List.forall_mem_append.1 hsat
    obtain ⟨hsat₁, hsat₂⟩ := List.forall_mem_append.1 hsat
    exact (hlast A (h₁.sound A hsat₁) (h₂.sound A hsat₂)).1 (List.forall_mem_singleton.1 hhead)

end Lists

section Tables

variable {L : List ℤ} {r : ℤ}

-- the right side is a value of an element, and the others are all smaller or all larger
def Mixed (L : List ℤ) (r : ℤ) : Prop :=
  r ∈ L ∧ (∃ x ∈ L, x ≠ r) ∧ ((∀ x ∈ L, x ≤ r) ∨ ∀ x ∈ L, r ≤ x)

theorem mixed_iff : Mixed L r ↔
    r ∈ L ∧ (((∃ x ∈ L, x < r) ∧ ¬ ∃ x ∈ L, r < x) ∨ ((∃ x ∈ L, r < x) ∧ ¬ ∃ x ∈ L, x < r)) := by
  have hne : (∃ x ∈ L, x ≠ r) ↔ (∃ x ∈ L, x < r) ∨ ∃ x ∈ L, r < x := by
    simp only [ne_iff_lt_or_gt, and_or_left, exists_or]
  have hle : (∀ x ∈ L, x ≤ r) ↔ ¬ ∃ x ∈ L, r < x := by simp
  have hge : (∀ x ∈ L, r ≤ x) ↔ ¬ ∃ x ∈ L, x < r := by simp
  rw [Mixed, hne, hle, hge]
  refine and_congr_right fun _ => ?_
  generalize (∃ x ∈ L, x < r) = low, (∃ x ∈ L, r < x) = high
  by_cases hlow : low <;> by_cases hhigh : high <;> simp [hlow, hhigh]

theorem forall_lt_iff : (∀ x ∈ L, x < r) ↔ r ∉ L ∧ ¬ ∃ x ∈ L, r < x := by
  constructor
  · intro h
    exact ⟨fun hr => lt_irrefl r (h r hr), fun ⟨x, hx, hlt⟩ => lt_asymm hlt (h x hx)⟩
  · rintro ⟨hr, hno⟩ x hx
    exact lt_of_le_of_ne (not_lt.1 fun hlt => hno ⟨x, hx, hlt⟩) fun heq => hr (heq ▸ hx)

theorem forall_gt_iff : (∀ x ∈ L, r < x) ↔ r ∉ L ∧ ¬ ∃ x ∈ L, x < r := by
  constructor
  · intro h
    exact ⟨fun hr => lt_irrefl r (h r hr), fun ⟨x, hx, hlt⟩ => lt_asymm hlt (h x hx)⟩
  · rintro ⟨hr, hno⟩ x hx
    exact lt_of_le_of_ne (not_lt.1 fun hlt => hno ⟨x, hx, hlt⟩) fun heq => hr (heq ▸ hx)

-- the table for a minimum, over the values that are in the set
def minTable (L : List ℤ) (r : ℤ) : CompType → Prop
  | .eq => (∀ x ∈ L, r ≤ x) ∧ ∃ x ∈ L, x ≤ r
  | .neq => (∃ x ∈ L, r < x) ∨ ∀ x ∈ L, x < r
  | .leq => ∃ x ∈ L, x ≤ r
  | .geq => ∀ x ∈ L, r ≤ x
  | .lt => ∃ x ∈ L, x < r
  | .gt => ∀ x ∈ L, r < x

def maxTable (L : List ℤ) (r : ℤ) : CompType → Prop
  | .eq => (∀ x ∈ L, x ≤ r) ∧ ∃ x ∈ L, r ≤ x
  | .neq => (∃ x ∈ L, x < r) ∨ ∀ x ∈ L, r < x
  | .leq => ∀ x ∈ L, x ≤ r
  | .geq => ∃ x ∈ L, r ≤ x
  | .lt => ∀ x ∈ L, x < r
  | .gt => ∃ x ∈ L, r < x

theorem le_minimum_iff : (r : WithTop ℤ) ≤ L.minimum ↔ ∀ x ∈ L, r ≤ x := by
  constructor
  · intro h x hx
    exact WithTop.coe_le_coe.1 (h.trans (List.minimum_le_of_mem' hx))
  · exact fun h => List.le_minimum_of_forall_le fun x hx => WithTop.coe_le_coe.2 (h x hx)

theorem maximum_le_iff : L.maximum ≤ (r : WithBot ℤ) ↔ ∀ x ∈ L, x ≤ r := by
  constructor
  · intro h x hx
    exact WithBot.coe_le_coe.1 ((List.le_maximum_of_mem' hx).trans h)
  · exact fun h => List.maximum_le_of_forall_le fun x hx => WithBot.coe_le_coe.2 (h x hx)

theorem minimum_le_iff : L.minimum ≤ (r : WithTop ℤ) ↔ ∃ x ∈ L, x ≤ r := List.minimum_le_coe_iff

theorem le_maximum_iff : (r : WithBot ℤ) ≤ L.maximum ↔ ∃ x ∈ L, r ≤ x := List.coe_le_maximum_iff

theorem rows_differ {p low high : Prop} :
    (high ∨ ¬ p ∧ ¬ high ↔ ¬ (p ∧ ¬ low)) ↔ ¬ (p ∧ (low ∧ ¬ high ∨ high ∧ ¬ low)) := by
  by_cases hp : p <;> by_cases hlow : low <;> by_cases hhigh : high <;> simp [hp, hlow, hhigh]

theorem minTable_iff (comp : CompType) :
    (minTable L r comp ↔ compare comp L.minimum (r : WithTop ℤ)) ↔ (comp = .neq → ¬ Mixed L r) := by
  cases comp with
  | eq =>
    refine iff_of_true ?_ nofun
    rw [minTable, compare, ← le_minimum_iff, ← minimum_le_iff, and_comm, le_antisymm_iff]
  | neq =>
    have hC : L.minimum = (r : WithTop ℤ) ↔ r ∈ L ∧ ¬ ∃ x ∈ L, x < r := by
      rw [List.minimum_eq_coe_iff]
      simp
    rw [minTable, compare, Ne, hC, mixed_iff, forall_lt_iff, rows_differ]
    exact ⟨fun h _ => h, fun h => h rfl⟩
  | leq => exact iff_of_true minimum_le_iff.symm nofun
  | geq => exact iff_of_true le_minimum_iff.symm nofun
  | lt =>
    refine iff_of_true ?_ nofun
    rw [minTable, compare, ← not_le, le_minimum_iff]
    simp
  | gt =>
    refine iff_of_true ?_ nofun
    rw [minTable, compare, ← not_le, minimum_le_iff]
    simp

theorem maxTable_iff (comp : CompType) :
    (maxTable L r comp ↔ compare comp L.maximum (r : WithBot ℤ)) ↔ (comp = .neq → ¬ Mixed L r) := by
  cases comp with
  | eq =>
    refine iff_of_true ?_ nofun
    rw [maxTable, compare, ← maximum_le_iff, ← le_maximum_iff, le_antisymm_iff]
  | neq =>
    have hC : L.maximum = (r : WithBot ℤ) ↔ r ∈ L ∧ ¬ ∃ x ∈ L, r < x := by
      rw [List.maximum_eq_coe_iff]
      simp
    rw [maxTable, compare, Ne, hC, mixed_iff, forall_gt_iff, rows_differ, or_comm (a := _ ∧ ¬ ∃ x ∈ L, x < r)]
    exact ⟨fun h _ => h, fun h => h rfl⟩
  | leq => exact iff_of_true maximum_le_iff.symm nofun
  | geq => exact iff_of_true le_maximum_iff.symm nofun
  | lt =>
    refine iff_of_true ?_ nofun
    rw [maxTable, compare, ← not_le, le_maximum_iff]
    simp
  | gt =>
    refine iff_of_true ?_ nofun
    rw [maxTable, compare, ← not_le, maximum_le_iff]
    simp

end Tables

section Bodies

variable {A A' : Assignment} {next : ℕ} {p : ℕ → Prop} {elements : List Element}

def CPSetTerm.conditions : CPSetTerm → List Lit
  | sum elements => elements.map SumElement.condition
  | prod elements _ => elements.map Element.condition
  | min elements => elements.map Element.condition
  | max elements => elements.map Element.condition

theorem eval_rhsvarid (b : CPBound) : b.rhsvarid.eval A = b.eval A := by
  cases b <;> rfl

theorem rel_eqType (comp : CompType) (a b : ℤ) : (eqType comp).rel a b = true ↔ compare comp a b := by
  cases comp <;> simp [eqType, EqType.rel, compare]

theorem quantified_iff {comp : EqType} {rhsvarid : Var} {universal : Bool} :
    quantified comp rhsvarid universal elements A = true ↔
      if universal then ∀ x ∈ values A elements, comp.rel x (rhsvarid.eval A) = true
      else ∃ x ∈ values A elements, comp.rel x (rhsvarid.eval A) = true := by
  cases universal with
  | true =>
    simp only [quantified, conditional, values, if_true, List.all_eq_true, List.mem_map, List.mem_filter]
    constructor
    · rintro h x ⟨e, ⟨he, hcond⟩, rfl⟩
      simpa [hcond] using h e he
    · intro h e he
      cases hcond : e.condition.holds A with
      | false => rfl
      | true => simpa using h _ ⟨e, ⟨he, hcond⟩, rfl⟩
  | false =>
    simp only [quantified, conditional, values, Bool.false_eq_true, if_false, List.any_eq_true, List.mem_map,
      List.mem_filter]
    constructor
    · rintro ⟨e, he, h⟩
      rw [Bool.and_eq_true] at h
      exact ⟨_, ⟨e, ⟨he, h.1⟩, rfl⟩, h.2⟩
    · rintro ⟨x, ⟨e, ⟨he, hcond⟩, rfl⟩, h⟩
      exact ⟨e, he, by rw [hcond, h]; rfl⟩

-- what the constraints for a body make the literal mean
structure Forced (next : ℕ) (tseitin : Lit) (conditions : List Lit) (out : List Constraint × ℕ)
    (F : Assignment → Bool) : Prop where
  defines : Defines next out.2 out.1 tseitin F
  within : ∀ p, (∀ l ∈ conditions, l.Within p) → ∀ A A', Agree p A A' → F A' = F A

theorem Forced.condlist {tseitin : Lit} (ht : tseitin.Below next)
    (he : ∀ l ∈ elements.map Element.condition, l.Below next) (comp : EqType) (rhsvarid : Var) (conj : Bool) :
    Forced next tseitin (elements.map Element.condition) (condlist elements rhsvarid tseitin comp conj next)
      (quantified comp rhsvarid conj elements) where
  defines := condlist_defines ht (List.forall_mem_map.1 he)
  within _ hp _ _ h := h.quantified (List.forall_mem_map.1 hp)

theorem Forced.twolists {tseitin : Lit} (ht : tseitin.Below next)
    (he : ∀ l ∈ elements.map Element.condition, l.Below next) (comp1 comp2 : EqType) (rhsvarid : Var)
    (conj1 conj2 conj : Bool) : Forced next tseitin (elements.map Element.condition)
      (twolists elements rhsvarid tseitin comp1 conj1 comp2 conj2 conj next)
      (fun A => if conj then quantified comp1 rhsvarid conj1 elements A && quantified comp2 rhsvarid conj2 elements A
        else quantified comp1 rhsvarid conj1 elements A || quantified comp2 rhsvarid conj2 elements A) where
  defines := twolists_defines ht (List.forall_mem_map.1 he) comp1 comp2 conj1 conj2 conj
  within _ hp _ _ h := by rw [h.quantified (List.forall_mem_map.1 hp), h.quantified (List.forall_mem_map.1 hp)]

theorem addMin_forced {tseitin : Lit} (ht : tseitin.Below next)
    (he : ∀ l ∈ elements.map Element.condition, l.Below next) (comp : CompType) (rhsvarid : Var) :
    ∃ F, Forced next tseitin (elements.map Element.condition) (addMin tseitin elements comp rhsvarid next) F ∧
      ∀ A, F A = true ↔ minTable (values A elements) (rhsvarid.eval A) comp := by
  cases comp with
  | eq => exact ⟨_, .twolists ht he .geq .leq rhsvarid true false true, fun A => by
      simp [quantified_iff, minTable, EqType.rel]⟩
  | neq => exact ⟨_, .twolists ht he .g .l rhsvarid false true false, fun A => by
      simp [quantified_iff, minTable, EqType.rel]⟩
  | leq => exact ⟨_, .condlist ht he .leq rhsvarid false, fun A => by simp [quantified_iff, minTable, EqType.rel]⟩
  | geq => exact ⟨_, .condlist ht he .geq rhsvarid true, fun A => by simp [quantified_iff, minTable, EqType.rel]⟩
  | lt => exact ⟨_, .condlist ht he .l rhsvarid false, fun A => by simp [quantified_iff, minTable, EqType.rel]⟩
  | gt => exact ⟨_, .condlist ht he .g rhsvarid true, fun A => by simp [quantified_iff, minTable, EqType.rel]⟩

theorem addMax_forced {tseitin : Lit} (ht : tseitin.Below next)
    (he : ∀ l ∈ elements.map Element.condition, l.Below next) (comp : CompType) (rhsvarid : Var) :
    ∃ F, Forced next tseitin (elements.map Element.condition) (addMax tseitin elements comp rhsvarid next) F ∧
      ∀ A, F A = true ↔ maxTable (values A elements) (rhsvarid.eval A) comp := by
  cases comp with
  | eq => exact ⟨_, .twolists ht he .leq .geq rhsvarid true false true, fun A => by
      simp [quantified_iff, maxTable, EqType.rel]⟩
  | neq => exact ⟨_, .twolists ht he .l .g rhsvarid false true false, fun A => by
      simp [quantified_iff, maxTable, EqType.rel]⟩
  | leq => exact ⟨_, .condlist ht he .leq rhsvarid true, fun A => by simp [quantified_iff, maxTable, EqType.rel]⟩
  | geq => exact ⟨_, .condlist ht he .geq rhsvarid false, fun A => by simp [quantified_iff, maxTable, EqType.rel]⟩
  | lt => exact ⟨_, .condlist ht he .l rhsvarid true, fun A => by simp [quantified_iff, maxTable, EqType.rel]⟩
  | gt => exact ⟨_, .condlist ht he .g rhsvarid false, fun A => by simp [quantified_iff, maxTable, EqType.rel]⟩

theorem beq_beq_iff {a b positive : Bool} : (a == positive) = (b == positive) ↔ a = b := by
  cases a <;> cases b <;> cases positive <;> decide

theorem Forced.atom {positive : Bool} {tseitin : ℕ} {conditions : List Lit} {c : Constraint}
    {F : Assignment → Bool} (hbelow : c.Below next) (hc : ∀ A, c.holds A ↔ A.lit tseitin = F A)
    (hF : ∀ p, (∀ l ∈ conditions, l.Within p) → ∀ A A', Agree p A A' → F A' = F A) :
    Forced next (.atom positive tseitin) conditions ([c], next) fun A => F A == positive where
  defines := by
    refine ⟨le_refl _, List.forall_mem_singleton.2 hbelow, fun A hA => ?_, fun A hsat => ?_⟩
    · exact ⟨A, .refl A, List.forall_mem_singleton.2 ((hc A).2 (beq_beq_iff.1 hA))⟩
    · exact beq_beq_iff.2 ((hc A).1 (List.forall_mem_singleton.1 hsat))
  within p hp A A' h := by rw [hF p hp A A' h]

theorem sumValue_append (elements : List SumElement) (v : Var) :
    sumValue A (elements ++ [⟨.truth true, v, -1⟩]) = sumValue A elements - v.eval A := by
  simp [sumValue, Lit.holds, Int.sub_eq_add_neg]

theorem rel_sub (rel : EqType) (a b : ℤ) : rel.rel (a - b) 0 = rel.rel a b := by
  cases rel <;> simp only [EqType.rel, decide_eq_decide] <;> omega

-- when the literal means what the body says
def Faithful (positive : Bool) (body : CPTsBody) (A : Assignment) : Prop :=
  match body.left with
  | .sum _ | .prod _ _ => positive = true
  | .min elements | .max elements => body.comp = .neq → ¬ Mixed (values A elements) (body.right.eval A)

theorem beq_positive_iff {F positive : Bool} {C : Prop} (h : F = true ↔ C) :
    ((F == positive) = true ↔ C) ↔ positive = true := by
  rw [← h]
  cases F <;> cases positive <;> decide

theorem sum_forced {positive : Bool} {tseitin : ℕ} (ht : tseitin < next) {elements : List SumElement} (rel : EqType)
    (right : CPBound) (he : ∀ l ∈ elements.map SumElement.condition, l.Below next) :
    Forced next (.atom positive tseitin) (elements.map SumElement.condition)
      (match right with
        | .varid n => ([.sumWeighted tseitin (elements ++ [⟨.truth true, .varid n, -1⟩]) rel 0], next)
        | .bound value => ([.sumWeighted tseitin elements rel value], next))
      (fun A => rel.rel (sumValue A elements) (right.eval A) == positive) := by
  have hwithin : ∀ p, (∀ l ∈ elements.map SumElement.condition, l.Within p) → ∀ A A', Agree p A A' →
      rel.rel (sumValue A' elements) (right.eval A') = rel.rel (sumValue A elements) (right.eval A) := by
    intro p hp A A' h
    rw [h.sumValue (List.forall_mem_map.1 hp), h.eval_bound]
  cases right with
  | varid n =>
    refine .atom ⟨ht, List.forall_mem_append.2 ⟨List.forall_mem_map.1 he, ?_⟩⟩ (fun A => ?_) hwithin
    · exact List.forall_mem_singleton.2 trivial
    · rw [Constraint.holds, sumValue_append, rel_sub]
      rfl
  | bound value => exact .atom ⟨ht, List.forall_mem_map.1 he⟩ (fun A => Iff.rfl) hwithin

theorem add_forced {positive : Bool} {tseitin : ℕ} (ht : tseitin < next) (body : CPTsBody)
    (he : ∀ l ∈ body.left.conditions, l.Below next) :
    ∃ F, Forced next (.atom positive tseitin) body.left.conditions (add positive tseitin body next) F ∧
      ∀ A, (F A = true ↔ body.comparison A) ↔ Faithful positive body A := by
  obtain ⟨type, left, comp, right, hrule⟩ := body
  cases left with
  | sum elements =>
    exact ⟨_, sum_forced ht (eqType comp) right he, fun A => beq_positive_iff (rel_eqType comp _ _)⟩
  | prod elements weight =>
    refine ⟨fun A => (eqType comp).rel (weight * prodValue A elements) (right.eval A) == positive, ?_,
      fun A => beq_positive_iff (rel_eqType comp _ _)⟩
    refine .atom ⟨ht, List.forall_mem_map.1 he⟩ (fun A => ?_) fun p hp A A' h => ?_
    · rw [Constraint.holds, eval_rhsvarid]
    · rw [h.prodValue (List.forall_mem_map.1 hp), h.eval_bound]
  | min elements =>
    obtain ⟨F, hF, htable⟩ := @addMin_forced next elements (.atom positive tseitin) ht he comp right.rhsvarid
    refine ⟨F, hF, fun A => ?_⟩
    rw [htable, eval_rhsvarid]
    exact minTable_iff comp
  | max elements =>
    obtain ⟨F, hF, htable⟩ := @addMax_forced next elements (.atom positive tseitin) ht he comp right.rhsvarid
    refine ⟨F, hF, fun A => ?_⟩
    rw [htable, eval_rhsvarid]
    exact maxTable_iff comp

theorem Agree.comparison {body : CPTsBody} (h : Agree p A A') (hp : ∀ l ∈ body.left.conditions, l.Within p) :
    body.comparison A' ↔ body.comparison A := by
  obtain ⟨type, left, comp, right, hrule⟩ := body
  cases left with
  | sum elements => simp only [CPTsBody.comparison, h.sumValue (List.forall_mem_map.1 hp), h.eval_bound]
  | prod elements weight => simp only [CPTsBody.comparison, h.prodValue (List.forall_mem_map.1 hp), h.eval_bound]
  | min elements => simp only [CPTsBody.comparison, h.values (List.forall_mem_map.1 hp), h.eval_bound]
  | max elements => simp only [CPTsBody.comparison, h.values (List.forall_mem_map.1 hp), h.eval_bound]

end Bodies

-- the variables have values in their domains
def InDomains (domain : ℕ → Set ℤ) (A : Assignment) : Prop := ∀ v, A.var v ∈ domain v

section Comparisons

variable {domain : ℕ → Set ℤ} {positive : Bool} {tseitin next : ℕ} {body : CPTsBody}

-- the constraints can be satisfied for just the assignments that the type of the body asks for
def Meets (domain : ℕ → Set ℤ) (positive : Bool) (tseitin : ℕ) (body : CPTsBody) (next : ℕ) : Prop :=
  ∀ A, InDomains domain A →
    ((∃ A', Agree (· < next) A A' ∧ Sat A' (add positive tseitin body next).1) ↔
      body.type.relates ((Lit.atom positive tseitin).holds A = true) (body.comparison A))

-- the constraints make an equivalence
def Fits (positive : Bool) (body : CPTsBody) (A : Assignment) : Prop :=
  Faithful positive body A ∧ (body.type = .impl → ¬ body.comparison A) ∧ (body.type = .rimpl → body.comparison A)

theorem sat_iff {F : Assignment → Bool} {out : List Constraint × ℕ} {t : Lit} {conditions : List Lit}
    (h : Forced next t conditions out F) (ht : t.Below next) (he : ∀ l ∈ conditions, l.Below next) (A : Assignment) :
    (∃ A', Agree (· < next) A A' ∧ Sat A' out.1) ↔ t.holds A = F A := by
  constructor
  · rintro ⟨A', hagree, hsat⟩
    rw [← hagree.holds ht, h.defines.sound A' hsat, h.within _ he A A' hagree]
  · exact h.defines.complete A

def Assignment.flip (n : ℕ) (A : Assignment) : Assignment :=
  { A with lit := fun m => if m = n then ! A.lit m else A.lit m }

theorem agree_flip (n : ℕ) (A : Assignment) : Agree (· ≠ n) A (A.flip n) :=
  ⟨rfl, fun _ hm => if_neg hm⟩

theorem holds_flip (A : Assignment) :
    (Lit.atom positive tseitin).holds (A.flip tseitin) = ! (Lit.atom positive tseitin).holds A := by
  cases positive <;> cases h : A.lit tseitin <;> simp [Lit.holds, Assignment.flip, h]

theorem fits_of_both {type : TsType} (hrule : type ≠ .rule) {t F : Bool} {C : Prop}
    (h : t = F ↔ type.relates (t = true) C) (h' : (! t) = F ↔ type.relates ((! t) = true) C) :
    (F = true ↔ C) ∧ (type = .impl → ¬ C) ∧ (type = .rimpl → C) := by
  cases type with
  | rule => exact absurd rfl hrule
  | _ => cases t <;> cases F <;> simp_all [TsType.relates]

theorem relates_of_fits {type : TsType} (hrule : type ≠ .rule) {t F : Bool} {C : Prop}
    (h : (F = true ↔ C) ∧ (type = .impl → ¬ C) ∧ (type = .rimpl → C)) : t = F ↔ type.relates (t = true) C := by
  obtain ⟨hF, himpl, hrimpl⟩ := h
  cases type with
  | rule => exact absurd rfl hrule
  | _ => cases t <;> cases F <;> simp_all [TsType.relates]

theorem meets_comparison_iff (ht : tseitin < next) (he : ∀ l ∈ body.left.conditions, l.Below next)
    (hapart : ∀ l ∈ body.left.conditions, l.Within (· ≠ tseitin)) :
    Meets domain positive tseitin body next ↔ ∀ A, InDomains domain A → Fits positive body A := by
  obtain ⟨F, hforced, hfaithful⟩ := @add_forced next positive tseitin ht body he
  have hsat := sat_iff hforced (show (Lit.atom positive tseitin).Below next from ht) he
  simp only [Meets, hsat, Fits, ← hfaithful]
  constructor
  · intro h A hA
    have hflip := agree_flip tseitin A
    refine fits_of_both body.not_rule (h A hA) ?_
    have hother := h (A.flip tseitin) hA
    rwa [holds_flip, hforced.within _ hapart A _ hflip, hflip.comparison hapart] at hother
  · exact fun h A hA => relates_of_fits body.not_rule (h A hA)

end Comparisons

-- the bound is an upper bound or a lower bound
inductive AggSign where
  | ub
  | lb
  deriving DecidableEq

inductive AggSem where
  | comp
  | defn
  | or
  deriving DecidableEq

structure Aggregate where
  head : Lit
  bound : ℤ
  sign : AggSign
  sem : AggSem

def addAggregate (head : Lit) (bound : ℤ) (lowerbound : Bool) (sem : TsType) : Aggregate :=
  let sign := if lowerbound then AggSign.lb else .ub
  match sem with
  | .eq => ⟨head, bound, sign, .comp⟩
  | .impl => ⟨head.neg, bound, sign, .or⟩
  | .rimpl => if sign = .lb then ⟨head, bound - 1, .ub, .or⟩ else ⟨head, bound + 1, .lb, .or⟩
  | .rule => ⟨head, bound, sign, .defn⟩

section Aggregates

-- the value of the aggregate, which for an empty set may be infinite
abbrev Value := WithBot (WithTop ℤ)

def bounded (lower : Bool) (bound : ℤ) (value : Value) : Prop :=
  if lower then ((bound : WithTop ℤ) : Value) ≤ value else value ≤ ((bound : WithTop ℤ) : Value)

def Aggregate.satisfied (c : Aggregate) (value : Value) : Prop := bounded (c.sign = .lb) c.bound value

-- an aggregate of a definition is one of its rules
def Aggregate.holds (c : Aggregate) (A : Assignment) (value : Value) : Prop :=
  match c.sem with
  | .comp => c.head.holds A = true ↔ c.satisfied value
  | .or => c.head.holds A = true ∨ c.satisfied value
  | .defn => True

structure MeetsAggregate (head : Lit) (bound : ℤ) (lower : Bool) (sem : TsType) : Prop where
  relates : ∀ A value, (addAggregate head bound lower sem).holds A value ↔
    sem.relates (head.holds A = true) (bounded lower bound value)
  rule : sem = .rule → (addAggregate head bound lower sem).sem = .defn ∧
    (addAggregate head bound lower sem).head = head ∧
    ∀ value, (addAggregate head bound lower sem).satisfied value ↔ bounded lower bound value

theorem bounded_complement (lower : Bool) (bound : ℤ) (value : Value) :
    bounded (! lower) (if lower then bound - 1 else bound + 1) value ↔ ¬ bounded lower bound value := by
  induction value using WithBot.recBotCoe with
  | bot => cases lower <;> simp [bounded]
  | coe value =>
    induction value using WithTop.recTopCoe with
    | top => cases lower <;> simp [bounded]
    | coe n =>
      have hle : ∀ a b : ℤ, ((a : WithTop ℤ) : Value) ≤ ((b : WithTop ℤ) : Value) ↔ a ≤ b :=
        fun a b => WithBot.coe_le_coe.trans WithTop.coe_le_coe
      cases lower with
      | false =>
        simp only [bounded, Bool.not_false, if_true, Bool.false_eq_true, if_false, hle]
        omega
      | true =>
        simp only [bounded, Bool.not_true, if_true, Bool.false_eq_true, if_false, hle]
        omega

theorem satisfied_eq (head : Lit) (bound : ℤ) (lower : Bool) (sem : AggSem) (value : Value) :
    (⟨head, bound, if lower then .lb else .ub, sem⟩ : Aggregate).satisfied value ↔ bounded lower bound value := by
  cases lower <;> rfl

theorem meetsAggregate (head : Lit) (bound : ℤ) (lower : Bool) (sem : TsType) :
    MeetsAggregate head bound lower sem where
  relates A value := by
    cases sem with
    | eq => exact iff_congr Iff.rfl (satisfied_eq head bound lower .comp value)
    | impl =>
      refine (or_congr_right (satisfied_eq head.neg bound lower .or value)).trans ?_
      change head.neg.holds A = true ∨ bounded lower bound value ↔ (head.holds A = true → bounded lower bound value)
      rw [holds_neg]
      cases head.holds A <;> simp
    | rimpl =>
      have hcomplement := bounded_complement lower bound value
      have hholds : (addAggregate head bound lower .rimpl).holds A value ↔
          head.holds A = true ∨ ¬ bounded lower bound value := by
        rw [← hcomplement]
        cases lower <;> rfl
      rw [hholds, TsType.relates, or_comm, imp_iff_not_or]
    | rule => exact Iff.rfl
  rule h := by
    subst h
    exact ⟨rfl, rfl, satisfied_eq head bound lower .defn⟩

end Aggregates

-- what is added
inductive Request where
  | comparison (positive : Bool) (tseitin : ℕ) (body : CPTsBody)
  | aggregate (head : Lit) (bound : ℤ) (lowerbound : Bool) (sem : TsType)

namespace Request

variable (domain : ℕ → Set ℤ) (next : ℕ)

-- the Tseitin and the conditions are given numbers, and the Tseitin is not one of the conditions
def WellFormed : Request → Prop
  | comparison _ tseitin body => tseitin < next ∧ (∀ l ∈ body.left.conditions, l.Below next) ∧
      ∀ l ∈ body.left.conditions, l.Within (· ≠ tseitin)
  | aggregate _ _ _ _ => True

def Correct : Request → Prop
  | comparison positive tseitin body => Meets domain positive tseitin body next
  | aggregate head bound lowerbound sem => MeetsAggregate head bound lowerbound sem

def Safe : Request → Prop
  | comparison positive _ body => ∀ A, InDomains domain A → Fits positive body A
  | aggregate _ _ _ _ => True

-- the minimum of two variables is not zero
def minNotZero : CPTsBody := ⟨.eq, .min [⟨.truth true, 0⟩, ⟨.truth true, 1⟩], .neq, .bound 0, nofun⟩

end Request

end ComparisonBodies
