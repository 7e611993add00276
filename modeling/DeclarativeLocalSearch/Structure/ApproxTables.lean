import Mathlib.Data.Fintype.Basic

namespace ApproxTables

-- the order on the domain elements; it need not be transitive
class Elements (D : Type) where
  less : D → D → Bool
  not_less_self : ∀ d, less d d = false

structure SortTable (D : Type) where
  contains : D → Bool
  approxEmpty : Bool
  -- the iterator finds no second element
  lessThanTwo : Bool
  not_contains : approxEmpty = true → ∀ d, contains d = false
  subsingleton : lessThanTwo = true → ∀ d e, contains d = true → contains e = true → d = e

variable {D V B Str : Type} {n : ℕ}

abbrev Universe (D : Type) (n : ℕ) := Fin n → SortTable D

namespace Universe

def contains (u : Universe D n) (tuple : Fin n → D) : Bool := decide (∀ i, (u i).contains (tuple i) = true)

def approxEmpty (u : Universe D n) : Bool := decide (∃ i, (u i).approxEmpty = true)

theorem not_contains {u : Universe D n} (h : u.approxEmpty = true) (tuple : Fin n → D) :
    u.contains tuple = false := by
  obtain ⟨i, hi⟩ := of_decide_eq_true h
  exact decide_eq_false fun hall => Bool.false_ne_true (((u i).not_contains hi (tuple i)).symm.trans (hall i))

end Universe

-- when a diagram holds, and what the managers make of diagrams
structure Manager (D V B Str : Type) where
  holds : B → Str → (V → D) → Prop
  truebdd : B
  falsebdd : B
  getBDD : B → B
  substitute : B → (V → V) → B
  negation : B → B
  conjunction : B → B → B
  disjunction : B → B → B
  holds_truebdd : ∀ s a, holds truebdd s a
  not_holds_falsebdd : ∀ s a, ¬holds falsebdd s a
  holds_getBDD : ∀ b s a, holds (getBDD b) s a ↔ holds b s a
  holds_substitute : ∀ b r s a, holds (substitute b r) s a ↔ holds b s (a ∘ r)
  holds_negation : ∀ b s a, holds (negation b) s a ↔ ¬holds b s a
  holds_conjunction : ∀ b b' s a, holds (conjunction b b') s a ↔ holds b s a ∧ holds b' s a
  holds_disjunction : ∀ b b' s a, holds (disjunction b b') s a ↔ holds b s a ∨ holds b' s a

-- the free variables of the diagram are among the variables of the table
structure BDDTable (M : Manager D V B Str) (n : ℕ) where
  bdd : B
  vars : Fin n → V
  str : Str
  injective : Function.Injective vars
  free : ∀ s a a', (∀ i, a (vars i) = a' (vars i)) → (M.holds bdd s a ↔ M.holds bdd s a')

inductive InternalPredTable (M : Manager D V B Str) (n : ℕ) where
  | bdd (table : BDDTable M n)
  | inverse (invtable : InternalPredTable M n)
  | full
  | equal (binary : n = 2)
  | strLess (binary : n = 2)
  | strGreater (binary : n = 2)
  | enumerated (tuples : List (Fin n → D))
  | func (graph : (Fin n → D) → Bool) (approxEmpty : Bool)
      (sound : approxEmpty = true → ∀ tuple, graph tuple = false)
  -- the graph of a function that is computed by a procedure
  | funcProcedure (graph : (Fin n → D) → Bool) (approxEmpty : Bool)
      (sound : approxEmpty = true → ∀ tuple, graph tuple = false)
  | procedure (accepts : (Fin n → D) → Bool)
  | union (intables outtables : List (InternalPredTable M n))

def first (binary : n = 2) : Fin n := ⟨0, by omega⟩

def second (binary : n = 2) : Fin n := ⟨1, by omega⟩

variable {M : Manager D V B Str}

-- the value that goes with a variable of the list
def valueAt {α : Type} [DecidableEq V] (vars : Fin n → V) (values : Fin n → α) (otherwise : V → α) (v : V) :
    α :=
  match (List.finRange n).find? fun i => vars i = v with
  | some i => values i
  | none => otherwise v

theorem valueAt_apply {α : Type} [DecidableEq V] {vars : Fin n → V} (hvars : Function.Injective vars)
    (values : Fin n → α) (otherwise : V → α) (i : Fin n) : valueAt vars values otherwise (vars i) = values i := by
  rw [valueAt]
  cases hfind : (List.finRange n).find? fun j => vars j = vars i with
  | none => simpa using List.find?_eq_none.mp hfind i (List.mem_finRange i)
  | some j =>
    have hj : vars j = vars i := by simpa using List.find?_some hfind
    rw [hvars hj]

namespace BDDTable

variable [DecidableEq V]

def Accepts [Inhabited D] (t : BDDTable M n) (tuple : Fin n → D) : Prop :=
  M.holds t.bdd t.str (valueAt t.vars tuple fun _ => default)

-- the tables of one arity have as many variables
def substituteSuchThatBddHasVars (other : BDDTable M n) (vars : Fin n → V) : B :=
  M.substitute (M.getBDD other.bdd) (valueAt other.vars vars id)

end BDDTable

namespace InternalPredTable

section Contains

variable [Elements D] [Inhabited D] [DecidableEq V]

mutual

def Contains (u : Universe D n) : InternalPredTable M n → (Fin n → D) → Prop
  | .bdd t, tuple => u.contains tuple = true ∧ t.Accepts tuple
  | .inverse t, tuple => ¬Contains u t tuple ∧ u.contains tuple = true
  | .full, tuple => u.contains tuple = true
  | .equal binary, tuple => tuple (first binary) = tuple (second binary) ∧ u.contains tuple = true
  | .strLess binary, tuple =>
    Elements.less (tuple (first binary)) (tuple (second binary)) = true ∧ u.contains tuple = true
  | .strGreater binary, tuple =>
    Elements.less (tuple (second binary)) (tuple (first binary)) = true ∧ u.contains tuple = true
  | .enumerated tuples, tuple => tuple ∈ tuples
  | .func graph _ _, tuple => graph tuple = true ∧ u.contains tuple = true
  | .funcProcedure graph _ _, tuple => graph tuple = true ∧ u.contains tuple = true
  | .procedure accepts, tuple => u.contains tuple = true ∧ accepts tuple = true
  | .union intables outtables, tuple => ContainsAny u intables tuple ∧ ¬ContainsAny u outtables tuple

def ContainsAny (u : Universe D n) : List (InternalPredTable M n) → (Fin n → D) → Prop
  | [], _ => False
  | t :: tables, tuple => Contains u t tuple ∨ ContainsAny u tables tuple

end

end Contains

variable [DecidableEq B]

mutual

def approxEmpty (u : Universe D n) : InternalPredTable M n → Bool
  | .bdd t => u.approxEmpty || decide (t.bdd = M.falsebdd)
  | .inverse _ => u.approxEmpty
  | .full => u.approxEmpty
  | .equal _ => u.approxEmpty
  -- only the first sort is looked at
  | .strLess binary => (u (first binary)).lessThanTwo
  | .strGreater binary => (u (first binary)).lessThanTwo
  | .enumerated tuples => tuples.isEmpty
  | .func _ approxEmpty _ => approxEmpty
  | .funcProcedure _ approxEmpty _ => approxEmpty
  | .procedure _ => u.approxEmpty
  | .union intables _ => allApproxEmpty u intables

def allApproxEmpty (u : Universe D n) : List (InternalPredTable M n) → Bool
  | [] => true
  | t :: tables => approxEmpty u t && allApproxEmpty u tables

end

def asBdd : InternalPredTable M n → Option (BDDTable M n)
  | .bdd t => some t
  | _ => none

end InternalPredTable

-- comparing pointers, two that are equal point to one table
structure Pointers (M : Manager D V B Str) (n : ℕ) where
  same : InternalPredTable M n → InternalPredTable M n → Bool
  eq_of_same : ∀ t t', same t t' = true → t = t'

namespace InternalPredTable

variable [DecidableEq B] [DecidableEq V] (P : Pointers M n) (u : Universe D n)

mutual

def approxEqual (this ipt : InternalPredTable M n) : Bool :=
  if P.same this ipt then true
  else
    match this.asBdd with
    | some t =>
      if t.bdd = M.falsebdd then ipt.approxEmpty u
      else
        match ipt with
        | .bdd other => decide (t.bdd = other.substituteSuchThatBddHasVars t.vars)
        | .inverse i => approxInverse this i
        | _ => false
    | none =>
      match ipt with
      | .inverse i => approxInverse this i
      | _ => false
termination_by sizeOf this + sizeOf ipt
decreasing_by all_goals simp

def approxInverse (this ipt : InternalPredTable M n) : Bool :=
  match this.asBdd with
  | some t =>
    if t.bdd = M.truebdd then ipt.approxEmpty u
    else
      match ipt with
      | .bdd other =>
        let otherbdd := other.substituteSuchThatBddHasVars t.vars
        decide (t.bdd = M.negation otherbdd) ||
          (decide (M.conjunction t.bdd otherbdd = M.falsebdd) && decide (M.disjunction t.bdd otherbdd = M.truebdd))
      | .inverse i => approxEqual this i
      | _ => false
  | none =>
    match this, ipt with
    | .inverse i, ipt => approxEqual i ipt
    | this, .inverse i => approxEqual this i
    | _, _ => false
termination_by sizeOf this + sizeOf ipt
decreasing_by all_goals simp

end

end InternalPredTable

section Sets

variable [Elements D] [Inhabited D] [DecidableEq V] (u : Universe D n)

namespace InternalPredTable

def EqualIn (t t' : InternalPredTable M n) : Prop :=
  ∀ tuple, u.contains tuple = true → (t.Contains u tuple ↔ t'.Contains u tuple)

def InverseIn (t t' : InternalPredTable M n) : Prop :=
  ∀ tuple, u.contains tuple = true → (t.Contains u tuple ↔ ¬t'.Contains u tuple)

end InternalPredTable

def BDDTable.negated (t : BDDTable M n) : BDDTable M n where
  bdd := M.negation t.bdd
  vars := t.vars
  str := t.str
  injective := t.injective
  free s a a' h := by rw [M.holds_negation, M.holds_negation, t.free s a a' h]

def InternalPredTable.getInverseTable : InternalPredTable M n → InternalPredTable M n
  | .inverse i => i
  | .bdd t => .bdd t.negated
  | t => .inverse t

theorem InternalPredTable.inverseIn_getInverseTable (t : InternalPredTable M n) :
    t.InverseIn u t.getInverseTable := by
  intro tuple htuple
  cases t <;> simp [getInverseTable, Contains, htuple, BDDTable.Accepts, BDDTable.negated, M.holds_negation]

end Sets

section Interpretations

variable [Elements D] [Inhabited D] [DecidableEq V]

structure PredInter (M : Manager D V B Str) (n : ℕ) where
  univ : Universe D n
  ct : InternalPredTable M n
  cf : InternalPredTable M n
  pt : InternalPredTable M n
  pf : InternalPredTable M n
  ct_pf : ct.InverseIn univ pf
  cf_pt : cf.InverseIn univ pt

namespace PredInter

theorem inverse_select {u : Universe D n} (t : InternalPredTable M n) (b : Bool) :
    (if b then t else t.getInverseTable).InverseIn u (if b then t.getInverseTable else t) := by
  intro tuple htuple
  have hinverse := t.inverseIn_getInverseTable u tuple htuple
  cases b with
  | true => exact hinverse
  | false => exact ⟨fun h h' => hinverse.mp h' h, fun h => by_contra fun h' => h (hinverse.mpr h')⟩

-- for each of the pairs of complements one table is given
def setTables (u : Universe D n) (ctpf cfpt : InternalPredTable M n) (ct cf : Bool) : PredInter M n where
  univ := u
  ct := if ct then ctpf else ctpf.getInverseTable
  pf := if ct then ctpf.getInverseTable else ctpf
  cf := if cf then cfpt else cfpt.getInverseTable
  pt := if cf then cfpt.getInverseTable else cfpt
  ct_pf := inverse_select ctpf ct
  cf_pt := inverse_select cfpt cf

-- a two-valued interpretation by its one table, in the constructor, ctpt and cfpf
def ofTable (u : Universe D n) (table : InternalPredTable M n) (ct : Bool) : PredInter M n :=
  setTables u table table ct !ct

def setCtpf (p : PredInter M n) (ctpf : InternalPredTable M n) (ct : Bool) : PredInter M n :=
  { p with
    ct := if ct then ctpf else ctpf.getInverseTable
    pf := if ct then ctpf.getInverseTable else ctpf
    ct_pf := inverse_select ctpf ct }

def setCfpt (p : PredInter M n) (cfpt : InternalPredTable M n) (cf : Bool) : PredInter M n :=
  { p with
    cf := if cf then cfpt else cfpt.getInverseTable
    pt := if cf then cfpt.getInverseTable else cfpt
    cf_pt := inverse_select cfpt cf }

variable [DecidableEq B] (P : Pointers M n)

-- comparing sizes decides which table is the larger one
def createSmallestPredInter (u : Universe D n) (larger : InternalPredTable M n → InternalPredTable M n → Bool)
    (ct cf : InternalPredTable M n) (known_twovalued : Bool) : PredInter M n :=
  if known_twovalued || ct.approxInverse P u cf then
    if larger ct cf then ofTable u cf false else ofTable u ct true
  else
    let pf := ct.getInverseTable
    let pt := cf.getInverseTable
    setTables u (if larger ct pf then pf else ct) (if larger cf pt then pt else cf) (!larger ct pf) (!larger cf pt)

-- whether there are inconsistent elements is stored with the interpretation
def approxTwoValued (isConsistent : PredInter M n → Bool) (p : PredInter M n) : Bool :=
  isConsistent p && p.ct.approxEqual P p.univ p.pt

def isInverse : InternalPredTable M n → Bool
  | .inverse _ => true
  | _ => false

def clone (isConsistent : PredInter M n → Bool) (p : PredInter M n) (univ : Universe D n) : PredInter M n :=
  let nctpf := if isInverse p.pf then p.ct else p.pf
  if approxTwoValued P isConsistent p then ofTable univ nctpf (isInverse p.pf)
  else setTables univ nctpf (if isInverse p.pt then p.cf else p.pt) (isInverse p.pf) (isInverse p.pt)

end PredInter

-- walking over a table that is approximately finite
structure Enumeration (M : Manager D V B Str) (n : ℕ) where
  enumerate : Universe D n → InternalPredTable M n → Option (List (Fin n → D))
  mem_iff : ∀ u t tuples, enumerate u t = some tuples →
    ∀ tuple, u.contains tuple = true → (tuple ∈ tuples ↔ t.Contains u tuple)

-- the enumerated table of a function
def funcOfTuples [DecidableEq D] (tuples : List (Fin n → D)) : InternalPredTable M n :=
  .func (fun tuple => decide (tuple ∈ tuples)) tuples.isEmpty fun h tuple => by simp [List.isEmpty_iff.mp h]

-- an exception for an infinite table, nothing where the table stays as it is
def InternalPredTable.materialize [DecidableEq D] (E : Enumeration M n) (u : Universe D n) :
    InternalPredTable M n → Option (Option (InternalPredTable M n))
  | .bdd t => (E.enumerate u (.bdd t)).map fun tuples => some (.enumerated tuples)
  | .procedure accepts => (E.enumerate u (.procedure accepts)).map fun tuples => some (.enumerated tuples)
  | .union intables outtables =>
    (E.enumerate u (.union intables outtables)).map fun tuples => some (.enumerated tuples)
  | .funcProcedure graph approxEmpty sound =>
    (E.enumerate u (.funcProcedure graph approxEmpty sound)).map fun tuples => some (funcOfTuples tuples)
  | .inverse i => (i.materialize E u).map fun found => found.map getInverseTable
  | _ => some none

def PredInter.materialize [DecidableEq B] [DecidableEq D] (P : Pointers M n) (E : Enumeration M n)
    (isConsistent : PredInter M n → Bool) (atMost : InternalPredTable M n → InternalPredTable M n → Bool)
    (p : PredInter M n) : Option (PredInter M n) :=
  let getCT := atMost p.ct p.pf
  let getCF := atMost p.cf p.pt
  if approxTwoValued P isConsistent p then do
    let newt ← (if getCT then p.ct else p.pf).materialize E p.univ
    match newt with
    | some newt => return ofTable p.univ newt getCT
    | none => return p
  else do
    let newt ← (if getCT then p.ct else p.pf).materialize E p.univ
    let newf ← (if getCF then p.cf else p.pt).materialize E p.univ
    match newt, newf with
    | some newt, some newf => return setTables p.univ newt newf getCT getCF
    | some newt, none => return p.setCtpf newt getCT
    | none, some newf => return p.setCfpt newf getCF
    | none, none => return p

end Interpretations

section Sound

variable {u u' : Universe D n} {s : Str}

namespace InternalPredTable

-- one structure is read, and the order is on one sort
mutual

def WellRead (s : Str) (u : Universe D n) : InternalPredTable M n → Prop
  | .bdd t => t.str = s
  | .inverse i => WellRead s u i
  | .full => True
  | .equal _ => True
  | .strLess binary => u (first binary) = u (second binary)
  | .strGreater binary => u (first binary) = u (second binary)
  | .enumerated _ => True
  | .func _ _ _ => True
  | .funcProcedure _ _ _ => True
  | .procedure _ => True
  | .union intables _ => AllWellRead s u intables

def AllWellRead (s : Str) (u : Universe D n) : List (InternalPredTable M n) → Prop
  | [] => True
  | t :: tables => WellRead s u t ∧ AllWellRead s u tables

end

theorem contains_at {tuple : Fin n → D} (h : u.contains tuple = true) (i : Fin n) :
    (u i).contains (tuple i) = true := of_decide_eq_true h i

theorem first_eq_second {tuple : Fin n → D} (binary : n = 2) (hsort : u (first binary) = u (second binary))
    (hless : (u (first binary)).lessThanTwo = true) (h : u.contains tuple = true) :
    tuple (first binary) = tuple (second binary) :=
  (u (first binary)).subsingleton hless _ _ (contains_at h _) (hsort ▸ contains_at h _)

theorem not_contains_of_universe {tuple : Fin n → D} (hempty : u.approxEmpty = true) (h : u.contains tuple = true) :
    False := Bool.false_ne_true ((Universe.not_contains hempty tuple).symm.trans h)

theorem eq_bdd_of_asBdd {this : InternalPredTable M n} {t : BDDTable M n} (h : this.asBdd = some t) :
    this = .bdd t := by
  cases this <;> simp_all [asBdd]

variable [Inhabited D] [DecidableEq V]

theorem holds_substituteSuchThatBddHasVars (other : BDDTable M n) {vars : Fin n → V}
    (hvars : Function.Injective vars) (tuple : Fin n → D) :
    M.holds (other.substituteSuchThatBddHasVars vars) s (valueAt vars tuple fun _ => default) ↔
      M.holds other.bdd s (valueAt other.vars tuple fun _ => default) := by
  rw [BDDTable.substituteSuchThatBddHasVars, M.holds_substitute, M.holds_getBDD]
  refine other.free s _ _ fun i => ?_
  rw [Function.comp_apply, valueAt_apply other.injective, valueAt_apply hvars, valueAt_apply other.injective]

variable [Elements D]

theorem EqualIn.refl (t : InternalPredTable M n) : t.EqualIn u t := fun _ _ => Iff.rfl

theorem equalIn_symm {t t' : InternalPredTable M n} (h : t.EqualIn u t') : t'.EqualIn u t :=
  fun tuple htuple => (h tuple htuple).symm

theorem inverseIn_comm {t t' : InternalPredTable M n} (h : t.InverseIn u t') : t'.InverseIn u t := by
  intro tuple htuple
  have hinverse := h tuple htuple
  exact ⟨fun h' hc => hinverse.mp hc h', fun hc => by_contra fun h' => hc (hinverse.mpr h')⟩

theorem inverseIn_inverse (t : InternalPredTable M n) : t.InverseIn u (.inverse t) := by
  intro tuple htuple
  rw [Contains]
  exact ⟨fun h h' => h'.1 h, fun h => by_contra fun h' => h ⟨h', htuple⟩⟩

theorem EqualIn.inverseIn {t t' t'' : InternalPredTable M n} (h : t.EqualIn u t') (h' : t'.InverseIn u t'') :
    t.InverseIn u t'' := fun tuple htuple => (h tuple htuple).trans (h' tuple htuple)

theorem InverseIn.inverseIn {t t' t'' : InternalPredTable M n} (h : t.InverseIn u t') (h' : t'.InverseIn u t'') :
    t.EqualIn u t'' := fun tuple htuple =>
  (h tuple htuple).trans (not_congr (h' tuple htuple) |>.trans not_not)

theorem contains_bdd {t : BDDTable M n} {tuple : Fin n → D} (htuple : u.contains tuple = true) :
    Contains u (.bdd t) tuple ↔ M.holds t.bdd t.str (valueAt t.vars tuple fun _ => default) := by
  rw [Contains, and_iff_right htuple, BDDTable.Accepts]

theorem contains_bdd_substitute {t other : BDDTable M n} (hread : t.str = s) (hread' : other.str = s)
    {tuple : Fin n → D} (htuple : u.contains tuple = true) :
    Contains u (.bdd other) tuple ↔
      M.holds (other.substituteSuchThatBddHasVars t.vars) t.str (valueAt t.vars tuple fun _ => default) := by
  rw [contains_bdd htuple, holds_substituteSuchThatBddHasVars other t.injective, hread, hread']

theorem equalIn_of_substitute {t other : BDDTable M n} (hread : t.str = s) (hread' : other.str = s)
    (hbdd : t.bdd = other.substituteSuchThatBddHasVars t.vars) : EqualIn u (.bdd t) (.bdd other) := by
  intro tuple htuple
  rw [contains_bdd_substitute hread hread' htuple, contains_bdd htuple, ← hbdd]

theorem inverseIn_of_negation {t other : BDDTable M n} (hread : t.str = s) (hread' : other.str = s)
    (hbdd : t.bdd = M.negation (other.substituteSuchThatBddHasVars t.vars)) : InverseIn u (.bdd t) (.bdd other) := by
  intro tuple htuple
  rw [contains_bdd_substitute hread hread' htuple, contains_bdd htuple, hbdd, M.holds_negation]

theorem inverseIn_of_disjoint {t other : BDDTable M n} (hread : t.str = s) (hread' : other.str = s)
    (hconjunction : M.conjunction t.bdd (other.substituteSuchThatBddHasVars t.vars) = M.falsebdd)
    (hdisjunction : M.disjunction t.bdd (other.substituteSuchThatBddHasVars t.vars) = M.truebdd) :
    InverseIn u (.bdd t) (.bdd other) := by
  intro tuple htuple
  rw [contains_bdd_substitute hread hread' htuple, contains_bdd htuple]
  constructor
  · intro h h'
    exact M.not_holds_falsebdd _ _ (hconjunction ▸ (M.holds_conjunction _ _ _ _).mpr ⟨h, h'⟩)
  · intro h'
    have hor := (M.holds_disjunction t.bdd (other.substituteSuchThatBddHasVars t.vars) t.str _).mp
      (hdisjunction ▸ M.holds_truebdd _ (valueAt t.vars tuple fun _ => default))
    exact hor.resolve_right h'

mutual

theorem contains_congr (t : InternalPredTable M n) {tuple : Fin n → D} (h : u.contains tuple = true)
    (h' : u'.contains tuple = true) : t.Contains u tuple ↔ t.Contains u' tuple := by
  cases t with
  | inverse i => rw [Contains, Contains, contains_congr i h h', h, h']
  | union intables outtables =>
    rw [Contains, Contains, containsAny_congr intables h h', containsAny_congr outtables h h']
  | bdd | full | equal | strLess | strGreater | enumerated | func | funcProcedure | procedure =>
    simp only [Contains, h, h']

theorem containsAny_congr (tables : List (InternalPredTable M n)) {tuple : Fin n → D} (h : u.contains tuple = true)
    (h' : u'.contains tuple = true) : ContainsAny u tables tuple ↔ ContainsAny u' tables tuple := by
  cases tables with
  | nil => exact Iff.rfl
  | cons t tables => rw [ContainsAny, ContainsAny, contains_congr t h h', containsAny_congr tables h h']

end

variable [DecidableEq B] {P : Pointers M n}

mutual

theorem approxEmpty_sound (t : InternalPredTable M n) (hread : t.WellRead s u) (hempty : t.approxEmpty u = true)
    {tuple : Fin n → D} (h : u.contains tuple = true) : ¬t.Contains u tuple := by
  cases t with
  | bdd t =>
    rw [approxEmpty, Bool.or_eq_true, decide_eq_true_iff] at hempty
    rcases hempty with hempty | hfalse
    · exact (not_contains_of_universe hempty h).elim
    · intro hcontains
      rw [Contains, BDDTable.Accepts, hfalse] at hcontains
      exact M.not_holds_falsebdd _ _ hcontains.2
  | inverse i => exact (not_contains_of_universe hempty h).elim
  | full => exact (not_contains_of_universe hempty h).elim
  | equal binary => exact (not_contains_of_universe hempty h).elim
  | strLess binary =>
    intro hcontains
    rw [Contains, first_eq_second binary hread hempty h, Elements.not_less_self] at hcontains
    exact Bool.false_ne_true hcontains.1
  | strGreater binary =>
    intro hcontains
    rw [Contains, first_eq_second binary hread hempty h, Elements.not_less_self] at hcontains
    exact Bool.false_ne_true hcontains.1
  | enumerated tuples =>
    rw [approxEmpty, List.isEmpty_iff] at hempty
    simp [Contains, hempty]
  | func graph approxEmpty sound | funcProcedure graph approxEmpty sound =>
    intro hcontains
    exact Bool.false_ne_true ((sound hempty tuple).symm.trans hcontains.1)
  | procedure accepts => exact (not_contains_of_universe hempty h).elim
  | union intables outtables =>
    intro hcontains
    exact allApproxEmpty_sound intables hread hempty h hcontains.1

theorem allApproxEmpty_sound (tables : List (InternalPredTable M n)) (hread : AllWellRead s u tables)
    (hempty : allApproxEmpty u tables = true) {tuple : Fin n → D} (h : u.contains tuple = true) :
    ¬ContainsAny u tables tuple := by
  cases tables with
  | nil => exact id
  | cons t tables =>
    rw [allApproxEmpty, Bool.and_eq_true] at hempty
    rintro (hcontains | hcontains)
    · exact approxEmpty_sound t hread.1 hempty.1 h hcontains
    · exact allApproxEmpty_sound tables hread.2 hempty.2 h hcontains

end

theorem equalIn_of_falsebdd {t : BDDTable M n} {ipt : InternalPredTable M n} (hfalse : t.bdd = M.falsebdd)
    (hread : ipt.WellRead s u) (hempty : ipt.approxEmpty u = true) : EqualIn u (.bdd t) ipt := by
  intro tuple htuple
  refine iff_of_false (fun hcontains => ?_) (ipt.approxEmpty_sound hread hempty htuple)
  rw [Contains, BDDTable.Accepts, hfalse] at hcontains
  exact M.not_holds_falsebdd _ _ hcontains.2

theorem inverseIn_of_truebdd {t : BDDTable M n} {ipt : InternalPredTable M n} (htrue : t.bdd = M.truebdd)
    (hread : ipt.WellRead s u) (hempty : ipt.approxEmpty u = true) : InverseIn u (.bdd t) ipt := by
  intro tuple htuple
  refine iff_of_true ?_ (ipt.approxEmpty_sound hread hempty htuple)
  rw [Contains, BDDTable.Accepts, htrue]
  exact ⟨htuple, M.holds_truebdd _ _⟩

theorem approx_sound (k : ℕ) (this ipt : InternalPredTable M n) (hk : sizeOf this + sizeOf ipt ≤ k)
    (hread : this.WellRead s u) (hread' : ipt.WellRead s u) :
    (this.approxEqual P u ipt = true → this.EqualIn u ipt) ∧
      (this.approxInverse P u ipt = true → this.InverseIn u ipt) := by
  induction k generalizing this ipt with
  | zero => cases this <;> simp at hk
  | succ k ih =>
    have equal_inverse (i : InternalPredTable M n) (hi : ipt = .inverse i)
        (h : this.approxInverse P u i = true) : this.EqualIn u ipt := by
      subst hi
      simp only [inverse.sizeOf_spec] at hk
      exact ((ih this i (by omega) hread hread').2 h).inverseIn (inverseIn_inverse i)
    have inverse_inverse (i : InternalPredTable M n) (hi : ipt = .inverse i)
        (h : this.approxEqual P u i = true) : this.InverseIn u ipt := by
      subst hi
      simp only [inverse.sizeOf_spec] at hk
      exact ((ih this i (by omega) hread hread').1 h).inverseIn (inverseIn_inverse i)
    constructor
    · intro hequal
      rw [approxEqual.eq_def] at hequal
      split at hequal
      next hsame => exact P.eq_of_same _ _ hsame ▸ EqualIn.refl this
      split at hequal
      next t hbdd =>
        obtain rfl : this = .bdd t := eq_bdd_of_asBdd hbdd
        split at hequal
        next hfalse => exact equalIn_of_falsebdd hfalse hread' hequal
        split at hequal
        next other => exact equalIn_of_substitute hread hread' (of_decide_eq_true hequal)
        next => exact equal_inverse _ rfl hequal
        next => exact absurd hequal Bool.false_ne_true
      next =>
        split at hequal
        next => exact equal_inverse _ rfl hequal
        next => exact absurd hequal Bool.false_ne_true
    · intro hinverse
      rw [approxInverse.eq_def] at hinverse
      split at hinverse
      next t hbdd =>
        obtain rfl : this = .bdd t := eq_bdd_of_asBdd hbdd
        split at hinverse
        next htrue => exact inverseIn_of_truebdd htrue hread' hinverse
        split at hinverse
        next other =>
          rw [Bool.or_eq_true, Bool.and_eq_true, decide_eq_true_iff, decide_eq_true_iff, decide_eq_true_iff] at hinverse
          rcases hinverse with hnegation | ⟨hconjunction, hdisjunction⟩
          · exact inverseIn_of_negation hread hread' hnegation
          · exact inverseIn_of_disjoint hread hread' hconjunction hdisjunction
        next => exact inverse_inverse _ rfl hinverse
        next => exact absurd hinverse Bool.false_ne_true
      next =>
        split at hinverse
        next i _ =>
          simp only [inverse.sizeOf_spec] at hk
          have hequal := (ih i ipt (by omega) hread hread').1 hinverse
          exact inverseIn_comm (equalIn_symm hequal |>.inverseIn (inverseIn_inverse i))
        next => exact inverse_inverse _ rfl hinverse
        next => exact absurd hinverse Bool.false_ne_true

theorem approxEqual_sound {this ipt : InternalPredTable M n} (hread : this.WellRead s u) (hread' : ipt.WellRead s u)
    (h : this.approxEqual P u ipt = true) : this.EqualIn u ipt := (approx_sound _ this ipt le_rfl hread hread').1 h

theorem approxInverse_sound {this ipt : InternalPredTable M n} (hread : this.WellRead s u) (hread' : ipt.WellRead s u)
    (h : this.approxInverse P u ipt = true) : this.InverseIn u ipt := (approx_sound _ this ipt le_rfl hread hread').2 h

end InternalPredTable

variable [Elements D] [Inhabited D] [DecidableEq V]

theorem InternalPredTable.inverse_equalIn {t t' : InternalPredTable M n} (h : t.EqualIn u t') :
    EqualIn u (.inverse t) t'.getInverseTable :=
  (inverseIn_comm t.inverseIn_inverse).inverseIn (h.inverseIn (t'.inverseIn_getInverseTable u))

theorem InternalPredTable.materialize_equalIn [DecidableEq D] (E : Enumeration M n) (t : InternalPredTable M n)
    {found : InternalPredTable M n} (h : t.materialize E u = some (some found)) : t.EqualIn u found := by
  cases t with
  | bdd | procedure | union =>
    obtain ⟨tuples, htuples, hfound⟩ := Option.map_eq_some_iff.mp h
    obtain rfl := Option.some.inj hfound
    intro tuple htuple
    exact (E.mem_iff u _ tuples htuples tuple htuple).symm
  | funcProcedure graph approxEmpty sound =>
    obtain ⟨tuples, htuples, hfound⟩ := Option.map_eq_some_iff.mp h
    obtain rfl := Option.some.inj hfound
    intro tuple htuple
    rw [← E.mem_iff u _ tuples htuples tuple htuple, funcOfTuples, Contains, decide_eq_true_iff, and_iff_left htuple]
  | inverse i =>
    obtain ⟨inner, hinner, hfound⟩ := Option.map_eq_some_iff.mp h
    obtain ⟨table, rfl, rfl⟩ := Option.map_eq_some_iff.mp hfound
    exact inverse_equalIn (materialize_equalIn E i hinner)
  | full | equal | strLess | strGreater | enumerated | func => exact nomatch Option.some.inj h

namespace PredInter

-- the four sets say the same of a tuple
structure AgreeAt (tuple : Fin n → D) (p q : PredInter M n) : Prop where
  ct : p.ct.Contains p.univ tuple ↔ q.ct.Contains q.univ tuple
  cf : p.cf.Contains p.univ tuple ↔ q.cf.Contains q.univ tuple
  pt : p.pt.Contains p.univ tuple ↔ q.pt.Contains q.univ tuple
  pf : p.pf.Contains p.univ tuple ↔ q.pf.Contains q.univ tuple

def SameSets (p q : PredInter M n) : Prop :=
  q.univ = p.univ ∧ ∀ tuple, p.univ.contains tuple = true → AgreeAt tuple p q

structure WellRead (s : Str) (p : PredInter M n) : Prop where
  ct : p.ct.WellRead s p.univ
  cf : p.cf.WellRead s p.univ
  pt : p.pt.WellRead s p.univ
  pf : p.pf.WellRead s p.univ

section AgreeAt

variable {p q : PredInter M n} {tuple : Fin n → D} (h : p.univ.contains tuple = true)
  (h' : q.univ.contains tuple = true)

include h h'

theorem agreeAt_of_certain (hct : p.ct.Contains p.univ tuple ↔ q.ct.Contains q.univ tuple)
    (hcf : p.cf.Contains p.univ tuple ↔ q.cf.Contains q.univ tuple) : AgreeAt tuple p q where
  ct := hct
  cf := hcf
  pt := not_iff_not.mp ((p.cf_pt tuple h).symm.trans (hcf.trans (q.cf_pt tuple h')))
  pf := not_iff_not.mp ((p.ct_pf tuple h).symm.trans (hct.trans (q.ct_pf tuple h')))

theorem ct_of_select (b : Bool) (hselect : (if b then p.ct else p.pf).Contains p.univ tuple ↔
    (if b then q.ct else q.pf).Contains q.univ tuple) :
    p.ct.Contains p.univ tuple ↔ q.ct.Contains q.univ tuple := by
  cases b with
  | true => exact hselect
  | false => exact (p.ct_pf tuple h).trans ((not_congr hselect).trans (q.ct_pf tuple h').symm)

theorem cf_of_select (b : Bool) (hselect : (if b then p.cf else p.pt).Contains p.univ tuple ↔
    (if b then q.cf else q.pt).Contains q.univ tuple) :
    p.cf.Contains p.univ tuple ↔ q.cf.Contains q.univ tuple := by
  cases b with
  | true => exact hselect
  | false => exact (p.cf_pt tuple h).trans ((not_congr hselect).trans (q.cf_pt tuple h').symm)

end AgreeAt

theorem setTables_select_ct (univ : Universe D n) (ctpf cfpt : InternalPredTable M n) (ct cf : Bool) :
    (if ct then (setTables univ ctpf cfpt ct cf).ct else (setTables univ ctpf cfpt ct cf).pf) = ctpf := by
  cases ct <;> rfl

theorem setTables_select_cf (univ : Universe D n) (ctpf cfpt : InternalPredTable M n) (ct cf : Bool) :
    (if cf then (setTables univ ctpf cfpt ct cf).cf else (setTables univ ctpf cfpt ct cf).pt) = cfpt := by
  cases cf <;> rfl

theorem setTables_agreeAt {p : PredInter M n} {univ : Universe D n} {tuple : Fin n → D}
    {ctpf cfpt : InternalPredTable M n} {ct cf : Bool} (h : p.univ.contains tuple = true)
    (h' : univ.contains tuple = true)
    (hctpf : (if ct then p.ct else p.pf).Contains p.univ tuple ↔ ctpf.Contains univ tuple)
    (hcfpt : (if cf then p.cf else p.pt).Contains p.univ tuple ↔ cfpt.Contains univ tuple) :
    AgreeAt tuple p (setTables univ ctpf cfpt ct cf) := by
  refine agreeAt_of_certain h h' (ct_of_select h h' ct ?_) (cf_of_select h h' cf ?_)
  · rw [setTables_select_ct]
    exact hctpf
  · rw [setTables_select_cf]
    exact hcfpt

theorem ofTable_agreeAt {p : PredInter M n} {univ : Universe D n} {tuple : Fin n → D} {table : InternalPredTable M n}
    {ct : Bool} (htwovalued : p.ct.EqualIn p.univ p.pt) (h : p.univ.contains tuple = true)
    (h' : univ.contains tuple = true)
    (htable : (if ct then p.ct else p.pf).Contains p.univ tuple ↔ table.Contains univ tuple) :
    AgreeAt tuple p (ofTable univ table ct) := by
  refine setTables_agreeAt h h' htable (Iff.trans ?_ htable)
  cases ct with
  | true => exact (htwovalued tuple h).symm
  | false =>
    calc p.cf.Contains p.univ tuple ↔ ¬p.pt.Contains p.univ tuple := p.cf_pt tuple h
      _ ↔ ¬p.ct.Contains p.univ tuple := not_congr (htwovalued tuple h).symm
      _ ↔ p.pf.Contains p.univ tuple := by rw [p.ct_pf tuple h, not_not]

variable {p : PredInter M n}

theorem sameSets_of_select {q : PredInter M n} (huniverse : q.univ = p.univ) (getCT getCF : Bool)
    (hct : (if getCT then p.ct else p.pf).EqualIn p.univ (if getCT then q.ct else q.pf))
    (hcf : (if getCF then p.cf else p.pt).EqualIn p.univ (if getCF then q.cf else q.pt)) : SameSets p q := by
  refine ⟨huniverse, fun tuple h => ?_⟩
  have h' : q.univ.contains tuple = true := huniverse ▸ h
  refine agreeAt_of_certain h h' (ct_of_select h h' getCT ?_) (cf_of_select h h' getCF ?_)
  · rw [huniverse]
    exact hct tuple h
  · rw [huniverse]
    exact hcf tuple h

theorem SameSets.refl (p : PredInter M n) : SameSets p p :=
  sameSets_of_select rfl true true (InternalPredTable.EqualIn.refl _) (InternalPredTable.EqualIn.refl _)

theorem setCtpf_sameSets {newt : InternalPredTable M n} {getCT : Bool}
    (hnewt : (if getCT then p.ct else p.pf).EqualIn p.univ newt) : SameSets p (p.setCtpf newt getCT) := by
  refine sameSets_of_select rfl getCT true ?_ (InternalPredTable.EqualIn.refl _)
  cases getCT <;> exact hnewt

theorem setCfpt_sameSets {newf : InternalPredTable M n} {getCF : Bool}
    (hnewf : (if getCF then p.cf else p.pt).EqualIn p.univ newf) : SameSets p (p.setCfpt newf getCF) := by
  refine sameSets_of_select rfl true getCF (InternalPredTable.EqualIn.refl _) ?_
  cases getCF <;> exact hnewf

variable [DecidableEq B] {P : Pointers M n} {isConsistent : PredInter M n → Bool}
  {larger atMost : InternalPredTable M n → InternalPredTable M n → Bool}

theorem approxTwoValued_sound (hread : p.WellRead s) (h : approxTwoValued P isConsistent p = true) :
    p.ct.EqualIn p.univ p.pt :=
  InternalPredTable.approxEqual_sound hread.ct hread.pt (Bool.and_eq_true_iff.mp h).2

theorem clone_agreeAt (hread : p.WellRead s) {univ : Universe D n} {tuple : Fin n → D}
    (h : p.univ.contains tuple = true) (h' : univ.contains tuple = true) :
    AgreeAt tuple p (clone P isConsistent p univ) := by
  rw [clone]
  split
  next htwovalued =>
    exact ofTable_agreeAt (approxTwoValued_sound hread htwovalued) h h' (InternalPredTable.contains_congr _ h h')
  next =>
    exact setTables_agreeAt h h' (InternalPredTable.contains_congr _ h h') (InternalPredTable.contains_congr _ h h')

theorem clone_universe (univ : Universe D n) : (clone P isConsistent p univ).univ = univ := by
  rw [clone]
  split <;> rfl

theorem createSmallestPredInter_agreeAt {ct cf : InternalPredTable M n} {known_twovalued : Bool}
    (hct : ct.WellRead s u) (hcf : cf.WellRead s u) (hknown : known_twovalued = true → ct.InverseIn u cf)
    {tuple : Fin n → D} (h : u.contains tuple = true) :
    AgreeAt tuple (setTables u ct cf true true) (createSmallestPredInter P u larger ct cf known_twovalued) := by
  rw [createSmallestPredInter]
  split
  next htwovalued =>
    have hinverse : ct.InverseIn u cf := by
      rcases Bool.or_eq_true_iff.mp htwovalued with hknown' | happrox
      · exact hknown hknown'
      · exact InternalPredTable.approxInverse_sound hct hcf happrox
    have htwovalued' : ct.EqualIn u cf.getInverseTable := hinverse.inverseIn (cf.inverseIn_getInverseTable u)
    split
    next =>
      refine ofTable_agreeAt htwovalued' h h ?_
      exact not_iff_not.mp ((ct.inverseIn_getInverseTable u tuple h).symm.trans (hinverse tuple h))
    next => exact ofTable_agreeAt htwovalued' h h Iff.rfl
  next =>
    refine setTables_agreeAt h h ?_ ?_
    · cases larger ct ct.getInverseTable <;> exact Iff.rfl
    · cases larger cf cf.getInverseTable <;> exact Iff.rfl

theorem createSmallestPredInter_universe (ct cf : InternalPredTable M n) (known_twovalued : Bool) :
    (createSmallestPredInter P u larger ct cf known_twovalued).univ = u := by
  rw [createSmallestPredInter]
  split
  · split <;> rfl
  · rfl

theorem materialize_sameSets [DecidableEq D] (E : Enumeration M n) (hread : p.WellRead s) {q : PredInter M n}
    (h : p.materialize P E isConsistent atMost = some q) : SameSets p q := by
  rw [materialize] at h
  split at h
  next htwovalued =>
    obtain ⟨newt, hnewt, h⟩ := Option.bind_eq_some_iff.mp h
    cases newt with
    | none =>
      obtain rfl := Option.some.inj h
      exact .refl p
    | some newt =>
      obtain rfl := Option.some.inj h
      exact ⟨rfl, fun tuple htuple => ofTable_agreeAt (approxTwoValued_sound hread htwovalued) htuple htuple
        (InternalPredTable.materialize_equalIn E _ hnewt tuple htuple)⟩
  next =>
    obtain ⟨newt, hnewt, h⟩ := Option.bind_eq_some_iff.mp h
    obtain ⟨newf, hnewf, h⟩ := Option.bind_eq_some_iff.mp h
    cases newt with
    | none =>
      cases newf with
      | none =>
        obtain rfl := Option.some.inj h
        exact .refl p
      | some newf =>
        obtain rfl := Option.some.inj h
        exact setCfpt_sameSets (InternalPredTable.materialize_equalIn E _ hnewf)
    | some newt =>
      cases newf with
      | none =>
        obtain rfl := Option.some.inj h
        exact setCtpf_sameSets (InternalPredTable.materialize_equalIn E _ hnewt)
      | some newf =>
        obtain rfl := Option.some.inj h
        exact ⟨rfl, fun tuple htuple => setTables_agreeAt htuple htuple
          (InternalPredTable.materialize_equalIn E _ hnewt tuple htuple)
          (InternalPredTable.materialize_equalIn E _ hnewf tuple htuple)⟩

end PredInter

end Sound

section LargerUniverse

def constants : Manager Bool (Fin 1) Bool Unit where
  holds b _ _ := b = true
  truebdd := true
  falsebdd := false
  getBDD b := b
  substitute b _ := b
  negation b := !b
  conjunction b b' := b && b'
  disjunction b b' := b || b'
  holds_truebdd _ _ := rfl
  not_holds_falsebdd _ _ := Bool.false_ne_true
  holds_getBDD _ _ _ := Iff.rfl
  holds_substitute _ _ _ _ := Iff.rfl
  holds_negation b _ _ := by cases b <;> decide
  holds_conjunction b b' _ _ := Bool.and_eq_true_iff
  holds_disjunction b b' _ _ := Bool.or_eq_true_iff

instance falseFirst : Elements Bool where
  less d e := !d && e
  not_less_self := by decide

def oneElement : SortTable Bool where
  contains d := !d
  approxEmpty := false
  lessThanTwo := true
  not_contains h := absurd h Bool.false_ne_true
  subsingleton _ := by decide

def twoElements : SortTable Bool where
  contains _ := true
  approxEmpty := false
  lessThanTwo := false
  not_contains h := absurd h Bool.false_ne_true
  subsingleton h := absurd h Bool.false_ne_true

-- false of the only element
def nowhere : PredInter constants 1 := PredInter.ofTable (fun _ => oneElement) (.enumerated []) true

end LargerUniverse

end ApproxTables
