import DeclarativeLocalSearch.Theory.Syntax

namespace Grounding

open Theory (AggFunction)

structure Lit where
  positive : Bool
  atom : ℕ
  deriving DecidableEq, Repr

instance : Neg Lit := ⟨fun l => ⟨! l.positive, l.atom⟩⟩

inductive TsType where
  | eq
  | rule
  | impl
  | rimpl
  deriving DecidableEq, Repr

variable {W B : Type}

structure AggTsBody (W : Type) where
  type : TsType
  bound : W
  lower : Bool
  aggtype : AggFunction
  setnr : ℕ

-- the comparisons of constraint variables and the denotations have no literals in their bodies
inductive TsBody (W B : Type) where
  | pc (type : TsType) (body : List Lit) (conj : Bool)
  | agg (body : AggTsBody W)
  | other (type : TsType) (form : B)

structure TsSet (W : Type) where
  literals : List Lit
  weights : List W

structure GroundTranslator (W B : Type) where
  getTsBody : ℕ → Option (TsBody W B)
  groundset : ℕ → TsSet W
  tseitins : List ℕ
  mem_tseitins : ∀ t, (getTsBody t).isSome → t ∈ tseitins

def GroundTranslator.isTseitinWithSubformula (translator : GroundTranslator W B) (atom : ℕ) : Prop :=
  (translator.getTsBody atom).isSome

-- what is sent to the solver
inductive Constraint (W B : Type) where
  | clause (cl : List Lit)
  | equivalence (head : ℕ) (body : List Lit) (conj : Bool)
  | rule (defid head : ℕ) (body : List Lit) (conj : Bool)
  | set (setnr : ℕ) (set : TsSet W) (weighted : Bool)
  | aggregate (head : ℕ) (body : AggTsBody W)
  | aggRule (defid head : ℕ) (body : AggTsBody W)
  | other (head : ℕ) (type : TsType) (form : B)

-- no definition is the one with the undefined number
structure TseitinInfo where
  lit : Lit
  defid : Option ℕ
  rootlevel : Bool
  deriving DecidableEq

structure GroundTheory (W B : Type) where
  constraints : List (Constraint W B)
  tseitinqueue : List TseitinInfo
  addedTseitins : List ℕ
  addedSets : List ℕ

namespace GroundTheory

def polAdd (c : Constraint W B) (g : GroundTheory W B) : GroundTheory W B :=
  { g with constraints := g.constraints ++ [c] }

-- the literals that addTseitinInterpretations puts in the queue
def push (vi : List Lit) (defnr : Option ℕ) (skipfirst propagated : Bool) (g : GroundTheory W B) :
    GroundTheory W B :=
  { g with
    tseitinqueue := g.tseitinqueue ++ (if skipfirst then vi.drop 1 else vi).map fun l => ⟨l, defnr, propagated⟩ }

-- while the queue is handled, what is added only goes to the queue
section Nested

variable (translator : GroundTranslator W B)

def addClause (cl : List Lit) (skipfirst : Bool) (g : GroundTheory W B) : GroundTheory W B :=
  let propagates : Bool := cl.length = 1
  push cl none skipfirst propagates (if propagates then g else polAdd (.clause cl) g)

def addRule (defid head : ℕ) (body : List Lit) (conj : Bool) (g : GroundTheory W B) : GroundTheory W B :=
  polAdd (.rule defid head body conj) (push body (some defid) false false
    (push [⟨true, head⟩] (some defid) false false g))

def addSet (setnr : ℕ) (defnr : Option ℕ) (weighted : Bool) (g : GroundTheory W B) : GroundTheory W B :=
  if setnr ∈ g.addedSets then g
  else
    let tsset := translator.groundset setnr
    polAdd (.set setnr tsset weighted) (push tsset.literals defnr false false
      { g with addedSets := setnr :: g.addedSets })

def addAgg (head : ℕ) (body : AggTsBody W) (g : GroundTheory W B) : GroundTheory W B :=
  polAdd (.aggregate head body) (addSet translator body.setnr none (body.aggtype ≠ .card) g)

def addPC (head : ℕ) (type : TsType) (body : List Lit) (conj : Bool) (defnr : Option ℕ) (g : GroundTheory W B) :
    Option (GroundTheory W B) :=
  match type with
  | .impl =>
    if conj then some (body.foldl (fun g lit => addClause [⟨false, head⟩, lit] true g) g)
    else some (addClause (⟨false, head⟩ :: body) true g)
  | .rimpl =>
    if conj then some (addClause (⟨true, head⟩ :: body.map (- ·)) true g)
    else some (body.foldl (fun g lit => addClause [⟨true, head⟩, -lit] true g) g)
  | .rule => defnr.map fun defid => addRule defid head body conj g
  | .eq => some (push body none false false (polAdd (.equivalence head body conj) g))

-- the clauses that say what a literal at the root says
def elimination (lit : Lit) (type : TsType) (body : List Lit) (conj : Bool) : Option (List (List Lit)) :=
  if lit.positive then
    if type = .rimpl then none else some (if conj then body.map ([·]) else [body])
  else if type = .impl then none
  else some (if conj then [body.map (- ·)] else body.map ([- ·]))

def polAddRoot (elem : TseitinInfo) (g : GroundTheory W B) : GroundTheory W B :=
  if elem.rootlevel then polAdd (.clause [elem.lit]) g else g

def insertTseitin (elem : TseitinInfo) (g : GroundTheory W B) : GroundTheory W B :=
  { polAddRoot elem g with addedTseitins := elem.lit.atom :: g.addedTseitins }

variable (nbModelsEquivalent : Bool)

-- the constraints of a body, and of the completion where it is wanted
def addBody (tseitin : ℕ) (defnr : Option ℕ) (g : GroundTheory W B) : TsBody W B → Option (GroundTheory W B)
  | .pc type body conj => do
    let g ← addPC tseitin type body conj defnr g
    if type = .rule && nbModelsEquivalent then addPC tseitin .rimpl body conj defnr g else some g
  | .agg body =>
    if body.type = .rule then do
      let defid ← defnr
      let g := polAdd (.aggRule defid tseitin body) (addSet translator body.setnr (some defid) (body.aggtype ≠ .card) g)
      some (if nbModelsEquivalent then addAgg translator tseitin { body with type := .rimpl } g else g)
    else some (addAgg translator tseitin body g)
  | .other type form => some (polAdd (.other tseitin type form) g)

-- an element of the queue is handled; there is no result where an assertion fails
def handle (elem : TseitinInfo) (g : GroundTheory W B) : Option (GroundTheory W B) :=
  match translator.getTsBody elem.lit.atom with
  | none => some (polAddRoot elem g)
  | some tsbody =>
    if elem.lit.atom ∈ g.addedTseitins then some (polAddRoot elem g)
    else match tsbody with
      | .pc type body conj =>
        if elem.rootlevel && type ≠ .rule then
          match elimination elem.lit type body conj with
          | some cls => some (cls.foldl (fun g cl => addClause cl false g) g)
          | none => some (insertTseitin elem g)
        else (addBody translator nbModelsEquivalent elem.lit.atom elem.defid g tsbody).map (insertTseitin elem)
      | _ => (addBody translator nbModelsEquivalent elem.lit.atom elem.defid g tsbody).map (insertTseitin elem)

end Nested

end GroundTheory

-- what is added to the theory from outside, in parts between which the queue is handled
inductive Part (W B : Type) where
  | polAdd (c : Constraint W B)
  | push (vi : List Lit) (defnr : Option ℕ) (propagated : Bool)
  | set (setnr : ℕ) (defnr : Option ℕ) (weighted : Bool)

inductive Addition (W : Type) where
  | clause (cl : List Lit)
  | rule (defid head : ℕ) (body : List Lit) (conj : Bool)
  | aggRule (defid head : ℕ) (body : AggTsBody W)
  | set (setnr : ℕ) (defnr : Option ℕ) (weighted : Bool)
  | tseitins (vi : List Lit) (defnr : Option ℕ)

def Addition.parts : Addition W → List (Part W B)
  | .clause cl =>
    let propagates : Bool := cl.length = 1
    (if propagates then [] else [.polAdd (.clause cl)]) ++ [.push cl none propagates]
  | .rule defid head body conj =>
    [.push [⟨true, head⟩] (some defid) false, .push body (some defid) false,
      .polAdd (.rule defid head body conj)]
  | .aggRule defid head body =>
    [.push [⟨true, head⟩] (some defid) false, .set body.setnr (some defid) (body.aggtype ≠ .card),
      .polAdd (.aggRule defid head body)]
  | .set setnr defnr weighted => [.set setnr defnr weighted]
  | .tseitins vi defnr => [.push vi defnr false]

-- the theory with the parts that are still to be added
structure Adding (W B : Type) where
  theory : GroundTheory W B
  parts : List (Part W B)

def Adding.start (additions : List (Addition W)) : Adding W B :=
  ⟨⟨[], [], [], []⟩, additions.flatMap Addition.parts⟩

section Steps

variable (translator : GroundTranslator W B) (nbModelsEquivalent : Bool)

def Adding.addPart (part : Part W B) (s : Adding W B) : Adding W B :=
  match part with
  | .polAdd c => { s with theory := s.theory.polAdd c }
  | .push vi defnr propagated => { s with theory := s.theory.push vi defnr false propagated }
  | .set setnr defnr weighted =>
    if setnr ∈ s.theory.addedSets then s
    else
      let tsset := translator.groundset setnr
      ⟨{ s.theory with addedSets := setnr :: s.theory.addedSets },
        .push tsset.literals defnr false :: .polAdd (.set setnr tsset weighted) :: s.parts⟩

-- the queue comes first
def Adding.step (s : Adding W B) : Option (Adding W B) :=
  match s.theory.tseitinqueue with
  | elem :: queue =>
    (GroundTheory.handle translator nbModelsEquivalent elem { s.theory with tseitinqueue := queue }).map
      fun theory => { s with theory }
  | [] => match s.parts with
    | part :: parts => some ({ s with parts }.addPart translator part)
    | [] => none

end Steps

end Grounding
