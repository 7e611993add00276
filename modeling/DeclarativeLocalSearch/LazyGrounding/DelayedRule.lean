import DeclarativeLocalSearch.LazyGrounding.GroundDefinition
import DeclarativeLocalSearch.LazyGrounding.LazyGroundingManager

namespace LazyGrounding

open Grounding (Lit)

variable {Q D : Type} {arity : Q → ℕ}

inductive HeadArg (D : Type) where
  | var (v : ℕ)
  | dom (d : D)

structure ConjOrDisj where
  literals : List Lit
  conj : Bool

-- the quantified variables that are not in the head are quantified in the body
structure RuleGrounder (arity : Q → ℕ) (D : Type) where
  symbol : Q
  args : List (HeadArg D)
  args_length : args.length = arity symbol
  sort : ℕ → SortTable D
  body : (ℕ → Option D) → ConjOrDisj
  body_congr : ∀ σ σ', (∀ v, .var v ∈ args → σ v = σ' v) → body σ = body σ'

def trueLit : Lit := ⟨true, 2147483647⟩

def falseLit : Lit := -trueLit

def useUFSAndOnlyIfSem : Bool := false

def positions (args : List (HeadArg D)) (v : ℕ) : List ℕ :=
  args.zipIdx.filterMap fun
    | (.var w, i) => if w = v then some i else none
    | (.dom _, _) => none

def headVars (args : List (HeadArg D)) : List ℕ :=
  args.filterMap fun
    | .var v => some v
    | .dom _ => none

def samevalues (args : List (HeadArg D)) : List (List ℕ) := (headVars args).dedup.map (positions args)

-- the containers of the arguments, where those of one variable are the same
def setContainers : List (HeadArg D) → List D → (ℕ → Option D) → ℕ → Option D
  | .var v :: args, d :: ds, σ => setContainers args ds (Function.update σ v (some d))
  | .dom _ :: args, _ :: ds, σ => setContainers args ds σ
  | _, _, σ => σ

section Ground

variable [DecidableEq D]

def matchesHead (args : List (HeadArg D)) (headinst : List D) : Bool :=
  ((samevalues args).all fun list => list.all fun i => headinst[i]? == list.head?.bind (headinst[·]?)) &&
    (args.zip headinst).all fun
      | (.dom e, d) => d == e
      | (.var _, _) => true

-- the body without the literals for true and false
def ConjOrDisj.erase (body : ConjOrDisj) : ConjOrDisj :=
  let lits := body.literals.filter fun lit => lit ≠ trueLit ∧ lit ≠ falseLit
  let allfalse := body.literals.all fun lit => lit = falseLit
  ⟨lits, if body.literals ≠ [] ∧ lits = [] then ! allfalse else body.conj⟩

variable [DecidableEq Q]

def RuleGrounder.groundForSetHeadInstance (rule : RuleGrounder arity D) (containers : ℕ → Option D)
    (head : Literal arity D) (headinst : List D) (d : GroundDefinition (Literal arity D)) (T : Translator) :
    GroundDefinition (Literal arity D) × Translator :=
  if matchesHead rule.args headinst then
    let body := (rule.body containers).erase
    d.addPCRule head body.literals body.conj true T
  else (d, T)

end Ground

structure DelayedRule (arity : Q → ℕ) (D : Type) where
  rule : RuleGrounder arity D
  construction : ℕ
  containers : ℕ → Option D
  grounded : List (List D)
  alreadygroundedlits : List (Literal arity D)

abbrev Atom (arity : Q → ℕ) (D : Type) := (symbol : Q) × ElementTuple arity D symbol

def Literal.atom (lit : Literal arity D) : Atom arity D := ⟨lit.symbol, lit.args⟩

-- the solver makes an atom of the head, without its sign
def PCGroundRule.createAtom (r : PCGroundRule (Literal arity D)) : PCGroundRule (Atom arity D) :=
  ⟨r.head.atom, r.conj, r.body, r.recursive⟩

-- the manager, as far as it is about definitions
structure RuleManager (arity : Q → ℕ) (D : Type) where
  symbol2knownlits : (symbol : Q) → Bool → List (ElementTuple arity D symbol)
  alreadygroundedlits : List (Literal arity D)
  rules : List (DelayedRule arity D)
  symbol2watchedrules : Q → Bool → List ℕ
  tempdefs : ℕ → GroundDefinition (Literal arity D)
  translator : Translator
  solver : ℕ → List (PCGroundRule (Atom arity D))

variable [DecidableEq Q] [DecidableEq D]

local instance tuples_lawfulBEq : LawfulBEq (List D) := inferInstance

-- a rule with a false body, and the instance of the rule
def DelayedRule.notifyHeadFired (head : Literal arity D) (r : DelayedRule arity D)
    (d : GroundDefinition (Literal arity D)) (T : Translator) :
    DelayedRule arity D × GroundDefinition (Literal arity D) × Translator :=
  if head.args.1 ∈ r.grounded then (r, d, T)
  else
    let containers := setContainers r.rule.args head.args.1 r.containers
    let added := d.addPCRule head [] false false T
    ({ r with containers, grounded := head.args.1 :: r.grounded },
      r.rule.groundForSetHeadInstance containers head head.args.1 added.1 added.2)

def DelayedRule.specificFire (head : Literal arity D) (r : DelayedRule arity D)
    (d : GroundDefinition (Literal arity D)) (T : Translator) :
    DelayedRule arity D × GroundDefinition (Literal arity D) × Translator :=
  if head ∈ r.alreadygroundedlits then (r, d, T)
  else { r with alreadygroundedlits := head :: r.alreadygroundedlits }.notifyHeadFired head d T

namespace RuleManager

def specificFire (index : ℕ) (lit : Literal arity D) (m : RuleManager arity D) : RuleManager arity D :=
  match m.rules[index]? with
  | none => m
  | some r =>
    let (r', d, T) := r.specificFire lit (m.tempdefs r.construction) m.translator
    { m with
      rules := m.rules.set index r'
      tempdefs := Function.update m.tempdefs r.construction d
      translator := T }

def addKnown (lit : Literal arity D) (m : RuleManager arity D) : RuleManager arity D :=
  if lit ∈ m.alreadygroundedlits then m
  else { m with
    symbol2knownlits := Function.update m.symbol2knownlits lit.symbol
      (Function.update (m.symbol2knownlits lit.symbol) lit.value
        (m.symbol2knownlits lit.symbol lit.value ++ [lit.args]))
    alreadygroundedlits := lit :: m.alreadygroundedlits }

def fired (lit : Literal arity D) (m : RuleManager arity D) : RuleManager arity D :=
  let m := m.addKnown lit
  (m.symbol2watchedrules lit.symbol lit.value).foldl (fun m index => m.specificFire index lit) m

def fireAllKnown (index : ℕ) (symbol : Q) (watchedvalue : Bool) (m : RuleManager arity D) : RuleManager arity D :=
  (m.symbol2knownlits symbol watchedvalue).foldl (fun m args => m.specificFire index ⟨symbol, args, watchedvalue⟩) m

def watch (index : ℕ) (symbol : Q) (watchedvalue : Bool) (m : RuleManager arity D) : RuleManager arity D :=
  { m with
    symbol2watchedrules := Function.update m.symbol2watchedrules symbol
      (Function.update (m.symbol2watchedrules symbol) watchedvalue
        (m.symbol2watchedrules symbol watchedvalue ++ [index])) }

def delayRule (construction : ℕ) (rule : RuleGrounder arity D) (m : RuleManager arity D) : RuleManager arity D :=
  let index := m.rules.length
  let m : RuleManager arity D := { m with rules := m.rules ++ [⟨rule, construction, fun _ => none, [], []⟩] }
  let m := (m.watch index rule.symbol true).fireAllKnown index rule.symbol true
  if useUFSAndOnlyIfSem then m else (m.watch index rule.symbol false).fireAllKnown index rule.symbol false

-- the rules of a definition that are delayed
def delay (construction : ℕ) (rules : List (RuleGrounder arity D)) (m : RuleManager arity D) : RuleManager arity D :=
  rules.foldl (fun m rule => m.delayRule construction rule) m

-- the rules that were made go to the solver
def flush (m : RuleManager arity D) : RuleManager arity D :=
  { m with
    tempdefs := fun _ => []
    solver := fun construction => m.solver construction ++ (m.tempdefs construction).map PCGroundRule.createAtom }

-- the head is not watched for another definition
def canwatch (construction : ℕ) (symbol : Q) (m : RuleManager arity D) : Bool :=
  [true, false].all fun watchedvalue => (m.symbol2watchedrules symbol watchedvalue).all fun index =>
    m.rules[index]?.map (·.construction) == some construction

-- the functions that go to the solver as terms are not watched
def delayable (cpfunction : Q → Bool) (construction : ℕ) (m : RuleManager arity D) (symbol : Q) : Bool :=
  ! cpfunction symbol && m.canwatch construction symbol

def start : RuleManager arity D := ⟨fun _ _ => [], [], [], fun _ _ => [], fun _ => [], ⟨0, []⟩, fun _ => []⟩

end RuleManager

inductive RuleEvent (arity : Q → ℕ) (D : Type) where
  | delay (construction : ℕ) (delayable : Q → Bool)
  | fired (lit : Literal arity D)
  | flush

def RuleManager.handle (definition : ℕ → List (RuleGrounder arity D)) (m : RuleManager arity D) :
    RuleEvent arity D → RuleManager arity D
  | .delay construction delayable =>
    m.delay construction ((definition construction).filter fun rule => delayable rule.symbol)
  | .fired lit => m.fired lit
  | .flush => m.flush

end LazyGrounding
