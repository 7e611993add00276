import DeclarativeLocalSearch.Propagation.Domains
import DeclarativeLocalSearch.Theory.NormalForm

namespace Propagation

open Theory

variable {N S P F D : Type}

inductive FOPropDirection where
  | up
  | down
  deriving DecidableEq, Repr

inductive InitBoundType where
  | twoVal
  | both
  | ct
  | cf
  | none
  deriving DecidableEq, Repr

structure FOPropagation (N : Type) where
  parent : N
  direction : FOPropDirection
  ct : Bool
  child : Option N

-- the formulas of the theory and the leaf connectors by their addresses, as the factory connects them
structure Network (N S P F D : Type) where
  formula : N → Formula S P F D
  subformulas : N → List N
  upward : N → Option N
  connector : PFSymbol S P F → N
  leafupward : N → List N
  builtin : PFSymbol S P F → Bool

structure TypedFOPropagator (N : Type) (K : FOPropDomainFactory S P F D) where
  domains : N → ThreeValuedDomain K
  maxsteps : ℤ
  scheduler : List (FOPropagation N)

-- the atom of a symbol in the theory and the symbol's own atom
structure LeafConnectData (N : Type) (K : FOPropDomainFactory S P F D) where
  connector : N
  equalities : K.Domain
  leaftoconnector : List (Variable S × Variable S)
  connectortoleaf : List (Variable S × Variable S)

namespace Network

variable [DecidableEq N] [DecidableEq S] (X : Network N S P F D) (K : FOPropDomainFactory S P F D)

section Leaves

-- every argument is a variable
def atomVariables : Formula S P F D → List (Variable S)
  | .pred _ _ args => args.filterMap fun t => t.freeVars.head?
  | _ => []

def connectVariable (data : K.Domain × List (Variable S × Variable S)) (connectvar leafvar : Variable S) :
    K.Domain × List (Variable S × Variable S) :=
  match data.2.lookup leafvar with
  | none => (data.1, data.2 ++ [(leafvar, connectvar)])
  | some other =>
    (K.conjunction data.1 (K.formuladomain (.eqChain .pos true [.eq] [.var connectvar, .var other])), data.2)

def checkSort (equalities : K.Domain) (connectvar leafvar : Variable S) : K.Domain :=
  if leafvar.sort ≠ connectvar.sort
  then K.conjunction equalities (K.formuladomain (.pred .pos (.sort leafvar.sort) [.var connectvar]))
  else equalities

def connectVariables : List (Variable S × Variable S) → K.Domain × List (Variable S × Variable S) →
    K.Domain × List (Variable S × Variable S)
  | [], data => data
  | (connectvar, leafvar) :: l, data =>
    let data := connectVariable K data connectvar leafvar
    connectVariables l (checkSort K data.1 connectvar leafvar, data.2)

-- the data of the non-builtin atoms of the theory
def leafconnectdata [DecidableEq P] [DecidableEq F] (pf : N) : Option (LeafConnectData N K) :=
  match X.formula pf with
  | .pred _ symbol _ =>
    if X.builtin symbol || pf = X.connector symbol then none
    else
      let connector := X.formula (X.connector symbol)
      let pairs := (atomVariables connector).zip (atomVariables (X.formula pf))
      let data := connectVariables K pairs (K.trueDomain connector.freeVars, [])
      some ⟨X.connector symbol, data.1, data.2, pairs⟩
  | _ => none

end Leaves

section Update

variable {K} (admissible : AdmissibleBoundChecker K)

def schedule (p : FOPropagation N) (σ : TypedFOPropagator N K) : TypedFOPropagator N K :=
  if σ.maxsteps ≤ 0 then σ else { σ with maxsteps := σ.maxsteps - 1, scheduler := σ.scheduler ++ [p] }

def scheduleAll (ps : List (FOPropagation N)) (σ : TypedFOPropagator N K) : TypedFOPropagator N K :=
  ps.foldl (fun σ p => schedule p σ) σ

def setBound (f : N) (ct : Bool) (d : K.Domain) (σ : TypedFOPropagator N K) : TypedFOPropagator N K :=
  { σ with
    domains := Function.update σ.domains f
      (if ct then { σ.domains f with ctdomain := d } else { σ.domains f with cfdomain := d }) }

-- downward to the other children
def siblings (f : N) (dir : FOPropDirection) (ct : Bool) (child : Option N) : List (FOPropagation N) :=
  match dir, child with
  | .up, some c => ((X.subformulas f).filter (· ≠ c)).map fun subf => ⟨f, .down, !ct, some subf⟩
  | _, _ => []

-- further from the formula whose domain has changed
def onward (f : N) (dir : FOPropDirection) (ct : Bool) (child : Option N) : List (FOPropagation N) :=
  match dir with
  | .down => (X.subformulas f).map (fun subf => ⟨f, .down, ct, some subf⟩) ++
    match X.formula f with
    | .pred _ symbol _ =>
      if X.leafupward f ≠ [] then
        ((X.leafupward f).filter fun formula => some formula ≠ child).map fun formula => ⟨formula, .up, ct, some f⟩
      else if X.builtin symbol then [] else [⟨f, .down, ct, none⟩]
    | _ => []
  | .up => (X.upward f).toList.map fun parent => ⟨parent, .up, ct, some f⟩

def updateDomain (f : N) (dir : FOPropDirection) (ct : Bool) (newdomain : K.Domain) (child : Option N)
    (σ : TypedFOPropagator N K) : TypedFOPropagator N K :=
  let olddom := (σ.domains f).bound ct
  let newdom := K.disjunction olddom newdomain
  let σ := scheduleAll (X.siblings f dir ct child) σ
  if K.approxequals olddom newdom || ! admissible newdom (some olddom) then σ
  else scheduleAll (X.onward f dir ct child) (setBound f ct newdom σ)

end Update

section Visit

variable {K} (admissible : AdmissibleBoundChecker K) (existsOnlyOneLeft : Bool)

-- the variables of the formula that its child does not have
def quantvars (f child : N) : List (Variable S) :=
  (X.formula f).freeVars.filter (· ∉ (X.formula child).freeVars)

def visitPred [DecidableEq P] [DecidableEq F] (pf : N) (sign : SIGN) (dir : FOPropDirection) (ct : Bool)
    (σ : TypedFOPropagator N K) : TypedFOPropagator N K :=
  match X.leafconnectdata K pf with
  | none => σ
  | some lcd =>
    match dir with
    | .down =>
      if (σ.domains lcd.connector).twovalued then σ
      else
        let deriveddomain := K.conjunction ((σ.domains pf).bound ct) lcd.equalities
        let deriveddomain := K.substitute deriveddomain lcd.leaftoconnector
        X.updateDomain admissible lcd.connector .down (ct == decide (sign = .pos)) deriveddomain (some pf) σ
    | .up =>
      if (σ.domains pf).twovalued then σ
      else
        let deriveddomain := K.substitute ((σ.domains lcd.connector).bound ct) lcd.connectortoleaf
        X.updateDomain admissible pf .up (ct == decide (sign = .pos)) deriveddomain none σ

def visitEquivChild (ef : N) (sign : SIGN) (left right : N) (dir : FOPropDirection) (ct : Bool) (child : N)
    (σ : TypedFOPropagator N K) : TypedFOPropagator N K :=
  let otherchild := if child = left then right else left
  let tvd := σ.domains otherchild
  match dir with
  | .down =>
    let parentdomain := (σ.domains ef).bound ct
    let qvars := X.quantvars ef child
    let domain1 := addAllToExists K admissible (K.conjunction parentdomain tvd.ctdomain) qvars
    let domain2 := addAllToExists K admissible (K.conjunction parentdomain tvd.cfdomain) qvars
    let σ := X.updateDomain admissible child .down (ct == decide (sign = .pos)) domain1 none σ
    X.updateDomain admissible child .down (ct != decide (sign = .pos)) domain2 none σ
  | .up =>
    let childdomain := (σ.domains child).bound ct
    let domain1 := K.conjunction childdomain tvd.ctdomain
    let domain2 := K.conjunction childdomain tvd.cfdomain
    let σ := X.updateDomain admissible ef .up (ct == decide (sign = .pos)) domain1 (some child) σ
    X.updateDomain admissible ef .up (ct != decide (sign = .pos)) domain2 (some child) σ

-- without a child both are visited, and the right one once more
def visitEquiv (ef : N) (sign : SIGN) (dir : FOPropDirection) (ct : Bool) (child : Option N)
    (σ : TypedFOPropagator N K) : TypedFOPropagator N K :=
  match X.subformulas ef with
  | [left, right] =>
    match child with
    | some child => X.visitEquivChild admissible ef sign left right dir ct child σ
    | none =>
      let σ := X.visitEquivChild admissible ef sign left right dir ct left σ
      let σ := X.visitEquivChild admissible ef sign left right dir ct right σ
      X.visitEquivChild admissible ef sign left right dir ct right σ
  | _ => σ

def boolDown (bf : N) (sign : SIGN) (conj ct : Bool) (σ : TypedFOPropagator N K) (subform : N) (n : ℕ) : K.Domain :=
  let bfdomain := (σ.domains bf).bound ct
  let longnewdomain : Bool := ct != (conj == decide (sign = .pos))
  let subdomains := (X.subformulas bf).map fun subf => (σ.domains subf).bound (ct != decide (sign = .pos))
  let deriveddomain := if longnewdomain then (subdomains.eraseIdx n).foldl K.conjunction bfdomain else bfdomain
  addAllToExists K admissible deriveddomain (X.quantvars bf subform)

def visitBool (bf : N) (sign : SIGN) (conj : Bool) (dir : FOPropDirection) (ct : Bool) (child : Option N)
    (σ : TypedFOPropagator N K) : TypedFOPropagator N K :=
  match dir with
  | .down => (X.subformulas bf).zipIdx.foldl (fun σ' (subform, n) =>
      if (child = none ∨ child = some subform) ∧ (σ'.domains subform).twovalued = false then
        X.updateDomain admissible subform .down (ct == decide (sign = .pos))
          (X.boolDown admissible bf sign conj ct σ subform n) none σ'
      else σ') σ
  | .up =>
    if ct = conj then
      let subdomains := (X.subformulas bf).map fun subf => (σ.domains subf).bound ct
      let deriveddomain := subdomains.foldl K.conjunction (K.trueDomain (X.formula bf).freeVars)
      X.updateDomain admissible bf .up (ct == decide (sign = .pos)) deriveddomain child σ
    else
      match child with
      | some c => X.updateDomain admissible bf .up (ct == decide (sign = .pos)) ((σ.domains c).bound ct) child σ
      | none => σ

-- all but one of the values of the variables are excluded
def onlyOneLeft (qf sub : N) (quantVars : List (Variable S)) (ct : Bool) (σ : TypedFOPropagator N K) : K.Domain :=
  let n := firstFree (quantVars ++ (X.formula sub).freeVars)
  let equal := fun var => K.formuladomain (.eqChain .pos true [.eq] [.var var, .var (fresh n var)])
  let conjdomain := (quantVars.map equal).foldl K.conjunction (K.trueDomain (X.formula sub).freeVars)
  let substdomain := K.substitute ((σ.domains qf).bound !ct) (quantVars.map fun var => (var, fresh n var))
  let univdomain := addAllToForall K admissible (K.disjunction conjdomain substdomain) (quantVars.map (fresh n))
  let deriveddomain := K.conjunction ((σ.domains qf).bound ct) univdomain
  (quantVars.filter (· ∉ (X.formula sub).freeVars)).foldl (addToExists K) deriveddomain

def visitQuant (qf : N) (sign : SIGN) (q : QUANT) (quantVars : List (Variable S)) (dir : FOPropDirection) (ct : Bool)
    (σ : TypedFOPropagator N K) : TypedFOPropagator N K :=
  match X.subformulas qf with
  | [sub] =>
    match dir with
    | .down =>
      if ct ≠ (decide (sign = .pos) == q.isUniv) then
        if existsOnlyOneLeft then
          X.updateDomain admissible sub .down (ct == decide (sign = .pos)) (X.onlyOneLeft admissible qf sub quantVars ct σ)
            none σ
        else σ
      else X.updateDomain admissible sub .down (ct == decide (sign = .pos)) ((σ.domains qf).bound ct) none σ
    | .up =>
      let deriveddomain := (σ.domains sub).bound ct
      let deriveddomain := if ct = q.isUniv then addAllToForall K admissible deriveddomain quantVars
        else addAllToExists K admissible deriveddomain quantVars
      X.updateDomain admissible qf .up (ct == decide (sign = .pos)) deriveddomain none σ
  | _ => σ

-- comparison chains are refused when the propagator is made, and aggregates give nothing
def visit [DecidableEq P] [DecidableEq F] (p : FOPropagation N) (σ : TypedFOPropagator N K) : TypedFOPropagator N K :=
  match X.formula p.parent with
  | .pred sign _ _ => X.visitPred admissible p.parent sign p.direction p.ct σ
  | .eqChain _ _ _ _ => σ
  | .equiv sign _ _ => X.visitEquiv admissible p.parent sign p.direction p.ct p.child σ
  | .bool sign conj _ => X.visitBool admissible p.parent sign conj p.direction p.ct p.child σ
  | .quant sign q vars _ => X.visitQuant admissible existsOnlyOneLeft p.parent sign q vars p.direction p.ct σ
  | .agg _ _ _ _ _ => σ

end Visit

section Create

variable {K} (sentences : List N) (initbounds : PFSymbol S P F → InitBoundType)

def connectorDomain (symbol : PFSymbol S P F) (connector : Formula S P F D) : ThreeValuedDomain K :=
  let args := match connector with
    | .pred _ _ args => args
    | _ => []
  match initbounds symbol with
  | .twoVal => ⟨K.formuladomain connector, K.formuladomain connector.negate, true⟩
  | .both => ⟨K.ctDomain symbol args, K.cfDomain symbol args, false⟩
  | .ct => ⟨K.ctDomain symbol args, K.falseDomain connector.freeVars, false⟩
  | .cf => ⟨K.falseDomain connector.freeVars, K.cfDomain symbol args, false⟩
  | .none => ⟨K.falseDomain connector.freeVars, K.falseDomain connector.freeVars, false⟩

def formulaDomain (f : Formula S P F D) : ThreeValuedDomain K := ⟨K.formuladomain f, K.formuladomain f.negate, true⟩

def unknownDomain (f : Formula S P F D) : ThreeValuedDomain K :=
  ⟨K.falseDomain f.freeVars, K.falseDomain f.freeVars, false⟩

-- sentences are true; builtin atoms below another formula and empty connectives are two-valued
def initialDomain (n : N) : ThreeValuedDomain K :=
  let f := X.formula n
  if n ∈ sentences then ⟨K.trueDomain f.freeVars, K.falseDomain f.freeVars, true⟩
  else match f with
  | .pred _ symbol _ =>
    if X.builtin symbol then if (X.upward n).isSome then formulaDomain f else unknownDomain f
    else if n = X.connector symbol then connectorDomain initbounds symbol f
    else unknownDomain f
  | .bool _ _ [] => formulaDomain f
  | _ => unknownDomain f

def initialPropagations (n : N) : List (FOPropagation N) :=
  (if n ∈ sentences then [⟨n, .down, true, none⟩] else []) ++
    match X.formula n with
    | .pred _ symbol _ =>
      if X.builtin symbol then
        (X.upward n).toList.flatMap fun parent => [⟨parent, .up, true, some n⟩, ⟨parent, .up, false, some n⟩]
      else [⟨n, .up, true, some (X.connector symbol)⟩, ⟨n, .up, false, some (X.connector symbol)⟩]
    | _ => []

-- the formulas of the theory as they are visited; a comparison chain is not implemented
def create (maxsteps : ℤ) (visited : List N) : Option (TypedFOPropagator N K) :=
  let chain := fun n => match X.formula n with
    | .eqChain _ _ _ _ => true
    | _ => false
  if visited.any chain then none
  else some (scheduleAll (visited.flatMap (X.initialPropagations sentences))
    ⟨X.initialDomain sentences initbounds, maxsteps, []⟩)

end Create

-- any scheduled propagation may be next
inductive Step [DecidableEq P] [DecidableEq F] {K : FOPropDomainFactory S P F D} (admissible : AdmissibleBoundChecker K)
    (existsOnlyOneLeft : Bool) : FOPropagation N → TypedFOPropagator N K → TypedFOPropagator N K → Prop
  | next {before after : List (FOPropagation N)} {p : FOPropagation N} {σ : TypedFOPropagator N K}
      (h : σ.scheduler = before ++ p :: after) :
      Step admissible existsOnlyOneLeft p σ
        (X.visit admissible existsOnlyOneLeft p { σ with scheduler := before ++ after })

end Network

end Propagation
