import Mathlib.Algebra.Order.Field.Basic
import Mathlib.Data.Rat.Cast.Order

namespace FoBdd

inductive NumType where
  | int
  | float
  deriving DecidableEq, Repr

-- the operations of the standard vocabulary that terms are sorted and collected by
inductive Operation where
  | addition
  | multiplication
  deriving DecidableEq, Repr

-- doubles are exact here
inductive DomainElement where
  | int (value : ℤ)
  | double (value : ℚ)
  deriving DecidableEq, Repr

-- V: variables, F: the other functions, G: aggregate terms, S: sorts. Terms are hashed, so that equal terms
-- are one pointer
mutual

inductive FOBDDTerm (V F G S : Type) where
  | var (v : V)
  | index (sort : S) (i : ℕ)
  | domain (sort : S) (value : DomainElement)
  | arith (op : Operation) (type : NumType) (left right : FOBDDTerm V F G S)
  | func (f : F) (args : FOBDDTerms V F G S)
  | agg (g : G)
  deriving DecidableEq

inductive FOBDDTerms (V F G S : Type) where
  | nil
  | cons (t : FOBDDTerm V F G S) (ts : FOBDDTerms V F G S)
  deriving DecidableEq

end

inductive ArithFunction (F : Type) where
  | arith (op : Operation) (type : NumType)
  | subtraction (type : NumType)
  | unaryMinus (type : NumType)
  | other (f : F)

-- the sorts, and the numbers that terms were given when they were made
structure FuncTerms (V F G S : Type) where
  natsort : S
  intsort : S
  floatsort : S
  isSubsort : S → S → Bool
  resolve : S → S → Option S
  varSort : V → S
  funcSort : F → S
  aggSort : G → S
  before : FOBDDTerm V F G S → FOBDDTerm V F G S → Bool
  setContains : G → FOBDDTerm V F G S → Bool

def createDomElem (q : ℚ) : DomainElement := if q.den = 1 then .int q.num else .double q

def DomainElement.toRat : DomainElement → ℚ
  | .int z => z
  | .double q => q

def Operation.ofInt : Operation → ℤ → ℤ → ℤ
  | .addition, x, y => x + y
  | .multiplication, x, y => x * y

def Operation.ofRat : Operation → ℚ → ℚ → ℚ
  | .addition, x, y => x + y
  | .multiplication, x, y => x * y

-- the table of the integer function reads the integer member of its arguments: no result for a double
def funcTable (op : Operation) : NumType → DomainElement → DomainElement → Option DomainElement
  | .int, .int x, .int y => some (.int (op.ofInt x y))
  | .int, _, _ => none
  | .float, d, d' => some (createDomElem (op.ofRat d.toRat d'.toRat))

namespace FuncTerms

variable {V F G S : Type} (M : FuncTerms V F G S)

def outsort : NumType → S
  | .int => M.intsort
  | .float => M.floatsort

def sort : FOBDDTerm V F G S → S
  | .var v => M.varSort v
  | .index s _ => s
  | .domain s _ => s
  | .arith _ type _ _ => M.outsort type
  | .func f _ => M.funcSort f
  | .agg g => M.aggSort g

-- which of the two functions of an operation a sort leads to
def disambiguate (s : Option S) : Option NumType := do
  let s ← s
  if M.isSubsort s M.intsort then some .int
  else if M.isSubsort s M.floatsort then some .float
  else none

def typeFor (t t' : FOBDDTerm V F G S) : Option NumType := M.disambiguate (M.resolve (M.sort t) (M.sort t'))

def isDomain : FOBDDTerm V F G S → Bool
  | .domain _ _ => true
  | _ => false

def getNeutralElement : Operation → DomainElement
  | .addition => .int 0
  | .multiplication => .int 1

-- CollectSameOperationTerms: the first of the result is a domain term
def getTerms (op : Operation) : FOBDDTerm V F G S → List (FOBDDTerm V F G S)
  | .domain s d => [.domain s d]
  | .arith op' type left right =>
    if op' = op then getTerms op left ++ [right]
    else [.domain M.natsort (getNeutralElement op), .arith op' type left right]
  | t => [.domain M.natsort (getNeutralElement op), t]

def multiplicationBefore (t t' : FOBDDTerm V F G S) : Bool :=
  if isDomain t then (if isDomain t' then M.before t t' else true)
  else if isDomain t' then false
  else M.before t t'

def beforeFrom : List (FOBDDTerm V F G S) → List (FOBDDTerm V F G S) → Bool
  | t :: ts, t' :: ts' =>
    if M.multiplicationBefore t t' then true
    else if M.multiplicationBefore t' t then false
    else beforeFrom ts ts'
  | _, _ => false

def termOrderBefore (t t' : FOBDDTerm V F G S) : Bool :=
  let flat1 := M.getTerms .multiplication t
  let flat2 := M.getTerms .multiplication t'
  if flat1.length < flat2.length then true
  else if flat1.length > flat2.length then false
  else M.beforeFrom flat1.tail flat2.tail

section GetFuncTerm

variable [DecidableEq V] [DecidableEq F] [DecidableEq G] [DecidableEq S]
  (rec : Operation → NumType → FOBDDTerm V F G S → FOBDDTerm V F G S → Option (FOBDDTerm V F G S))

def sortMultiplication (type : NumType) (a b : FOBDDTerm V F G S) : Option (FOBDDTerm V F G S) :=
  match a, b with
  | .arith .multiplication ltype l r, .arith .multiplication _ l' r' => do
    let leftterm := .arith .multiplication ltype l r
    let newleft ← rec .multiplication (← M.typeFor leftterm r') leftterm r'
    rec .multiplication (← M.typeFor newleft l') newleft l'
  | .arith .multiplication ltype l r, b =>
    if M.multiplicationBefore b r then do
      let newleft ← rec .multiplication (← M.typeFor b l) l b
      rec .multiplication (← M.typeFor newleft r) newleft r
    else some (.arith .multiplication type (.arith .multiplication ltype l r) b)
  | .arith .addition ltype l r, b => some (.arith .multiplication type (.arith .addition ltype l r) b)
  | .func f args, b => some (.arith .multiplication type (.func f args) b)
  | a, .arith .multiplication rtype l' r' => rec .multiplication type (.arith .multiplication rtype l' r') a
  | a, b =>
    if M.multiplicationBefore b a then rec .multiplication type b a else some (.arith .multiplication type a b)

def distribute (type : NumType) (a b : FOBDDTerm V F G S) : Option (FOBDDTerm V F G S) :=
  match a, b with
  | .arith .addition ltype l r, b => do
    let newleft ← rec .multiplication type l b
    let newright ← rec .multiplication type r b
    rec .addition ltype newleft newright
  | a, .arith .addition rtype l' r' => do
    let newleft ← rec .multiplication type a l'
    let newright ← rec .multiplication type a r'
    rec .addition rtype newleft newright
  | a, b => sortMultiplication M rec type a b

def multiplication (type : NumType) (a b : FOBDDTerm V F G S) : Option (FOBDDTerm V F G S) :=
  match a, b with
  | .domain s d, b =>
    if d = .int 0 then some (.domain s d)
    else if d = .int 1 then some b
    else match b with
      | .domain _ d' => do some (.domain (M.outsort type) (← funcTable .multiplication type d d'))
      | b => distribute M rec type (.domain s d) b
  | a, .domain s d =>
    if d = .int 0 then some (.domain s d)
    else if d = .int 1 then some a
    else distribute M rec type a (.domain s d)
  | a, b => distribute M rec type a b

def multiplyAll : FOBDDTerm V F G S → List (FOBDDTerm V F G S) → Option (FOBDDTerm V F G S)
  | currterm, [] => some currterm
  | currterm, t :: ts => do
    multiplyAll (← rec .multiplication (← M.typeFor currterm t) currterm t) ts

-- the last addend of a, with those before it
def lastAddend : FOBDDTerm V F G S → Option (FOBDDTerm V F G S) × FOBDDTerm V F G S
  | .arith .addition _ l r => (some l, r)
  | a => (none, a)

def mergeAddends (left : Option (FOBDDTerm V F G S)) (leftflat rightflat : List (FOBDDTerm V F G S)) :
    Option (FOBDDTerm V F G S) :=
  match leftflat, rightflat with
  | c :: factors, c' :: _ => do
    let sum ← rec .addition (← M.typeFor c c') c c'
    let currterm ← multiplyAll M rec sum factors
    match left with
    | some left => rec .addition (← M.typeFor currterm left) left currterm
    | none => some currterm
  | _, _ => none

def addSame (type : NumType) (a b : FOBDDTerm V F G S) : Option (FOBDDTerm V F G S) :=
  let leftflat := M.getTerms .multiplication (lastAddend a).2
  let rightflat := M.getTerms .multiplication b
  if leftflat.length = rightflat.length ∧ leftflat.tail = rightflat.tail then
    mergeAddends M rec (lastAddend a).1 leftflat rightflat
  else some (.arith .addition type a b)

def sortAddition (type : NumType) (a b : FOBDDTerm V F G S) : Option (FOBDDTerm V F G S) :=
  match a, b with
  | .arith .addition ltype l r, .arith .addition _ l' r' => do
    let leftterm := .arith .addition ltype l r
    let newleft ← rec .addition (← M.typeFor leftterm r') leftterm r'
    rec .addition (← M.typeFor newleft l') newleft l'
  | .arith .addition ltype l r, b =>
    if M.termOrderBefore b r then do
      let newleft ← rec .addition (← M.typeFor b l) l b
      rec .addition (← M.typeFor newleft r) newleft r
    else addSame M rec type (.arith .addition ltype l r) b
  | .arith .multiplication ltype l r, b => addSame M rec type (.arith .multiplication ltype l r) b
  | .func f args, b => addSame M rec type (.func f args) b
  | a, .arith .addition rtype l' r' => rec .addition type (.arith .addition rtype l' r') a
  | a, b => if M.termOrderBefore b a then rec .addition type b a else addSame M rec type a b

def addition (type : NumType) (a b : FOBDDTerm V F G S) : Option (FOBDDTerm V F G S) :=
  match a, b with
  | .domain s d, b =>
    if d = .int 0 then some b
    else match b with
      | .domain _ d' => do some (.domain (M.outsort type) (← funcTable .addition type d d'))
      | b => sortAddition M rec type (.domain s d) b
  | a, b => sortAddition M rec type a b

def getArithTerm : ℕ → Operation → NumType → FOBDDTerm V F G S → FOBDDTerm V F G S →
    Option (FOBDDTerm V F G S)
  | 0, _, _, _, _ => none
  | n + 1, .multiplication, type, a, b => multiplication M (getArithTerm n) type a b
  | n + 1, .addition, type, a, b => addition M (getArithTerm n) type a b

def invert (n : ℕ) (arg : FOBDDTerm V F G S) : Option (FOBDDTerm V F G S) := do
  let minus_one_term := .domain M.intsort (.int (-1))
  getArithTerm M n .multiplication (← M.disambiguate (M.resolve M.intsort (M.sort arg))) minus_one_term arg

-- of a manager that rewrites arithmetic
def getFuncTerm (n : ℕ) : ArithFunction F → FOBDDTerms V F G S → Option (FOBDDTerm V F G S)
  | .unaryMinus _, .cons a .nil => M.invert n a
  | .subtraction _, .cons a (.cons b .nil) => do
    let invright ← M.invert n b
    getArithTerm M n .addition (← M.typeFor a invright) a invright
  | .arith op type, .cons a (.cons b .nil) => getArithTerm M n op type a b
  | .other f, args => some (.func f args)
  | _, _ => none

end GetFuncTerm

end FuncTerms

end FoBdd
