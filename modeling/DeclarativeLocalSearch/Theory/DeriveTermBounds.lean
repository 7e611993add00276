import DeclarativeLocalSearch.Theory.Sorts
import Mathlib.Algebra.Order.Ring.Int

namespace Theory

inductive DomainElementType where
  | int
  | double
  | string
  | compound
  deriving DecidableEq, Repr

-- an operation on two numbers that are not there, or on other elements, has no outcome; the outcome
-- is missing when it is too large
structure NumericOperations (D : Type) where
  type : D → DomainElementType
  createDomElem : ℤ → D
  int : D → ℤ
  less : D → D → Bool
  domElemSum : D → D → Option (Option D)
  domElemProd : D → D → Option (Option D)
  domElemPow : D → D → Option (Option D)
  domElemUmin : D → Option D

inductive TableSizeType where
  | approximated
  | infinite
  | exact
  deriving DecidableEq, Repr

structure Tablesize where
  type : TableSizeType
  size : ℤ
  deriving DecidableEq, Repr

def Tablesize.mul (t u : Tablesize) : Tablesize :=
  if u.type = .infinite ∨ t.type = .infinite then ⟨.infinite, t.size⟩
  else if -2 ^ 63 ≤ t.size * u.size ∧ t.size * u.size < 2 ^ 63 then
    if u.type = .approximated ∨ t.type = .approximated then ⟨.approximated, t.size * u.size⟩
    else ⟨.exact, t.size * u.size⟩
  else ⟨.infinite, t.size⟩

-- the tables of the sorts and of the built-in functions, and the sort of an interval, which is added
-- to the vocabulary when it is not there
structure Tables (S F D : Type) extends NumericOperations D where
  approxFinite : S → Bool
  empty : S → Bool
  first : S → D
  last : S → D
  size : S → Tablesize
  funcTable : F → List D → Option D
  vocabulary : S → Bool
  interval : ℤ → ℤ → S

inductive Bounds (D : Type) where
  | underivable
  | between (minimum maximum : Option D)

namespace NumericOperations

variable {D : Type} (N : NumericOperations D)

def max (a b : D) : D := if N.less a b then b else a

def min (a b : D) : D := if N.less b a then b else a

def sum (a b : Option D) : Option (Option D) := do N.domElemSum (← a) (← b)

def prod (a b : Option D) : Option (Option D) := do N.domElemProd (← a) (← b)

def pow (a b : Option D) : Option (Option D) := do N.domElemPow (← a) (← b)

def umin (a : Option D) : Option (Option D) := do some (some (← N.domElemUmin (← a)))

def isPositive (a : Option D) : Option Bool := do some (! N.less (← a) (N.createDomElem 0))

end NumericOperations

namespace DeriveTermBounds

variable {S P F D : Type} [DecidableEq S] (V : SortedVocabulary S P F) (A : Tables S F D)

def visitSort (s : S) : Bounds D :=
  if ! A.approxFinite s || A.empty s then .underivable
  else .between (some (A.first s)) (some (A.last s))

def maxSize (vars : List (Variable S)) : Tablesize :=
  vars.foldl (fun t v => t.mul (A.size v.sort)) ⟨.exact, 1⟩

-- none where a missing bound is used
def visitStandard (function : F) (minimums maximums : List D) : STDFUNC → Option (Bounds D)
  | .addition => some (.between (A.funcTable function minimums) (A.funcTable function maximums))
  | .substraction => do
    let min0 ← minimums[0]?
    let min1 ← minimums[1]?
    let max0 ← maximums[0]?
    let max1 ← maximums[1]?
    some (.between (A.funcTable function [min0, max1]) (A.funcTable function [max0, min1]))
  | .abs => do
    let absmin ← A.funcTable function minimums
    let absmax ← A.funcTable function minimums
    some (.between (some (A.createDomElem 0)) (some (if A.less absmax absmin then absmin else absmax)))
  | .unaryMinus => some (.between (A.funcTable function maximums) (A.funcTable function minimums))
  | .product => do
    let min0 ← minimums[0]?
    let min1 ← minimums[1]?
    let max0 ← maximums[0]?
    let max1 ← maximums[1]?
    match A.funcTable function [min0, min1], A.funcTable function [min0, max1],
      A.funcTable function [max0, min1], A.funcTable function [max0, max1] with
    | some minmin, some minmax, some maxmin, some maxmax =>
      some (.between (some ([minmax, maxmin, maxmax].foldl A.min minmin))
        (some ([minmax, maxmin, maxmax].foldl A.max minmin)))
    | _, _, _, _ => some .underivable
  | .maxElem =>
    let sort := V.outsort function
    some (if A.empty sort then .underivable else .between (some (A.last sort)) (some (A.last sort)))
  | .minElem =>
    let sort := V.outsort function
    some (if A.empty sort then .underivable else .between (some (A.first sort)) (some (A.first sort)))
  | .modulo => do
    let max1 ← maximums[1]?
    some (.between (some max1) (some (A.createDomElem 0)))
  | .division => some .underivable
  | .exponential => some .underivable
  | .successor => some .underivable
  | .predecessor => some .underivable

def visitFunc (function : F) (minimums maximums : List (Option D)) : Option (Bounds D) :=
  match V.stdFunction function, minimums.mapM id, maximums.mapM id with
  | some std, some minimums, some maximums => visitStandard V A function minimums maximums std
  | _, _, _ => some (visitSort A (V.outsort function))

-- what one set adds to the bounds of the aggregate
def visitAggSet (function : AggFunction) (start : Bool) (minimum maximum : Option D) (maxsize : D)
    (current : Option D × Option D) : Option (Option D × Option D) :=
  match function with
  | .card => do
    let currentmax ← A.sum current.2 maxsize
    some (current.1, currentmax)
  | .sum => do
    let neutral := A.createDomElem 0
    let currentmax ← A.sum current.2 (← A.prod maxsize (A.max (← maximum) neutral))
    let currentmin ← A.sum current.1 (← A.prod maxsize (A.min (← minimum) neutral))
    some (currentmin, currentmax)
  | .prod => do
    let neutral := A.createDomElem 1
    let absmax := A.max (A.max (← maximum) neutral) (← A.domElemUmin (← minimum))
    let maxOfThisSet ← A.pow absmax maxsize
    let currentmax ← A.prod current.2 maxOfThisSet
    let minOfThisSet ← bif ← A.isPositive minimum then some (some (A.createDomElem 0)) else A.umin maxOfThisSet
    let negative := ! (← A.isPositive current.1) && ! (← A.isPositive minOfThisSet)
    let factor ← bif negative then A.umin minOfThisSet else some minOfThisSet
    let currentmin ← A.prod current.1 factor
    some (currentmin, currentmax)
  | .min | .max =>
    if start then some (minimum, maximum)
    else do
      let currentmin := A.min (← minimum) (← current.1)
      let currentmax := A.max (← maximum) (← current.2)
      some (some currentmin, some currentmax)

mutual

def visit : Term S P F D → Option (Bounds D)
  | .dom _ d => some (.between (some d) (some d))
  | .var v => some (visitSort A v.sort)
  | .func f args => do
    match ← visitArgs args with
    | none => some .underivable
    | some (minimums, maximums) => visitFunc V A f minimums maximums
  | .agg g sets =>
    let neutral := if g = .prod then A.createDomElem 1 else A.createDomElem 0
    visitSets g true sets (some neutral, some neutral)

def visitArgs : List (Term S P F D) → Option (Option (List (Option D) × List (Option D)))
  | [] => some (some ([], []))
  | t :: ts => do
    match ← visit t with
    | .underivable => some none
    | .between minimum maximum =>
      match ← visitArgs ts with
      | none => some none
      | some (minimums, maximums) => some (some (minimum :: minimums, maximum :: maximums))

def visitSets (g : AggFunction) (start : Bool) :
    List (QuantSetExpr S P F D) → Option D × Option D → Option (Bounds D)
  | [], (currentmin, currentmax) => some (.between currentmin currentmax)
  | s :: ss, current => do
    match ← visitSet s with
    | (.underivable, _) => some .underivable
    | (.between minimum maximum, maxsize) =>
      if maxsize.type ≠ .exact then some .underivable
      else
        let current ← visitAggSet A g start minimum maximum (A.createDomElem maxsize.size) current
        visitSets g false ss current

-- the bounds of the term of the set and the largest size of the set
def visitSet : QuantSetExpr S P F D → Option (Bounds D × Tablesize)
  | .mk vars _ term => do
    let bounds ← visit term
    some (bounds, maxSize A vars)

end

end DeriveTermBounds

section DeriveSmallerSort

variable {S P F D : Type} [DecidableEq S] (V : SortedVocabulary S P F) (A : Tables S F D)

def deriveSmallerSort (term : Term S P F D) : Option S := do
  let sort ← V.termSort term
  let isVar := match term with
    | .var _ => true
    | _ => false
  if isVar || ! V.isSubsort (some A.vocabulary) sort (V.std .int) || A.empty sort then some sort
  else match ← DeriveTermBounds.visit V A term with
    | .between (some minimum) (some maximum) =>
      if A.type minimum = .int ∧ A.type maximum = .int then
        some (A.interval (A.int minimum) (A.int maximum))
      else some sort
    | _ => some sort

end DeriveSmallerSort

namespace DeriveTermBounds

section Contains

variable {S P F D K : Type} [DecidableEq S]

theorem forall₂_of_mapM {R : D → D → Prop} {ms : List (Option D)} {ns ds : List D}
    (h : List.Forall₂ (fun m d => ∀ x ∈ m, R x d) ms ds) (hn : ms.mapM id = some ns) : List.Forall₂ R ns ds := by
  induction h generalizing ns with
  | nil => cases hn; exact .nil
  | cons h _ ih =>
    simp only [List.mapM_cons, id_eq, Option.pure_def, Option.bind_eq_bind, Option.bind_eq_some_iff,
      Option.some.injEq] at hn
    obtain ⟨x, hx, xs, hxs, rfl⟩ := hn
    exact .cons (h x hx) (ih hxs)

theorem pair {R : D → D → Prop} {ns : List D} {x y : D} (h : List.Forall₂ R ns [x, y]) :
    ∃ a b, ns = [a, b] ∧ R a x ∧ R b y := by
  cases h with
  | cons ha h => cases h with
    | cons hb h => cases h with
      | nil => exact ⟨_, _, rfl, ha, hb⟩

variable [LinearOrder D] [CommRing K] [LinearOrder K]

-- a bound that is missing bounds nothing
def Contains : Bounds D → D → Prop
  | .underivable, _ => True
  | .between minimum maximum, d => (∀ m ∈ minimum, m ≤ d) ∧ ∀ m ∈ maximum, d ≤ m

def operation : STDFUNC → Option (K → K → K)
  | .addition => some (· + ·)
  | .substraction => some (· - ·)
  | .product => some (· * ·)
  | _ => none

-- the tables are those of a structure with exact arithmetic
structure Describes (V : SortedVocabulary S P F) (A : Tables S F D) (I : Structure S P F D) (number : D → K → Prop) :
    Prop where
  less : ∀ a b, A.less a b = true ↔ a < b
  order : ∀ {a b k l}, number a k → number b l → (a ≤ b ↔ k ≤ l)
  approx : ∀ {s d}, A.approxFinite s = true → I.sort s d → A.first s ≤ d ∧ d ≤ A.last s
  outsort : ∀ {f ds d}, I.function f ds = some d → I.sort (V.outsort f) d
  table : ∀ {f std}, V.stdFunction f = some std → A.funcTable f = I.function f
  binary : ∀ {f std op ds d}, V.stdFunction f = some std → operation std = some op → I.function f ds = some d →
    ∃ a b k l, ds = [a, b] ∧ number a k ∧ number b l ∧ number d (op k l)
  unaryMinus : ∀ {f ds d}, V.stdFunction f = some .unaryMinus → I.function f ds = some d →
    ∃ a k, ds = [a] ∧ number a k ∧ number d (-k)
  maxElem : ∀ {f ds d}, V.stdFunction f = some .maxElem → I.function f ds = some d → d = A.last (V.outsort f)
  minElem : ∀ {f ds d}, V.stdFunction f = some .minElem → I.function f ds = some d → d = A.first (V.outsort f)
  subsort : ∀ {s t d}, V.isSubsort (some A.vocabulary) s t = true → I.sort s d → I.sort t d
  interval : ∀ {a b d}, A.type a = .int → A.type b = .int → I.sort (V.std .int) d → a ≤ d → d ≤ b →
    I.sort (A.interval (A.int a) (A.int b)) d

-- ABS and MODULO, whose bounds are wrong, do not occur
inductive Arithmetic (V : SortedVocabulary S P F) (I : Structure S P F D) (e : Variable S → D) :
    Term S P F D → Prop
  | var {v : Variable S} : I.sort v.sort (e v) → Arithmetic V I e (.var v)
  | dom {s : S} {d : D} : I.sort s d → Arithmetic V I e (.dom s d)
  | func {f : F} {args : List (Term S P F D)} : V.stdFunction f ≠ some .abs → V.stdFunction f ≠ some .modulo →
      (∀ t ∈ args, Arithmetic V I e t) → Arithmetic V I e (.func f args)

variable {V : SortedVocabulary S P F} {A : Tables S F D} {I : Structure S P F D} {number : D → K → Prop}

theorem Describes.min_eq (h : Describes V A I number) (a b : D) : A.min a b = min b a := by
  simp only [NumericOperations.min, h.less, min_def_lt]

theorem Describes.max_eq (h : Describes V A I number) (a b : D) : A.max a b = max a b := by
  simp only [NumericOperations.max, h.less, max_def_lt]

theorem Describes.outcome (h : Describes V A I number) {f : F} {std : STDFUNC} {op : K → K → K}
    (hf : V.stdFunction f = some std) (hop : operation std = some op) {a b m : D}
    (hm : A.funcTable f [a, b] = some m) : ∃ k l, number a k ∧ number b l ∧ number m (op k l) := by
  rw [h.table hf] at hm
  obtain ⟨_, _, k, l, hds, ha, hb, hm⟩ := h.binary hf hop hm
  cases hds
  exact ⟨k, l, ha, hb, hm⟩

theorem Describes.operands (h : Describes V A I number) {f : F} {std : STDFUNC} {op : K → K → K} {mins maxs ds : List D}
    {d : D} (hf : V.stdFunction f = some std) (hop : operation std = some op) (hd : I.function f ds = some d)
    (hmins : List.Forall₂ (· ≤ ·) mins ds) (hmaxs : List.Forall₂ (· ≥ ·) maxs ds) :
    ∃ x y k l, ds = [x, y] ∧ number x k ∧ number y l ∧ number d (op k l) ∧ ∃ a b, mins = [a, b] ∧ a ≤ x ∧ b ≤ y ∧
      ∃ a' b', maxs = [a', b'] ∧ x ≤ a' ∧ y ≤ b' := by
  obtain ⟨x, y, k, l, rfl, hx, hy, hxy⟩ := h.binary hf hop hd
  obtain ⟨a, b, rfl, hax, hby⟩ := pair hmins
  obtain ⟨a', b', rfl, hxa, hyb⟩ := pair hmaxs
  exact ⟨x, y, k, l, rfl, hx, hy, hxy, a, b, rfl, hax, hby, a', b', rfl, hxa, hyb⟩

theorem Describes.number_unique (h : Describes V A I number) {c : D} {k l : K} (hk : number c k) (hl : number c l) :
    k = l :=
  le_antisymm ((h.order hk hl).mp le_rfl) ((h.order hl hk).mp le_rfl)

theorem visitSort_contains (h : Describes V A I number) {s : S} {d : D} (hd : I.sort s d) :
    Contains (visitSort A s) d := by
  unfold visitSort
  split
  · trivial
  next hs =>
    simp only [Bool.or_eq_true, Bool.not_eq_true', not_or, Bool.not_eq_false] at hs
    simpa [Contains] using h.approx hs.1 hd

variable [IsStrictOrderedRing K]

theorem corner_le {a x c b y d : K} (hx : a ≤ x) (hx' : x ≤ c) (hy : b ≤ y) (hy' : y ≤ d) :
    c * d ≤ x * y ∨ c * b ≤ x * y ∨ a * d ≤ x * y ∨ a * b ≤ x * y := by
  rcases le_total 0 y with h | h
  · have side := mul_le_mul_of_nonneg_right hx h
    rcases le_total 0 a with ha | ha
    · exact Or.inr (Or.inr (Or.inr ((mul_le_mul_of_nonneg_left hy ha).trans side)))
    · exact Or.inr (Or.inr (Or.inl ((mul_le_mul_of_nonpos_left hy' ha).trans side)))
  · have side := mul_le_mul_of_nonpos_right hx' h
    rcases le_total 0 c with hc | hc
    · exact Or.inr (Or.inl ((mul_le_mul_of_nonneg_left hy hc).trans side))
    · exact Or.inl ((mul_le_mul_of_nonpos_left hy' hc).trans side)

theorem le_corner {a x c b y d : K} (hx : a ≤ x) (hx' : x ≤ c) (hy : b ≤ y) (hy' : y ≤ d) :
    x * y ≤ a * d ∨ x * y ≤ a * b ∨ x * y ≤ c * d ∨ x * y ≤ c * b := by
  simpa only [neg_mul, neg_le_neg_iff] using corner_le (neg_le_neg hx') (neg_le_neg hx) hy hy'

theorem product_contains (h : Describes V A I number) {f : F} {a x a' b y b' d mm mM Mm MM : D} {k l : K}
    (hf : V.stdFunction f = some .product) (hx : number x k) (hy : number y l) (hxy : number d (k * l)) (hax : a ≤ x)
    (hxa : x ≤ a') (hby : b ≤ y) (hyb : y ≤ b') (hmm : A.funcTable f [a, b] = some mm)
    (hmM : A.funcTable f [a, b'] = some mM) (hMm : A.funcTable f [a', b] = some Mm)
    (hMM : A.funcTable f [a', b'] = some MM) :
    Contains (.between (some ([mM, Mm, MM].foldl A.min mm)) (some ([mM, Mm, MM].foldl A.max mm))) d := by
  obtain ⟨p, q, hp, hq, hmm⟩ := h.outcome hf rfl hmm
  obtain ⟨p', q', hp', hq', hMM⟩ := h.outcome hf rfl hMM
  obtain ⟨r, s, hr, hs, hmM⟩ := h.outcome hf rfl hmM
  obtain ⟨r', s', hr', hs', hMm⟩ := h.outcome hf rfl hMm
  cases h.number_unique hp hr
  cases h.number_unique hq' hs
  cases h.number_unique hp' hr'
  cases h.number_unique hq hs'
  have low := corner_le ((h.order hp hx).mp hax) ((h.order hx hp').mp hxa) ((h.order hq hy).mp hby)
    ((h.order hy hq').mp hyb)
  have high := le_corner ((h.order hp hx).mp hax) ((h.order hx hp').mp hxa) ((h.order hq hy).mp hby)
    ((h.order hy hq').mp hyb)
  rw [← h.order hMM hxy, ← h.order hMm hxy, ← h.order hmM hxy, ← h.order hmm hxy] at low
  rw [← h.order hxy hmm, ← h.order hxy hmM, ← h.order hxy hMm, ← h.order hxy hMM] at high
  simp only [Contains, List.foldl_cons, List.foldl_nil, h.min_eq, h.max_eq, Option.mem_def, Option.some.injEq,
    forall_eq', min_le_iff, le_max_iff]
  exact ⟨low, by rcases high with h | h | h | h <;> simp [h]⟩

theorem visitStandard_contains (h : Describes V A I number) {f : F} {std : STDFUNC} {mins maxs ds : List D} {d : D}
    {bounds : Bounds D} (hf : V.stdFunction f = some std) (habs : std ≠ .abs) (hmod : std ≠ .modulo)
    (hmins : List.Forall₂ (· ≤ ·) mins ds) (hmaxs : List.Forall₂ (· ≥ ·) maxs ds) (hd : I.function f ds = some d)
    (hb : visitStandard V A f mins maxs std = some bounds) : Contains bounds d := by
  cases std with
  | abs => exact absurd rfl habs
  | modulo => exact absurd rfl hmod
  | addition =>
    obtain ⟨x, y, k, l, rfl, hx, hy, hxy, a, b, rfl, hax, hby, a', b', rfl, hxa, hyb⟩ :=
      h.operands hf rfl hd hmins hmaxs
    cases hb
    constructor <;> intro m hm <;> obtain ⟨p, q, hp, hq, hm⟩ := h.outcome hf rfl hm
    · exact (h.order hm hxy).mpr (add_le_add ((h.order hp hx).mp hax) ((h.order hq hy).mp hby))
    · exact (h.order hxy hm).mpr (add_le_add ((h.order hx hp).mp hxa) ((h.order hy hq).mp hyb))
  | substraction =>
    obtain ⟨x, y, k, l, rfl, hx, hy, hxy, a, b, rfl, hax, hby, a', b', rfl, hxa, hyb⟩ :=
      h.operands hf rfl hd hmins hmaxs
    cases hb
    constructor <;> intro m hm <;> obtain ⟨p, q, hp, hq, hm⟩ := h.outcome hf rfl hm
    · exact (h.order hm hxy).mpr (sub_le_sub ((h.order hp hx).mp hax) ((h.order hy hq).mp hyb))
    · exact (h.order hxy hm).mpr (sub_le_sub ((h.order hx hp).mp hxa) ((h.order hq hy).mp hby))
  | product =>
    obtain ⟨x, y, k, l, rfl, hx, hy, hxy, a, b, rfl, hax, hby, a', b', rfl, hxa, hyb⟩ :=
      h.operands hf rfl hd hmins hmaxs
    simp only [visitStandard, List.getElem?_cons_zero, List.getElem?_cons_succ, Option.bind_eq_bind,
      Option.bind_some] at hb
    split at hb
    next hmm hmM hMm hMM => cases hb; exact product_contains h hf hx hy hxy hax hxa hby hyb hmm hmM hMm hMM
    next => cases hb; trivial
  | unaryMinus =>
    obtain ⟨x, k, rfl, hx, hxk⟩ := h.unaryMinus hf hd
    cases hb
    constructor <;> intro m hm <;> rw [h.table hf] at hm <;> obtain ⟨a, p, rfl, hp, hm⟩ := h.unaryMinus hf hm
    · cases hmaxs with
      | cons ha _ => exact (h.order hm hxk).mpr (neg_le_neg ((h.order hx hp).mp ha))
    · cases hmins with
      | cons ha _ => exact (h.order hxk hm).mpr (neg_le_neg ((h.order hp hx).mp ha))
  | maxElem =>
    cases hb
    split
    · trivial
    · simp [Contains, h.maxElem hf hd]
  | minElem =>
    cases hb
    split
    · trivial
    · simp [Contains, h.minElem hf hd]
  | division | exponential | successor | predecessor => cases hb; trivial

theorem visitArgs_contains {e : Variable S → D} {ts : List (Term S P F D)} {mins maxs : List (Option D)} {ds : List D}
    (ht : ∀ t ∈ ts, ∀ {d bounds}, I.value t e = some d → visit V A t = some bounds → Contains bounds d)
    (hds : (I.values ts e).mapM id = some ds) (hb : visitArgs V A ts = some (some (mins, maxs))) :
    List.Forall₂ (fun m d => ∀ x ∈ m, x ≤ d) mins ds ∧ List.Forall₂ (fun m d => ∀ x ∈ m, x ≥ d) maxs ds := by
  induction ts generalizing mins maxs ds with
  | nil =>
    cases hb
    cases hds
    exact ⟨.nil, .nil⟩
  | cons t ts ih =>
    simp only [Structure.values, List.mapM_cons, id_eq, Option.pure_def, Option.bind_eq_bind, Option.bind_eq_some_iff,
      Option.some.injEq] at hds
    obtain ⟨d, hd, ds, hds, rfl⟩ := hds
    simp only [visitArgs, Option.bind_eq_bind, Option.bind_eq_some_iff] at hb
    obtain ⟨bounds, hbounds, hb⟩ := hb
    have hc := ht t List.mem_cons_self hd hbounds
    cases bounds with
    | underivable => cases hb
    | between minimum maximum =>
      simp only [Option.bind_eq_some_iff] at hb
      obtain ⟨rest, hrest, hb⟩ := hb
      cases rest with
      | none => cases hb
      | some rest =>
        cases hb
        obtain ⟨hl, hr⟩ := ih (fun t h => ht t (List.mem_cons_of_mem _ h)) hds hrest
        exact ⟨.cons hc.1 hl, .cons hc.2 hr⟩

theorem visit_contains (h : Describes V A I number) {e : Variable S → D} {t : Term S P F D}
    (ht : Arithmetic V I e t) :
    ∀ {d bounds}, I.value t e = some d → visit V A t = some bounds → Contains bounds d := by
  induction ht with
  | var hv =>
    intro d bounds hd hb
    cases hd
    cases hb
    exact visitSort_contains h hv
  | dom =>
    intro d bounds hd hb
    cases hd
    cases hb
    simp [Contains]
  | @func f args habs hmod _ ih =>
    intro d bounds hd hb
    simp only [Structure.value, Option.bind_eq_bind, Option.bind_eq_some_iff] at hd
    obtain ⟨ds, hds, hd⟩ := hd
    simp only [visit, Option.bind_eq_bind, Option.bind_eq_some_iff] at hb
    obtain ⟨args', hargs, hb⟩ := hb
    cases args' with
    | none => cases hb; trivial
    | some args' =>
      obtain ⟨hmins, hmaxs⟩ := visitArgs_contains ih hds hargs
      simp only [visitFunc] at hb
      split at hb
      next std mins maxs hf hm hM =>
        exact visitStandard_contains h hf (fun hs => habs (hs ▸ hf)) (fun hs => hmod (hs ▸ hf))
          (forall₂_of_mapM hmins hm) (forall₂_of_mapM hmaxs hM) hd hb
      next => cases hb; exact visitSort_contains h (h.outsort hd)

end Contains

end DeriveTermBounds

section Keeps

open DeriveTermBounds

variable {S P F D K : Type} [DecidableEq S] [LinearOrder D] [CommRing K] [LinearOrder K] [IsStrictOrderedRing K]
variable {V : SortedVocabulary S P F} {A : Tables S F D} {I : Structure S P F D} {number : D → K → Prop}

theorem deriveSmallerSort_keeps (h : Describes V A I number) {e : Variable S → D} {t : Term S P F D}
    (ht : Arithmetic V I e t) {d : D} (hd : I.value t e = some d) {s : S}
    (hs : deriveSmallerSort V A t = some s) : I.sort s d := by
  have own : ∀ {s}, V.termSort t = some s → I.sort s d := by
    intro s hs
    cases ht with
    | var hv => cases hs; cases hd; exact hv
    | dom hsort => cases hs; cases hd; exact hsort
    | func =>
      cases hs
      simp only [Structure.value, Option.bind_eq_bind, Option.bind_eq_some_iff] at hd
      obtain ⟨ds, -, hd⟩ := hd
      exact h.outsort hd
  simp only [deriveSmallerSort, Option.bind_eq_bind, Option.bind_eq_some_iff] at hs
  obtain ⟨sort, hsort, hs⟩ := hs
  split at hs
  next => exact own (hsort.trans (by simpa using hs))
  next =>
    split at hs
    next => cases hs; exact own hsort
    next hc =>
      simp only [Bool.false_or, Bool.or_eq_true, Bool.not_eq_true', not_or, Bool.not_eq_false] at hc
      obtain ⟨bounds, hb, hs⟩ := Option.bind_eq_some_iff.mp hs
      have hin := visit_contains h ht hd hb
      split at hs
      next minimum maximum =>
        split at hs
        next hint =>
          cases hs
          exact h.interval hint.1 hint.2 (h.subsort hc.1 (own hsort)) (hin.1 _ rfl) (hin.2 _ rfl)
        next => cases hs; exact own hsort
      next => cases hs; exact own hsort

-- the intervals of the integers
def intervals : SortedVocabulary (Option (ℤ × ℤ)) Empty Unit where
  parents s := if s.isSome then [none] else []
  height s := if s.isSome then 1 else 0
  height_lt := by rintro (_ | _) <;> simp
  std _ := none
  outsort _ := none
  sort _ _ := none
  stdFunction _ := some .product

def products : Structure (Option (ℤ × ℤ)) Empty Unit ℤ where
  sort s d := ∀ i ∈ s, i.1 ≤ d ∧ d ≤ i.2
  isEmpty s := s.any fun i => decide (i.2 < i.1)
  isEmpty_iff := by
    rintro (_ | ⟨a, b⟩)
    · simp
    · simp only [Option.any_some, decide_eq_true_eq, Option.mem_def, Option.some.injEq, forall_eq', not_and, not_le]
      exact ⟨fun h d hd => h.trans_le hd, fun h => h a le_rfl⟩
  less a b := a < b
  predicate p := p.elim
  function
    | _, [a, b] => some (a * b)
    | _, _ => none
  aggregate _ _ := none

def intervalTables : Tables (Option (ℤ × ℤ)) Unit ℤ where
  type _ := .int
  createDomElem := id
  int := id
  less a b := decide (a < b)
  domElemSum a b := some (some (a + b))
  domElemProd a b := some (some (a * b))
  domElemPow a b := some (some (a ^ b.toNat))
  domElemUmin a := some (-a)
  approxFinite s := s.isSome
  empty := products.isEmpty
  first s := s.elim 0 Prod.fst
  last s := s.elim 0 Prod.snd
  size s := s.elim ⟨.infinite, 0⟩ fun i => ⟨.exact, i.2 - i.1 + 1⟩
  funcTable := products.function
  vocabulary _ := true
  interval a b := some (a, b)

theorem intervalTables_describes : Describes intervals intervalTables products fun a (k : ℤ) => a = k where
  less := by simp [intervalTables]
  order := by
    rintro a b _ _ rfl rfl
    exact Iff.rfl
  approx := by
    rintro (_ | i) d hs hd
    · cases hs
    · exact hd i rfl
  outsort := by simp [products, intervals]
  table _ := rfl
  binary := by
    intro f std op ds d hf hop hd
    cases hf
    cases hop
    simp only [products] at hd
    split at hd
    next a b => cases hd; exact ⟨a, b, a, b, rfl, rfl, rfl, rfl⟩
    next => cases hd
  unaryMinus := by simp [intervals]
  maxElem := by simp [intervals]
  minElem := by simp [intervals]
  subsort := by
    intro s t d hst hd i hi
    obtain rfl : t = some i := hi
    cases s with
    | none => simp [SortedVocabulary.isSubsort, SortedVocabulary.reaches, intervals] at hst
    | some j =>
      have same : j = i := by
        simpa [SortedVocabulary.isSubsort, SortedVocabulary.reaches, intervals, intervalTables] using hst
      exact same ▸ hd j rfl
  interval := by
    intro a b d _ _ _ ha hb i hi
    cases hi
    exact ⟨ha, hb⟩

-- a product of -2..3 and -5..4 is in -15..12
theorem deriveSmallerSort_product : products.sort (some (-15, 12)) (-8) :=
  deriveSmallerSort_keeps intervalTables_describes (e := fun v => if v.id = 0 then -2 else 4)
    (t := .func () [.var ⟨0, some (-2, 3)⟩, .var ⟨1, some (-5, 4)⟩])
    (.func (by simp [intervals]) (by simp [intervals])
      (by
        simp only [List.forall_mem_cons]
        exact ⟨.var (by simp [products]), .var (by simp [products]), by simp⟩))
    (by simp [products, Structure.value, Structure.values]) (by decide)

end Keeps

end Theory
