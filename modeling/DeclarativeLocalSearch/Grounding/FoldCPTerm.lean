import DeclarativeLocalSearch.Grounding.TwinTermGrounder
import Mathlib.Data.Fintype.Card

namespace FoldCPTerm

open TwinTermGrounder (Machine wrap wrap_eq_iff)

-- true, false, an atom with its sign, or the literal that reify gives for the conjunction of two literals
inductive Lit where
  | tt
  | ff
  | atom (positive : Bool) (n : ℕ)
  | reified (l r : Lit)
  deriving DecidableEq

def conjunction (l r : Lit) : Lit :=
  if l = .tt then r
  else if l = .ff then l
  else if r = .tt then l
  else if r = .ff then r
  else .reified l r

structure SumElement where
  condition : Lit
  varid : ℕ
  weight : ℤ

structure ProdElement where
  condition : Lit
  varid : ℕ

inductive CPTerm where
  | var (varid : ℕ)
  | sum (elements : List SumElement)
  | prod (elements : List ProdElement) (weight : ℤ)
  | extremum (max : Bool) (elements : List ProdElement)

section Source

variable {ι : Type} [DecidableEq ι]

-- the variable equals a term, or the term is the variable itself and equals a number
inductive Relation (ι : Type) where
  | term (left : ι)
  | value (left : ι) (n : ℤ)

def Relation.left : Relation ι → ι
  | term left => left
  | value left _ => left

-- the elements of a domain that has an exact size
structure Translator (ι : Type) where
  cprelation : ℕ → Option (Relation ι)
  domain : ℕ → Option (List ℤ)

-- a term that takes the place of an element, with what the place had
inductive Splice where
  | sum (weight : ℤ) (nested : List SumElement)
  | factor (weight n : ℤ) (condition : Lit) (nested : ℤ)
  | prod (condition : Lit) (weight nested : ℤ)

structure State (ι : Type) where
  terms : ι → CPTerm
  folded : Finset ι
  emitted : ℕ
  splices : List Splice

def State.mark (t : ι) (s : State ι) : State ι := { s with folded := insert t s.folded }

def State.store (t : ι) (term : CPTerm) (s : State ι) : State ι := { s with terms := Function.update s.terms t term }

def State.log (x : Splice) (s : State ι) : State ι := { s with splices := s.splices ++ [x] }

-- the terms of the constraints that are added for literals and variables on the way, which are folded as well
variable (tr : Translator ι) (added : ℕ → List ι) (fold : ι → State ι → Option (ι × State ι))

def foldAll : List ι → State ι → Option (State ι)
  | [], s => some s
  | t :: ts, s => do
    let (_, s) ← fold t s
    foldAll ts s

def emit (s : State ι) : Option (State ι) := foldAll fold (added s.emitted) { s with emitted := s.emitted + 1 }

-- a product of a number and a term
def factor (e : SumElement) (number term : ProdElement) (nested : ℤ) : Option (List SumElement × Splice) :=
  match tr.domain number.varid with
  | some [n] =>
    if number.condition = .tt ∧ (e.condition = .tt ∨ term.condition = .tt) then
      some ([⟨if e.condition = .tt then term.condition else e.condition, term.varid, wrap (e.weight * n)⟩],
        .factor e.weight n term.condition nested)
    else none
  | _ => none

def spliceSum (e : SumElement) : CPTerm → Option (List SumElement × Splice)
  | .sum nested =>
    some (nested.map fun e' => ⟨conjunction e.condition e'.condition, e'.varid, wrap (e.weight * e'.weight)⟩,
      .sum e.weight nested)
  | .prod [one, two] nested => (factor tr e one two nested).or (factor tr e two one nested)
  | _ => none

def foldSumElement (e : SumElement) (s : State ι) : Option (List SumElement × State ι) :=
  match tr.cprelation e.varid with
  | none => do
    let s ← emit added fold s
    some ([e], s)
  | some cprelation => do
    let (left, s) ← fold cprelation.left s
    match spliceSum tr e (s.terms left) with
    | some (elements, x) => some (elements, s.log x)
    | none => do
      let s ← emit added fold s
      some ([e], s)

def foldSum : List SumElement → State ι → Option (List SumElement × State ι)
  | [], s => some ([], s)
  | e :: elements, s => do
    let (new, s) ← foldSumElement tr added fold e s
    let (rest, s) ← foldSum elements s
    some (new ++ rest, s)

def foldProdElement (e : ProdElement) (newweight : ℤ) (s : State ι) : Option (List ProdElement × ℤ × State ι) :=
  match tr.cprelation e.varid with
  | none => do
    let s ← emit added fold s
    some ([e], newweight, s)
  | some cprelation => do
    let (left, s) ← fold cprelation.left s
    match s.terms left with
    | .prod nested weight => some (nested, wrap (newweight * weight), s.log (.prod e.condition newweight weight))
    | _ => do
      let s ← emit added fold s
      some ([e], newweight, s)

def foldProd : List ProdElement → ℤ → State ι → Option (List ProdElement × ℤ × State ι)
  | [], newweight, s => some ([], newweight, s)
  | e :: elements, newweight, s => do
    let (new, newweight, s) ← foldProdElement tr added fold e newweight s
    let (rest, newweight, s) ← foldProd elements newweight s
    some (new ++ rest, newweight, s)

def foldVar (t : ι) (varid : ℕ) (s : State ι) : Option (ι × State ι) :=
  match tr.cprelation varid with
  | none => some (t, s)
  | some cprelation => do
    let (replacement, s) ← fold cprelation.left s
    match s.terms replacement, cprelation with
    | .var _, _ => some (t, s)
    | _, .term _ => some (replacement, s)
    -- an internal exception
    | _, .value _ _ => none

def foldCPTerm : ℕ → ι → State ι → Option (ι × State ι)
  | 0, _, _ => none
  | fuel + 1, t, s =>
    if t ∈ s.folded then some (t, s)
    else
      match s.terms t with
      | .var varid => foldVar tr (foldCPTerm fuel) t varid (s.mark t)
      | .sum elements => do
        let s ← emit added (foldCPTerm fuel) (s.mark t)
        let (elements, s) ← foldSum tr added (foldCPTerm fuel) elements s
        let s ← emit added (foldCPTerm fuel) (s.store t (.sum elements))
        some (t, s)
      | .prod elements weight => do
        let s ← emit added (foldCPTerm fuel) (s.mark t)
        let (elements, weight, s) ← foldProd tr added (foldCPTerm fuel) elements weight s
        let s ← emit added (foldCPTerm fuel) (s.store t (.prod elements weight))
        some (t, s)
      | .extremum _ _ => do
        let s ← emit added (foldCPTerm fuel) (s.mark t)
        some (t, s)

end Source

section Meaning

variable {ι : Type}

-- the extremum of the elements whose condition holds is whatever it is for none
structure Assignment where
  lit : ℕ → Bool
  var : ℕ → ℤ
  extremum : Bool → List ℤ → ℤ

variable (A : Assignment)

def Lit.eval : Lit → Bool
  | tt => true
  | ff => false
  | atom positive n => if positive then A.lit n else ! A.lit n
  | reified l r => l.eval && r.eval

def SumElement.value (e : SumElement) : ℤ := if e.condition.eval A then e.weight * A.var e.varid else 0

def ProdElement.value (e : ProdElement) : ℤ := if e.condition.eval A then A.var e.varid else 1

def CPTerm.value : CPTerm → ℤ
  | var varid => A.var varid
  | sum elements => (elements.map (SumElement.value A)).sum
  | prod elements weight => weight * (elements.map (ProdElement.value A)).prod
  | extremum max elements =>
    A.extremum max ((elements.filter fun e => e.condition.eval A).map fun e => A.var e.varid)

-- the variables have the values of the terms that define them, and values in their domains
structure Consistent (tr : Translator ι) (terms : ι → CPTerm) : Prop where
  term : ∀ v left, tr.cprelation v = some (.term left) → A.var v = (terms left).value A
  value : ∀ v left n, tr.cprelation v = some (.value left n) → A.var v = n ∧ (terms left).value A = n
  domain : ∀ v ns, tr.domain v = some ns → A.var v ∈ ns

-- what a splice asks of the place and of the term for the value to stay
def Splice.Exact : Splice → Prop
  | sum weight nested => ∀ e ∈ nested, Machine (weight * e.weight)
  | factor weight n condition nested => condition = .tt ∧ nested = 1 ∧ Machine (weight * n)
  | prod condition weight nested => condition = .tt ∧ Machine (weight * nested)

variable {A} {tr : Translator ι}

theorem eval_conjunction (l r : Lit) : (conjunction l r).eval A = (l.eval A && r.eval A) := by
  unfold conjunction
  split_ifs with h1 h2 h3 h4 <;> simp_all [Lit.eval]

theorem sum_scale (c : Bool) (w : ℤ) (nested : List SumElement) :
    (nested.map fun e => if c && e.condition.eval A then w * e.weight * A.var e.varid else 0).sum =
      if c then w * (nested.map (SumElement.value A)).sum else 0 := by
  induction nested with
  | nil => cases c <;> simp
  | cons e nested ih =>
    rw [List.map_cons, List.sum_cons, ih, List.map_cons, List.sum_cons, SumElement.value]
    cases c <;> cases e.condition.eval A <;> simp [mul_add, mul_assoc]

theorem factor_value {e : SumElement} {number term : ProdElement} {nested : ℤ} {elements : List SumElement} {x : Splice}
    (h : factor tr e number term nested = some (elements, x)) (hx : x.Exact)
    (hdomain : ∀ v ns, tr.domain v = some ns → A.var v ∈ ns)
    (hvar : A.var e.varid = nested * (number.value A * term.value A)) :
    (elements.map (SumElement.value A)).sum = e.value A := by
  unfold factor at h
  split at h
  · next n hn =>
    have hcond : number.condition = .tt ∧ (e.condition = .tt ∨ term.condition = .tt) := by
      by_contra hcond
      rw [if_neg hcond] at h
      cases h
    rw [if_pos hcond] at h
    obtain ⟨rfl, rfl⟩ := Prod.mk.inj (Option.some.inj h)
    obtain ⟨hterm, rfl, hmachine⟩ := hx
    have hnumber : A.var number.varid = n := by simpa using hdomain _ _ hn
    have heval : (if e.condition = Lit.tt then term.condition else e.condition).eval A = e.condition.eval A := by
      split_ifs with he
      · rw [hterm, he]
      · rfl
    have hvalue : A.var e.varid = n * A.var term.varid := by
      rw [hvar, ProdElement.value, ProdElement.value, hcond.1, hterm, hnumber]
      simp [Lit.eval]
    simp only [List.map_cons, List.map_nil, List.sum_cons, List.sum_nil, add_zero, SumElement.value, heval,
      wrap_eq_iff.2 hmachine, hvalue, mul_assoc]
  · cases h

theorem spliceSum_value {e : SumElement} {term : CPTerm} {elements : List SumElement} {x : Splice}
    (h : spliceSum tr e term = some (elements, x)) (hx : x.Exact)
    (hdomain : ∀ v ns, tr.domain v = some ns → A.var v ∈ ns) (hvar : A.var e.varid = term.value A) :
    (elements.map (SumElement.value A)).sum = e.value A := by
  unfold spliceSum at h
  split at h
  · next nested =>
    obtain ⟨rfl, rfl⟩ := Prod.mk.inj (Option.some.inj h)
    rw [SumElement.value, hvar, CPTerm.value, ← sum_scale, List.map_map]
    congr 1
    refine List.map_congr_left fun e' he' => ?_
    simp only [Function.comp, SumElement.value, eval_conjunction, wrap_eq_iff.2 (hx e' he')]
  · next one two nested =>
    rw [CPTerm.value] at hvar
    simp only [List.map_cons, List.map_nil, List.prod_cons, List.prod_nil, mul_one] at hvar
    rcases Option.or_eq_some_iff.1 h with h | ⟨-, h⟩
    · exact factor_value h hx hdomain hvar
    · exact factor_value h hx hdomain (hvar.trans (by rw [mul_comm (one.value A)]))
  · cases h

end Meaning

set_option linter.unusedSectionVars false

section Values

variable {ι : Type} [DecidableEq ι] {tr : Translator ι} {added : ℕ → List ι}
variable {fold : ι → State ι → Option (ι × State ι)} {A : Assignment} {s s' s'' : State ι}

def State.Exact (s : State ι) : Prop := ∀ x ∈ s.splices, x.Exact

theorem Consistent.of_values (h : Consistent A tr s.terms) (hsame : ∀ t, (s'.terms t).value A = (s.terms t).value A) :
    Consistent A tr s'.terms where
  term v left hv := (h.term v left hv).trans (hsame left).symm
  value v left n hv := ⟨(h.value v left n hv).1, (hsame left).trans (h.value v left n hv).2⟩
  domain := h.domain

theorem Consistent.var_eq (h : Consistent A tr s.terms) {v : ℕ} {cprelation : Relation ι}
    (hrel : tr.cprelation v = some cprelation) : A.var v = (s.terms cprelation.left).value A := by
  cases cprelation with
  | term left => exact h.term v left hrel
  | value left n => exact (h.value v left n hrel).1.trans (h.value v left n hrel).2.symm

-- the splices are recorded, and if they are exact every term keeps its value
structure Steps (tr : Translator ι) (s s' : State ι) : Prop where
  splices : s.splices <+: s'.splices
  values : s'.Exact → ∀ A, Consistent A tr s.terms → ∀ t, (s'.terms t).value A = (s.terms t).value A

theorem Steps.exact (h : Steps tr s s') (hexact : s'.Exact) : s.Exact := fun x hx => hexact x (h.splices.subset hx)

theorem Steps.consistent (h : Steps tr s s') (hexact : s'.Exact) (hA : Consistent A tr s.terms) :
    Consistent A tr s'.terms := hA.of_values (h.values hexact A hA)

theorem Steps.of_terms (hterms : s'.terms = s.terms) (hsplices : s.splices <+: s'.splices) : Steps tr s s' :=
  ⟨hsplices, fun _ A _ t => by rw [hterms]⟩

theorem Steps.refl (s : State ι) : Steps tr s s := .of_terms rfl (List.prefix_refl _)

theorem Steps.trans (h : Steps tr s s') (h' : Steps tr s' s'') : Steps tr s s'' := by
  refine ⟨h.splices.trans h'.splices, fun hexact A hA t => ?_⟩
  have hexact' := h'.exact hexact
  rw [h'.values hexact A (h.consistent hexact' hA) t, h.values hexact' A hA t]

theorem steps_mark (t : ι) (s : State ι) : Steps tr s (s.mark t) := .of_terms rfl (List.prefix_refl _)

theorem steps_log (x : Splice) (s : State ι) : Steps tr s (s.log x) := .of_terms rfl (List.prefix_append _ _)

-- folding gives steps, and a term with the value of the one that was given
def Folds (tr : Translator ι) (fold : ι → State ι → Option (ι × State ι)) : Prop :=
  ∀ t s r s', fold t s = some (r, s') → Steps tr s s' ∧
    (s'.Exact → ∀ A, Consistent A tr s.terms → (s'.terms r).value A = (s.terms t).value A)

theorem foldAll_steps (hfold : Folds tr fold) {ts : List ι} (h : foldAll fold ts s = some s') : Steps tr s s' := by
  induction ts generalizing s with
  | nil =>
    obtain rfl := Option.some.inj h
    exact .refl s
  | cons t ts ih =>
    simp only [foldAll, Option.bind_eq_bind, Option.bind_eq_some_iff] at h
    obtain ⟨⟨r, s₁⟩, h₁, h⟩ := h
    exact (hfold t s r s₁ h₁).1.trans (ih h)

theorem emit_steps (hfold : Folds tr fold) (h : emit added fold s = some s') : Steps tr s s' := by
  have hcount : Steps tr s { s with emitted := s.emitted + 1 } := .of_terms rfl (List.prefix_refl _)
  exact hcount.trans (foldAll_steps hfold h)

theorem foldSumElement_spec (hfold : Folds tr fold) {e : SumElement} {elements : List SumElement}
    (h : foldSumElement tr added fold e s = some (elements, s')) :
    Steps tr s s' ∧ (s'.Exact → ∀ A, Consistent A tr s.terms →
      (elements.map (SumElement.value A)).sum = e.value A) := by
  unfold foldSumElement at h
  split at h
  · simp only [Option.bind_eq_bind, Option.bind_eq_some_iff] at h
    obtain ⟨s₁, h₁, h⟩ := h
    obtain ⟨rfl, rfl⟩ := Prod.mk.inj (Option.some.inj h)
    exact ⟨emit_steps hfold h₁, fun _ A _ => by simp⟩
  · next cprelation hrel =>
    simp only [Option.bind_eq_bind, Option.bind_eq_some_iff] at h
    obtain ⟨⟨left, s₁⟩, h₁, h⟩ := h
    obtain ⟨hsteps, hleft⟩ := hfold _ _ _ _ h₁
    split at h
    · next elements' x hsplice =>
      obtain ⟨rfl, rfl⟩ := Prod.mk.inj (Option.some.inj h)
      refine ⟨hsteps.trans (steps_log x s₁), fun hexact A hA => ?_⟩
      have hx : x.Exact := hexact x (List.mem_append_right _ (List.mem_singleton_self _))
      have hexact₁ := (steps_log x s₁ : Steps tr _ _).exact hexact
      refine spliceSum_value hsplice hx hA.domain ?_
      rw [hleft hexact₁ A hA]
      exact hA.var_eq hrel
    · simp only [Option.bind_eq_some_iff] at h
      obtain ⟨s₂, h₂, h⟩ := h
      obtain ⟨rfl, rfl⟩ := Prod.mk.inj (Option.some.inj h)
      exact ⟨hsteps.trans (emit_steps hfold h₂), fun _ A _ => by simp⟩

theorem foldSum_spec (hfold : Folds tr fold) {elements elements' : List SumElement}
    (h : foldSum tr added fold elements s = some (elements', s')) :
    Steps tr s s' ∧ (s'.Exact → ∀ A, Consistent A tr s.terms →
      (elements'.map (SumElement.value A)).sum = (elements.map (SumElement.value A)).sum) := by
  induction elements generalizing s elements' with
  | nil =>
    obtain ⟨rfl, rfl⟩ := Prod.mk.inj (Option.some.inj h)
    exact ⟨.refl s, fun _ A _ => rfl⟩
  | cons e elements ih =>
    simp only [foldSum, Option.bind_eq_bind, Option.bind_eq_some_iff] at h
    obtain ⟨⟨new, s₁⟩, h₁, ⟨rest, s₂⟩, h₂, h⟩ := h
    obtain ⟨rfl, rfl⟩ := Prod.mk.inj (Option.some.inj h)
    obtain ⟨hsteps₁, hvalue₁⟩ := foldSumElement_spec hfold h₁
    obtain ⟨hsteps₂, hvalue₂⟩ := ih h₂
    refine ⟨hsteps₁.trans hsteps₂, fun hexact A hA => ?_⟩
    have hexact₁ := hsteps₂.exact hexact
    rw [List.map_append, List.sum_append, List.map_cons, List.sum_cons, hvalue₁ hexact₁ A hA,
      hvalue₂ hexact A (hsteps₁.consistent hexact₁ hA)]

theorem foldProdElement_spec (hfold : Folds tr fold) {e : ProdElement} {elements : List ProdElement} {w w' : ℤ}
    (h : foldProdElement tr added fold e w s = some (elements, w', s')) :
    Steps tr s s' ∧ (s'.Exact → ∀ A, Consistent A tr s.terms →
      w' * (elements.map (ProdElement.value A)).prod = w * e.value A) := by
  unfold foldProdElement at h
  split at h
  · simp only [Option.bind_eq_bind, Option.bind_eq_some_iff] at h
    obtain ⟨s₁, h₁, h⟩ := h
    simp only [Option.some.injEq, Prod.mk.injEq] at h
    obtain ⟨rfl, rfl, rfl⟩ := h
    exact ⟨emit_steps hfold h₁, fun _ A _ => by simp⟩
  · next cprelation hrel =>
    simp only [Option.bind_eq_bind, Option.bind_eq_some_iff] at h
    obtain ⟨⟨left, s₁⟩, h₁, h⟩ := h
    obtain ⟨hsteps, hleft⟩ := hfold _ _ _ _ h₁
    split at h
    · next nested weight hterm =>
      simp only [Option.some.injEq, Prod.mk.injEq] at h
      obtain ⟨rfl, rfl, rfl⟩ := h
      refine ⟨hsteps.trans (steps_log _ s₁), fun hexact A hA => ?_⟩
      obtain ⟨hcond, hmachine⟩ : (Splice.prod e.condition w weight).Exact :=
        hexact _ (List.mem_append_right _ (List.mem_singleton_self _))
      have hexact₁ := (steps_log _ s₁ : Steps tr _ _).exact hexact
      have hvar : A.var e.varid = weight * (nested.map (ProdElement.value A)).prod := by
        rw [hA.var_eq hrel, ← hleft hexact₁ A hA, hterm, CPTerm.value]
      rw [wrap_eq_iff.2 hmachine, ProdElement.value, hcond, hvar, mul_assoc]
      simp [Lit.eval]
    · simp only [Option.bind_eq_some_iff] at h
      obtain ⟨s₂, h₂, h⟩ := h
      simp only [Option.some.injEq, Prod.mk.injEq] at h
      obtain ⟨rfl, rfl, rfl⟩ := h
      exact ⟨hsteps.trans (emit_steps hfold h₂), fun _ A _ => by simp⟩

theorem foldProd_spec (hfold : Folds tr fold) {elements elements' : List ProdElement} {w w' : ℤ}
    (h : foldProd tr added fold elements w s = some (elements', w', s')) :
    Steps tr s s' ∧ (s'.Exact → ∀ A, Consistent A tr s.terms →
      w' * (elements'.map (ProdElement.value A)).prod = w * (elements.map (ProdElement.value A)).prod) := by
  induction elements generalizing s elements' w with
  | nil =>
    simp only [foldProd, Option.some.injEq, Prod.mk.injEq] at h
    obtain ⟨rfl, rfl, rfl⟩ := h
    exact ⟨.refl s, fun _ A _ => rfl⟩
  | cons e elements ih =>
    simp only [foldProd, Option.bind_eq_bind, Option.bind_eq_some_iff] at h
    obtain ⟨⟨new, w₁, s₁⟩, h₁, ⟨rest, w₂, s₂⟩, h₂, h⟩ := h
    simp only [Option.some.injEq, Prod.mk.injEq] at h
    obtain ⟨rfl, rfl, rfl⟩ := h
    obtain ⟨hsteps₁, hvalue₁⟩ := foldProdElement_spec hfold h₁
    obtain ⟨hsteps₂, hvalue₂⟩ := ih h₂
    refine ⟨hsteps₁.trans hsteps₂, fun hexact A hA => ?_⟩
    have hexact₁ := hsteps₂.exact hexact
    have hvalue₁ := hvalue₁ hexact₁ A hA
    have hvalue₂ := hvalue₂ hexact A (hsteps₁.consistent hexact₁ hA)
    rw [List.map_append, List.prod_append, List.map_cons, List.prod_cons, ← mul_assoc w, ← hvalue₁, mul_left_comm,
      hvalue₂, mul_left_comm, mul_assoc]

theorem foldVar_spec (hfold : Folds tr fold) {t r : ι} {v : ℕ} (hterm : s.terms t = .var v)
    (h : foldVar tr fold t v s = some (r, s')) :
    Steps tr s s' ∧ (s'.Exact → ∀ A, Consistent A tr s.terms → (s'.terms r).value A = (s.terms t).value A) := by
  unfold foldVar at h
  split at h
  · obtain ⟨rfl, rfl⟩ := Prod.mk.inj (Option.some.inj h)
    exact ⟨.refl s, fun _ A _ => rfl⟩
  · next cprelation hrel =>
    simp only [Option.bind_eq_bind, Option.bind_eq_some_iff] at h
    obtain ⟨⟨replacement, s₁⟩, h₁, h⟩ := h
    obtain ⟨hsteps, hvalue⟩ := hfold _ _ _ _ h₁
    split at h
    · obtain ⟨rfl, rfl⟩ := Prod.mk.inj (Option.some.inj h)
      exact ⟨hsteps, fun hexact A hA => hsteps.values hexact A hA t⟩
    · obtain ⟨rfl, rfl⟩ := Prod.mk.inj (Option.some.inj h)
      refine ⟨hsteps, fun hexact A hA => ?_⟩
      rw [hvalue hexact A hA, ← hA.var_eq hrel, hterm, CPTerm.value]
    · cases h

theorem Steps.store (h : Steps tr s s') {t : ι} {term : CPTerm}
    (hvalue : s'.Exact → ∀ A, Consistent A tr s.terms → term.value A = (s.terms t).value A) :
    Steps tr s (s'.store t term) := by
  refine ⟨h.splices, fun hexact A hA t' => ?_⟩
  by_cases heq : t' = t
  · subst heq
    simpa [State.store] using hvalue hexact A hA
  · simpa [State.store, heq] using h.values hexact A hA t'

theorem foldCPTerm_folds (tr : Translator ι) (added : ℕ → List ι) (fuel : ℕ) : Folds tr (foldCPTerm tr added fuel) := by
  induction fuel with
  | zero => exact fun _ _ _ _ h => nomatch h
  | succ fuel ih =>
    intro t s r s' h
    rw [foldCPTerm] at h
    split_ifs at h with hfolded
    · obtain ⟨rfl, rfl⟩ := Prod.mk.inj (Option.some.inj h)
      exact ⟨.refl s, fun _ A _ => rfl⟩
    split at h
    · next varid hterm =>
      obtain ⟨hsteps, hvalue⟩ := foldVar_spec (s := s.mark t) ih hterm h
      exact ⟨(steps_mark t s).trans hsteps, hvalue⟩
    · next elements hterm =>
      simp only [Option.bind_eq_bind, Option.bind_eq_some_iff] at h
      obtain ⟨s₁, h₁, ⟨elements', s₂⟩, h₂, s₃, h₃, h⟩ := h
      obtain ⟨rfl, rfl⟩ := Prod.mk.inj (Option.some.inj h)
      have hbefore := (steps_mark t s : Steps tr _ _).trans (emit_steps ih h₁)
      obtain ⟨hsteps, hvalue⟩ := foldSum_spec ih h₂
      have hstore : Steps tr s (s₂.store t (.sum elements')) := by
        refine (hbefore.trans hsteps).store fun hexact A hA => ?_
        rw [hterm, CPTerm.value, CPTerm.value]
        exact hvalue hexact A (hbefore.consistent (hsteps.exact hexact) hA)
      have hall := hstore.trans (emit_steps ih h₃)
      exact ⟨hall, fun hexact A hA => hall.values hexact A hA t⟩
    · next elements weight hterm =>
      simp only [Option.bind_eq_bind, Option.bind_eq_some_iff] at h
      obtain ⟨s₁, h₁, ⟨elements', weight', s₂⟩, h₂, s₃, h₃, h⟩ := h
      obtain ⟨rfl, rfl⟩ := Prod.mk.inj (Option.some.inj h)
      have hbefore := (steps_mark t s : Steps tr _ _).trans (emit_steps ih h₁)
      obtain ⟨hsteps, hvalue⟩ := foldProd_spec ih h₂
      have hstore : Steps tr s (s₂.store t (.prod elements' weight')) := by
        refine (hbefore.trans hsteps).store fun hexact A hA => ?_
        rw [hterm, CPTerm.value, CPTerm.value]
        exact hvalue hexact A (hbefore.consistent (hsteps.exact hexact) hA)
      have hall := hstore.trans (emit_steps ih h₃)
      exact ⟨hall, fun hexact A hA => hall.values hexact A hA t⟩
    · simp only [Option.bind_eq_bind, Option.bind_eq_some_iff] at h
      obtain ⟨s₁, h₁, h⟩ := h
      obtain ⟨rfl, rfl⟩ := Prod.mk.inj (Option.some.inj h)
      have hsteps := (steps_mark t s : Steps tr _ _).trans (emit_steps ih h₁)
      exact ⟨hsteps, fun hexact A hA => hsteps.values hexact A hA t⟩

end Values

section Termination

variable {ι : Type} [DecidableEq ι] [Fintype ι] {tr : Translator ι} (added : ℕ → List ι)
variable {fold : ι → State ι → Option (ι × State ι)} {s s' s'' : State ι} {n : ℕ}

def State.unmarked (s : State ι) : ℕ := (Finset.univ \ s.folded).card

-- the left side for a variable with a number is that variable
def Own (tr : Translator ι) (s : State ι) : Prop :=
  ∀ v left n, tr.cprelation v = some (.value left n) → s.terms left = .var v

structure Grows (s s' : State ι) : Prop where
  folded : s.folded ⊆ s'.folded
  vars : ∀ t v, s'.terms t = .var v ↔ s.terms t = .var v

theorem Grows.refl (s : State ι) : Grows s s := ⟨Finset.Subset.refl _, fun _ _ => Iff.rfl⟩

theorem Grows.trans (h : Grows s s') (h' : Grows s' s'') : Grows s s'' :=
  ⟨h.folded.trans h'.folded, fun t v => (h'.vars t v).trans (h.vars t v)⟩

theorem Grows.unmarked_le (h : Grows s s') : s'.unmarked ≤ s.unmarked :=
  Finset.card_le_card (Finset.sdiff_subset_sdiff (Finset.Subset.refl _) h.folded)

theorem Grows.own (h : Grows s s') (hown : Own tr s) : Own tr s' :=
  fun v left n hv => (h.vars left v).2 (hown v left n hv)

theorem Grows.store (h : Grows s s') {t : ι} {term : CPTerm} (hterm : ∀ v, term ≠ .var v)
    (ht : ∀ v, s.terms t ≠ .var v) : Grows s (s'.store t term) := by
  refine ⟨h.folded, fun t' v => ?_⟩
  by_cases heq : t' = t
  · subst heq
    simp [State.store, hterm, ht]
  · simpa [State.store, heq] using h.vars t' v

theorem grows_mark (t : ι) (s : State ι) : Grows s (s.mark t) := ⟨Finset.subset_insert _ _, fun _ _ => Iff.rfl⟩

theorem grows_log (x : Splice) (s : State ι) : Grows s (s.log x) := ⟨Finset.Subset.refl _, fun _ _ => Iff.rfl⟩

theorem unmarked_mark {t : ι} (h : t ∉ s.folded) : (s.mark t).unmarked < s.unmarked := by
  refine Finset.card_lt_card (Finset.ssubset_iff_of_subset ?_ |>.2 ⟨t, ?_, ?_⟩)
  · exact Finset.sdiff_subset_sdiff (Finset.Subset.refl _) (Finset.subset_insert _ _)
  · simp [h]
  · simp [State.mark]

-- fewer than n terms are not yet folded
structure Ready (tr : Translator ι) (n : ℕ) (s : State ι) : Prop where
  unmarked : s.unmarked < n
  own : Own tr s

theorem Ready.grows (h : Ready tr n s) (hgrows : Grows s s') : Ready tr n s' :=
  ⟨hgrows.unmarked_le.trans_lt h.unmarked, hgrows.own h.own⟩

def Total (tr : Translator ι) (n : ℕ) (fold : ι → State ι → Option (ι × State ι)) : Prop :=
  ∀ t s, Ready tr n s → ∃ r s', fold t s = some (r, s') ∧ Grows s s' ∧
    ∀ v, s.terms t = .var v → (∀ left, tr.cprelation v ≠ some (.term left)) → r = t

theorem foldAll_total (hfold : Total tr n fold) (ts : List ι) (hs : Ready tr n s) :
    ∃ s', foldAll fold ts s = some s' ∧ Grows s s' := by
  induction ts generalizing s with
  | nil => exact ⟨s, rfl, .refl s⟩
  | cons t ts ih =>
    obtain ⟨r, s₁, h₁, hgrows₁, -⟩ := hfold t s hs
    obtain ⟨s₂, h₂, hgrows₂⟩ := ih (hs.grows hgrows₁)
    exact ⟨s₂, by simp [foldAll, h₁, h₂], hgrows₁.trans hgrows₂⟩

theorem emit_total (hfold : Total tr n fold) (hs : Ready tr n s) :
    ∃ s', emit added fold s = some s' ∧ Grows s s' := by
  have hcount : Grows s { s with emitted := s.emitted + 1 } := ⟨Finset.Subset.refl _, fun _ _ => Iff.rfl⟩
  obtain ⟨s', h, hgrows⟩ := foldAll_total hfold (added s.emitted) (hs.grows hcount)
  exact ⟨s', h, hcount.trans hgrows⟩

theorem foldSumElement_total (hfold : Total tr n fold) (e : SumElement) (hs : Ready tr n s) :
    ∃ elements s', foldSumElement tr added fold e s = some (elements, s') ∧ Grows s s' := by
  unfold foldSumElement
  cases hrel : tr.cprelation e.varid with
  | none =>
    obtain ⟨s₁, h₁, hgrows⟩ := emit_total added hfold hs
    exact ⟨[e], s₁, by simp [h₁], hgrows⟩
  | some cprelation =>
    obtain ⟨left, s₁, h₁, hgrows₁, -⟩ := hfold cprelation.left s hs
    cases hsplice : spliceSum tr e (s₁.terms left) with
    | some p => exact ⟨p.1, s₁.log p.2, by simp [h₁, hsplice], hgrows₁.trans (grows_log _ _)⟩
    | none =>
      obtain ⟨s₂, h₂, hgrows₂⟩ := emit_total added hfold (hs.grows hgrows₁)
      exact ⟨[e], s₂, by simp [h₁, hsplice, h₂], hgrows₁.trans hgrows₂⟩

theorem foldSum_total (hfold : Total tr n fold) (elements : List SumElement) (hs : Ready tr n s) :
    ∃ elements' s', foldSum tr added fold elements s = some (elements', s') ∧ Grows s s' := by
  induction elements generalizing s with
  | nil => exact ⟨[], s, rfl, .refl s⟩
  | cons e elements ih =>
    obtain ⟨new, s₁, h₁, hgrows₁⟩ := foldSumElement_total added hfold e hs
    obtain ⟨rest, s₂, h₂, hgrows₂⟩ := ih (hs.grows hgrows₁)
    exact ⟨new ++ rest, s₂, by simp [foldSum, h₁, h₂], hgrows₁.trans hgrows₂⟩

theorem foldProdElement_total (hfold : Total tr n fold) (e : ProdElement) (w : ℤ) (hs : Ready tr n s) :
    ∃ elements w' s', foldProdElement tr added fold e w s = some (elements, w', s') ∧ Grows s s' := by
  unfold foldProdElement
  cases hrel : tr.cprelation e.varid with
  | none =>
    obtain ⟨s₁, h₁, hgrows⟩ := emit_total added hfold hs
    exact ⟨[e], w, s₁, by simp [h₁], hgrows⟩
  | some cprelation =>
    obtain ⟨left, s₁, h₁, hgrows₁, -⟩ := hfold cprelation.left s hs
    obtain ⟨s₂, h₂, hgrows₂⟩ := emit_total added hfold (hs.grows hgrows₁)
    cases hterm : s₁.terms left with
    | prod nested weight =>
      exact ⟨nested, wrap (w * weight), s₁.log (.prod e.condition w weight), by simp [h₁, hterm],
        hgrows₁.trans (grows_log _ _)⟩
    | _ => exact ⟨[e], w, s₂, by simp [h₁, hterm, h₂], hgrows₁.trans hgrows₂⟩

theorem foldProd_total (hfold : Total tr n fold) (elements : List ProdElement) (w : ℤ) (hs : Ready tr n s) :
    ∃ elements' w' s', foldProd tr added fold elements w s = some (elements', w', s') ∧ Grows s s' := by
  induction elements generalizing s w with
  | nil => exact ⟨[], w, s, rfl, .refl s⟩
  | cons e elements ih =>
    obtain ⟨new, w₁, s₁, h₁, hgrows₁⟩ := foldProdElement_total added hfold e w hs
    obtain ⟨rest, w₂, s₂, h₂, hgrows₂⟩ := ih w₁ (hs.grows hgrows₁)
    exact ⟨new ++ rest, w₂, s₂, by simp [foldProd, h₁, h₂], hgrows₁.trans hgrows₂⟩

theorem foldVar_total (hfold : Total tr n fold) (t : ι) {v : ℕ} (hs : Ready tr n s) :
    ∃ r s', foldVar tr fold t v s = some (r, s') ∧ Grows s s' ∧
      ((∀ left, tr.cprelation v ≠ some (.term left)) → r = t) := by
  unfold foldVar
  cases hrel : tr.cprelation v with
  | none => exact ⟨t, s, rfl, .refl s, fun _ => rfl⟩
  | some cprelation =>
    obtain ⟨r, s₁, h₁, hgrows₁, hsame⟩ := hfold cprelation.left s hs
    cases cprelation with
    | term left =>
      have hmode : ∀ {r' : ι}, ((∀ l, some (Relation.term left) ≠ some (.term l)) → r' = t) :=
        fun h => absurd rfl (h left)
      cases hterm : s₁.terms r with
      | var v' => exact ⟨t, s₁, by simp [h₁, hterm], hgrows₁, hmode⟩
      | _ => exact ⟨r, s₁, by simp [h₁, hterm], hgrows₁, hmode⟩
    | value left k =>
      have hown := hs.own v left k hrel
      obtain rfl : r = left := hsame v hown (by simp [hrel])
      have hterm : s₁.terms r = .var v := (hgrows₁.vars r v).2 hown
      exact ⟨t, s₁, by simp [h₁, hterm], hgrows₁, fun _ => rfl⟩

theorem foldCPTerm_total (tr : Translator ι) (added : ℕ → List ι) (fuel : ℕ) :
    Total tr fuel (foldCPTerm tr added fuel) := by
  induction fuel with
  | zero => exact fun _ _ hs => absurd hs.unmarked (Nat.not_lt_zero _)
  | succ fuel ih =>
    intro t s hs
    by_cases hfolded : t ∈ s.folded
    · exact ⟨t, s, by rw [foldCPTerm, if_pos hfolded], .refl s, fun _ _ _ => rfl⟩
    have hmark : Ready tr fuel (s.mark t) :=
      ⟨(unmarked_mark hfolded).trans_le (Nat.lt_succ_iff.1 hs.unmarked), (grows_mark t s).own hs.own⟩
    rw [foldCPTerm, if_neg hfolded]
    cases hterm : s.terms t with
    | var varid =>
      obtain ⟨r, s', h, hgrows, hsame⟩ := foldVar_total ih t (v := varid) hmark
      refine ⟨r, s', h, (grows_mark t s).trans hgrows, fun v hv hrel => hsame ?_⟩
      rwa [CPTerm.var.inj hv]
    | sum elements =>
      obtain ⟨s₁, h₁, hgrows₁⟩ := emit_total added ih hmark
      obtain ⟨elements', s₂, h₂, hgrows₂⟩ := foldSum_total added ih elements (hmark.grows hgrows₁)
      have hstore : Grows (s.mark t) (s₂.store t (.sum elements')) :=
        (hgrows₁.trans hgrows₂).store nofun (by simp [State.mark, hterm])
      obtain ⟨s₃, h₃, hgrows₃⟩ := emit_total added ih (hmark.grows hstore)
      exact ⟨t, s₃, by simp [h₁, h₂, h₃], (grows_mark t s).trans (hstore.trans hgrows₃), nofun⟩
    | prod elements weight =>
      obtain ⟨s₁, h₁, hgrows₁⟩ := emit_total added ih hmark
      obtain ⟨elements', w', s₂, h₂, hgrows₂⟩ :=
        foldProd_total added ih elements weight (hmark.grows hgrows₁)
      have hstore : Grows (s.mark t) (s₂.store t (.prod elements' w')) :=
        (hgrows₁.trans hgrows₂).store nofun (by simp [State.mark, hterm])
      obtain ⟨s₃, h₃, hgrows₃⟩ := emit_total added ih (hmark.grows hstore)
      exact ⟨t, s₃, by simp [h₁, h₂, h₃], (grows_mark t s).trans (hstore.trans hgrows₃), nofun⟩
    | extremum max elements =>
      obtain ⟨s₁, h₁, hgrows₁⟩ := emit_total added ih hmark
      exact ⟨t, s₁, by simp [h₁], (grows_mark t s).trans hgrows₁, nofun⟩

end Termination

section Answer

variable {ι : Type} [DecidableEq ι] [Fintype ι]

def start (terms : ι → CPTerm) (folded : Finset ι) : State ι := ⟨terms, folded, 0, []⟩

-- the first variable is the product of the second
def twoVariables : Translator Bool where
  cprelation v := if v = 0 then some (.term true) else none
  domain _ := none

def withProduct (term : CPTerm) : Bool → CPTerm
  | false => term
  | true => .prod [⟨.tt, 1⟩] 1

theorem twoVariables_ne_value (v : ℕ) (left : Bool) (n : ℤ) : twoVariables.cprelation v ≠ some (.value left n) := by
  simp only [twoVariables]
  split_ifs <;> simp

end Answer

end FoldCPTerm
