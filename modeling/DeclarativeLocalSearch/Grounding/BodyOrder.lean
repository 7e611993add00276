import DeclarativeLocalSearch.Grounding.GroundTheory
import Mathlib.Data.List.Lex
import Mathlib.Data.Prod.Lex

set_option linter.unusedSectionVars false

namespace Ecnf

open Theory (CompType AggFunction)
open Grounding (TsType)

section Terms

inductive TermKind where
  | var
  | set
  deriving DecidableEq

inductive CPTerm where
  | var (varid : ℕ)
  | set (type : AggFunction) (conditions : List ℤ) (varids : List ℕ) (weights : List ℤ)
  deriving DecidableEq

inductive CPBound where
  | bound (bound : ℤ)
  | varid (varid : ℕ)
  deriving DecidableEq

def aggRank : AggFunction → ℕ
  | .card => 0
  | .sum => 1
  | .prod => 2
  | .min => 3
  | .max => 4

def compRank : CompType → ℕ
  | .eq => 0
  | .neq => 1
  | .lt => 2
  | .gt => 3
  | .leq => 4
  | .geq => 5

def tsRank : TsType → ℕ
  | .eq => 0
  | .rule => 1
  | .impl => 2
  | .rimpl => 3

namespace CPTerm

def kind : CPTerm → TermKind
  | var _ => .var
  | set _ _ _ _ => .set

-- the order of the type information, which the language leaves open
variable (before : TermKind → ℕ)

def eq : CPTerm → CPTerm → Bool
  | var varid, var varid' => varid == varid'
  | set type conditions varids weights, set type' conditions' varids' weights' =>
    type == type' && conditions == conditions' && varids == varids' && weights == weights'
  | _, _ => false

def lt (a b : CPTerm) : Bool :=
  if before a.kind < before b.kind then true
  else match a, b with
    | var varid, var varid' => decide (varid < varid')
    | set type conditions varids weights, set type' conditions' varids' weights' =>
      if aggRank type < aggRank type' then true
      else if aggRank type > aggRank type' then false
      else if conditions < conditions' then true
      else if conditions > conditions' then false
      else if varids < varids' then true
      else if varids > varids' then false
      else decide (weights < weights')
    | _, _ => false

def gt (a b : CPTerm) : Bool := !(eq a b || lt before a b)

end CPTerm

namespace CPBound

def eq : CPBound → CPBound → Bool
  | bound b, bound b' => b == b'
  | varid v, varid v' => v == v'
  | _, _ => false

def lt : CPBound → CPBound → Bool
  | bound b, bound b' => decide (b < b')
  | bound _, varid _ => true
  | varid _, bound _ => false
  | varid v, varid v' => decide (v < v')

end CPBound

end Terms

section Bodies

def compEqThroughNeg : CompType → CompType → Bool
  | .eq, right => right == .eq || right == .neq
  | .neq, right => right == .neq || right == .eq
  | .leq, right => right == .leq || right == .gt
  | .geq, right => right == .geq || right == .lt
  | .lt, right => right == .lt || right == .geq
  | .gt, right => right == .gt || right == .leq

inductive BodyKind where
  | pc
  | agg
  | denoting
  | cp
  deriving DecidableEq

-- left is the address of a term
inductive TsBody (W A : Type) where
  | pc (type : TsType) (body : List ℤ) (conj : Bool)
  | agg (type : TsType) (setnr : ℕ) (aggtype : AggFunction) (lower : Bool) (bound : W)
  | denoting (type : TsType) (varid : ℕ)
  | cp (type : TsType) (left : A) (comp : CompType) (right : CPBound)

namespace TsBody

variable {W A : Type}

def kind : TsBody W A → BodyKind
  | pc _ _ _ => .pc
  | agg _ _ _ _ _ => .agg
  | denoting _ _ => .denoting
  | cp _ _ _ _ => .cp

def type : TsBody W A → TsType
  | pc type _ _ => type
  | agg type _ _ _ _ => type
  | denoting type _ => type
  | cp type _ _ _ => type

-- the comparisons of the base class
def baseEq (a b : TsBody W A) : Bool := a.kind == b.kind && a.type == b.type

section Operators

variable [LinearOrder W] [DecidableEq A] (before : BodyKind → ℕ) (termBefore : TermKind → ℕ) (deref : A → CPTerm)

def baseLt (a b : TsBody W A) : Bool :=
  if before a.kind < before b.kind then true
  else if before b.kind < before a.kind then false
  else decide (tsRank a.type < tsRank b.type)

-- operator== of the classes that do not call themselves, when the base class finds no difference
def innerEq : TsBody W A → TsBody W A → Bool
  | .pc _ body conj, .pc _ body' conj' => body == body' && conj == conj'
  | .denoting _ varid, .denoting _ varid' => varid == varid'
  | .cp _ left comp right, .cp _ left' comp' right' =>
    compEqThroughNeg comp comp' && left == left' && CPBound.eq right right'
  | _, _ => false

def derivedEq (a b : TsBody W A) : Bool := if ! baseEq a b then false else innerEq a b

-- with the depth of the calls that are still possible, and none when they do not end: for aggregates the operator
-- calls itself and not the one of the base class
def eq : ℕ → TsBody W A → TsBody W A → Option Bool
  | 0, _, _ => none
  | fuel + 1, a@(.agg _ setnr aggtype lower bound), b => do
    if ! (← eq fuel a b) then some false
    else match b with
      | .agg _ setnr' aggtype' lower' bound' =>
        some (bound == bound' && setnr == setnr' && lower == lower' && aggtype == aggtype')
      | _ => none
  | _ + 1, a, b => some (derivedEq a b)

def cpLt (left left' : A) (comp comp' : CompType) (right right' : CPBound) : Bool :=
  if ! compEqThroughNeg comp comp' && compRank comp < compRank comp' then true
  else if ! compEqThroughNeg comp comp' && compRank comp > compRank comp' then false
  else if CPTerm.lt termBefore (deref left) (deref left') then true
  else if CPTerm.gt termBefore (deref left) (deref left') then false
  else CPBound.lt right right'

def innerLt : TsBody W A → TsBody W A → Bool
  | .pc _ body conj, .pc _ body' conj' =>
    if conj < conj' then true
    else if conj > conj' then false
    else decide (body < body')
  | .denoting _ varid, .denoting _ varid' => decide (varid < varid')
  | .cp _ left comp right, .cp _ left' comp' right' => cpLt termBefore deref left left' comp comp' right right'
  | _, _ => false

def derivedLt (a b : TsBody W A) : Bool :=
  if baseLt before a b then true
  else if ! baseEq a b then false
  else innerLt termBefore deref a b

-- for aggregates operator> of the base class is called, which calls the operators of the derived class
def lt : ℕ → TsBody W A → TsBody W A → Option Bool
  | 0, _, _ => none
  | fuel + 1, a@(.agg _ _ aggtype lower bound), b => do
    if baseLt before a b then some true
    else if ← (do if ← eq fuel a b then some false else some (! (← lt fuel a b))) then some false
    else match b with
      | .agg _ _ aggtype' lower' bound' =>
        some <|
          if bound < bound' then true
          else if bound > bound' then false
          else if lower < lower' then true
          else if lower > lower' then false
          else decide (aggRank aggtype < aggRank aggtype')
      | _ => none
  | _ + 1, a, b => some (derivedLt before termBefore deref a b)

end Operators

end TsBody

end Bodies

section TermOrder

variable {termBefore : TermKind → ℕ}

theorem aggRank_injective : Function.Injective aggRank := by
  intro a b h
  cases a <;> cases b <;> first | rfl | cases h

theorem tsRank_injective : Function.Injective tsRank := by
  intro a b h
  cases a <;> cases b <;> first | rfl | cases h

abbrev TermKey := ℕ ×ₗ ℕ ×ₗ ℕ ×ₗ List ℤ ×ₗ List ℕ ×ₗ List ℤ

-- the place of a term in the order
def CPTerm.key (termBefore : TermKind → ℕ) : CPTerm → TermKey
  | .var varid => toLex (termBefore .var, toLex (varid, toLex (0, toLex ([], toLex ([], [])))))
  | .set type conditions varids weights =>
    toLex (termBefore .set, toLex (0, toLex (aggRank type, toLex (conditions, toLex (varids, weights)))))

theorem CPTerm.key_injective (hinj : Function.Injective termBefore) : Function.Injective (CPTerm.key termBefore) := by
  intro a b h
  cases a <;> cases b <;> simp only [CPTerm.key, EmbeddingLike.apply_eq_iff_eq, Prod.mk.injEq] at h
  · rw [h.2.1]
  · cases hinj h.1
  · cases hinj h.1
  · obtain ⟨_, _, htype, rfl, rfl, rfl⟩ := h
    rw [aggRank_injective htype]

theorem CPTerm.eq_iff {a b : CPTerm} : CPTerm.eq a b = true ↔ a = b := by
  cases a <;> cases b <;> simp [CPTerm.eq, and_assoc]

theorem ite_iff {α : Type} [LinearOrder α] {a b : α} [Decidable (a < b)] [Decidable (a > b)] {r : Bool} :
    (if a < b then true else if a > b then false else r) = true ↔ a < b ∨ a = b ∧ r = true := by
  obtain h | rfl | h := lt_trichotomy a b
  · simp [h]
  · simp
  · simp [h, h.not_gt, h.ne']

theorem ite_true_iff {p : Prop} [Decidable p] : (if p then true else false) = true ↔ p := by
  split <;> simpa

theorem CPTerm.lt_iff (hinj : Function.Injective termBefore) {a b : CPTerm} :
    CPTerm.lt termBefore a b = true ↔ a.key termBefore < b.key termBefore := by
  have hne : termBefore .var ≠ termBefore .set := fun h => by cases hinj h
  cases a <;> cases b <;> simp only [CPTerm.lt, CPTerm.kind, CPTerm.key, Prod.Lex.toLex_lt_toLex]
  · simp
  · simp only [hne, false_and, or_false]
    exact ite_true_iff
  · simp only [hne.symm, false_and, or_false]
    exact ite_true_iff
  · simp only [lt_self_iff_false, ↓reduceIte, ite_iff, decide_eq_true_eq, aggRank_injective.eq_iff, false_or, true_and]

theorem CPTerm.gt_iff (hinj : Function.Injective termBefore) {a b : CPTerm} :
    CPTerm.gt termBefore a b = true ↔ b.key termBefore < a.key termBefore := by
  rw [CPTerm.gt, Bool.not_eq_true', Bool.or_eq_false_iff, ← Bool.not_eq_true, ← Bool.not_eq_true, CPTerm.eq_iff,
    CPTerm.lt_iff hinj, not_lt, ← (CPTerm.key_injective hinj).eq_iff, lt_iff_le_and_ne, and_comm, ne_comm]

def CPBound.key : CPBound → ℕ ×ₗ ℤ
  | .bound b => toLex (0, b)
  | .varid v => toLex (1, v)

theorem CPBound.key_injective : Function.Injective CPBound.key := by
  intro a b h
  cases a <;> cases b <;> simp [CPBound.key] at h ⊢ <;> omega

theorem CPBound.eq_iff {a b : CPBound} : CPBound.eq a b = true ↔ a = b := by
  cases a <;> cases b <;> simp [CPBound.eq]

theorem CPBound.lt_iff {a b : CPBound} : CPBound.lt a b = true ↔ a.key < b.key := by
  cases a <;> cases b <;> simp [CPBound.lt, CPBound.key, Prod.Lex.toLex_lt_toLex]

-- what a comparison compares
def operands (termBefore : TermKind → ℕ) (left : CPTerm) (right : CPBound) : TermKey ×ₗ ℕ ×ₗ ℤ :=
  toLex (left.key termBefore, right.key)

theorem operands_eq_iff (hinj : Function.Injective termBefore) {left left' : CPTerm} {right right' : CPBound} :
    operands termBefore left right = operands termBefore left' right' ↔ left = left' ∧ right = right' := by
  rw [operands, operands, EmbeddingLike.apply_eq_iff_eq, Prod.mk.injEq, (CPTerm.key_injective hinj).eq_iff,
    CPBound.key_injective.eq_iff]

end TermOrder

section BodyOrder

variable {W A : Type} [LinearOrder W] [DecidableEq A] {before : BodyKind → ℕ} {termBefore : TermKind → ℕ}
  {deref : A → CPTerm}

namespace TsBody

theorem eq_agg (fuel : ℕ) (type : TsType) (setnr : ℕ) (aggtype : AggFunction) (lower : Bool) (bound : W)
    (b : TsBody W A) : eq fuel (.agg type setnr aggtype lower bound) b = none := by
  induction fuel with
  | zero => rfl
  | succ fuel ih => cases b <;> simp [eq, ih]

theorem eq_succ {a : TsBody W A} (ha : a.kind ≠ .agg) (fuel : ℕ) (b : TsBody W A) :
    eq (fuel + 1) a b = some (derivedEq a b) := by
  cases a <;> first | rfl | exact absurd rfl ha

theorem lt_succ {a : TsBody W A} (ha : a.kind ≠ .agg) (fuel : ℕ) (b : TsBody W A) :
    lt before termBefore deref (fuel + 1) a b = some (derivedLt before termBefore deref a b) := by
  cases a <;> first | rfl | exact absurd rfl ha

theorem compRank_ne {c c' : CompType} (h : compEqThroughNeg c c' = false) : compRank c ≠ compRank c' := by
  revert h
  cases c <;> cases c' <;> decide

-- the order of two comparisons of the same kind and type
def CpBelow (termBefore : TermKind → ℕ) (deref : A → CPTerm) (left left' : A) (comp comp' : CompType)
    (right right' : CPBound) : Prop :=
  if compEqThroughNeg comp comp' then
    operands termBefore (deref left) right < operands termBefore (deref left') right'
  else compRank comp < compRank comp'

theorem cpLt_iff (hinj : Function.Injective termBefore) {left left' : A} {comp comp' : CompType}
    {right right' : CPBound} : cpLt termBefore deref left left' comp comp' right right' = true ↔
      CpBelow termBefore deref left left' comp comp' right right' := by
  rw [cpLt, CpBelow]
  cases hcomp : compEqThroughNeg comp comp' with
  | true =>
    simp only [Bool.not_true, Bool.false_and, Bool.false_eq_true, ↓reduceIte, CPTerm.lt_iff hinj, CPTerm.gt_iff hinj]
    rw [ite_iff, CPBound.lt_iff, operands, operands, Prod.Lex.toLex_lt_toLex]
  | false =>
    simp only [Bool.not_false, Bool.true_and, decide_eq_true_eq, Bool.false_eq_true, ↓reduceIte]
    rw [ite_iff, or_iff_left fun h => compRank_ne hcomp h.1]

theorem baseEq_iff {a b : TsBody W A} : baseEq a b = true ↔ a.kind = b.kind ∧ a.type = b.type := by
  simp [baseEq]

theorem baseLt_iff {a b : TsBody W A} : baseLt before a b = true ↔
    before a.kind < before b.kind ∨ before a.kind = before b.kind ∧ tsRank a.type < tsRank b.type := by
  rw [baseLt]
  exact ite_iff.trans (by rw [decide_eq_true_eq])

theorem innerLt_pc {type type' : TsType} {body body' : List ℤ} {conj conj' : Bool} :
    innerLt termBefore deref (.pc type body conj : TsBody W A) (.pc type' body' conj') = true ↔
      toLex (conj, body) < toLex (conj', body') := by
  rw [innerLt, ite_iff, decide_eq_true_eq, Prod.Lex.toLex_lt_toLex]

theorem derivedLt_iff {a b : TsBody W A} : derivedLt before termBefore deref a b = true ↔ baseLt before a b = true ∨
    a.kind = b.kind ∧ a.type = b.type ∧ innerLt termBefore deref a b = true := by
  rw [derivedLt, ← and_assoc, ← baseEq_iff]
  cases baseLt before a b <;> cases baseEq a b <;> simp

theorem derivedEq_iff {a b : TsBody W A} :
    derivedEq a b = true ↔ a.kind = b.kind ∧ a.type = b.type ∧ innerEq a b = true := by
  rw [derivedEq, ← and_assoc, ← baseEq_iff]
  cases baseEq a b <;> simp

def Equal (a b : TsBody W A) : Prop := ∃ fuel, eq fuel a b = some true

def Below (before : BodyKind → ℕ) (termBefore : TermKind → ℕ) (deref : A → CPTerm) (a b : TsBody W A) : Prop :=
  ∃ fuel, lt before termBefore deref fuel a b = some true

-- what maps and sets of bodies rely on
structure Lawful (before : BodyKind → ℕ) (termBefore : TermKind → ℕ) (deref : A → CPTerm) (S : Set (TsBody W A)) :
    Prop where
  eq_ends : ∀ a ∈ S, ∀ b ∈ S, ∃ fuel v, eq fuel a b = some v
  lt_ends : ∀ a ∈ S, ∀ b ∈ S, ∃ fuel v, lt before termBefore deref fuel a b = some v
  refl : ∀ a ∈ S, Equal a a
  symm : ∀ a ∈ S, ∀ b ∈ S, Equal a b → Equal b a
  trans : ∀ a ∈ S, ∀ b ∈ S, ∀ c ∈ S, Equal a b → Equal b c → Equal a c
  irrefl : ∀ a ∈ S, ¬ Below before termBefore deref a a
  lt_trans : ∀ a ∈ S, ∀ b ∈ S, ∀ c ∈ S, Below before termBefore deref a b → Below before termBefore deref b c →
    Below before termBefore deref a c
  incomparable : ∀ a ∈ S, ∀ b ∈ S,
    ¬ Below before termBefore deref a b ∧ ¬ Below before termBefore deref b a ↔ Equal a b

structure Consistent (termBefore : TermKind → ℕ) (deref : A → CPTerm) (S : Set (TsBody W A)) : Prop where
  no_agg : ∀ a ∈ S, a.kind ≠ .agg
  -- the address of a term is compared, where the order looks at the term
  one_address : ∀ type left left' comp comp' right, .cp type left comp right ∈ S → .cp type left' comp' right ∈ S →
    compEqThroughNeg comp comp' = true → deref left = deref left' → left = left'
  -- < and >= are one class, and > and =< stand between them
  ordered : ∀ type left left' left'' comp right right' right'', .cp type left .lt right ∈ S →
    .cp type left' .geq right' ∈ S → .cp type left'' comp right'' ∈ S → comp = .gt ∨ comp = .leq →
      operands termBefore (deref left) right < operands termBefore (deref left') right'

variable {S : Set (TsBody W A)} {a b c : TsBody W A}

theorem equal_iff (ha : a.kind ≠ .agg) : Equal a b ↔ derivedEq a b = true := by
  constructor
  · rintro ⟨_ | fuel, h⟩
    · cases h
    · rw [eq_succ ha] at h
      exact Option.some.inj h
  · exact fun h => ⟨1, by rw [eq_succ ha, h]⟩

theorem below_iff (ha : a.kind ≠ .agg) :
    Below before termBefore deref a b ↔ derivedLt before termBefore deref a b = true := by
  constructor
  · rintro ⟨_ | fuel, h⟩
    · cases h
    · rw [lt_succ ha] at h
      exact Option.some.inj h
  · exact fun h => ⟨1, by rw [lt_succ ha, h]⟩

section Complement

theorem compEqThroughNeg_refl (c : CompType) : compEqThroughNeg c c = true := by cases c <;> rfl

theorem compEqThroughNeg_comm (c c' : CompType) : compEqThroughNeg c c' = compEqThroughNeg c' c := by
  cases c <;> cases c' <;> rfl

theorem compEqThroughNeg_trans {c c' c'' : CompType} (h : compEqThroughNeg c c' = true) :
    compEqThroughNeg c c'' = compEqThroughNeg c' c'' := by
  revert h
  cases c <;> cases c' <;> cases c'' <;> decide

-- the only classes that overlap in the order of the operators
theorem overlap {c c' c'' : CompType} (hclass : compEqThroughNeg c c' = true)
    (hother : compEqThroughNeg c c'' = false) (hlow : compRank c < compRank c'')
    (hhigh : ¬ compRank c' < compRank c'') :
    c = .lt ∧ c' = .geq ∧ (c'' = .gt ∨ c'' = .leq) := by
  revert hclass hother hlow hhigh
  cases c <;> cases c' <;> cases c'' <;> decide

end Complement

theorem derivedEq_trans (h : derivedEq a b = true) (h' : derivedEq b c = true) : derivedEq a c = true := by
  rw [derivedEq_iff] at h h' ⊢
  obtain ⟨hkind, htype, heq⟩ := h
  obtain ⟨hkind', htype', heq'⟩ := h'
  refine ⟨hkind.trans hkind', htype.trans htype', ?_⟩
  cases a <;> cases b <;> first | cases heq | skip
  · cases c <;> first | cases heq' | skip
    simp only [innerEq, Bool.and_eq_true, beq_iff_eq] at heq heq' ⊢
    exact ⟨heq.1.trans heq'.1, heq.2.trans heq'.2⟩
  · cases c <;> first | cases heq' | skip
    simp only [innerEq, beq_iff_eq] at heq heq' ⊢
    exact heq.trans heq'
  · cases c <;> first | cases heq' | skip
    simp only [innerEq, Bool.and_eq_true, beq_iff_eq, CPBound.eq_iff] at heq heq' ⊢
    exact ⟨⟨(compEqThroughNeg_trans heq.1.1).trans heq'.1.1, heq.1.2.trans heq'.1.2⟩, heq.2.trans heq'.2⟩

section Consistency

variable (hinj : Function.Injective termBefore) (hS : Consistent termBefore deref S) {type : TsType}
  {l₁ l₂ l₃ : A} {c₁ c₂ c₃ : CompType} {r₁ r₂ r₃ : CPBound}
include hS

theorem cpBelow_trans (h₁ : .cp type l₁ c₁ r₁ ∈ S) (h₂ : .cp type l₂ c₂ r₂ ∈ S) (h₃ : .cp type l₃ c₃ r₃ ∈ S)
    (h₁₂ : CpBelow termBefore deref l₁ l₂ c₁ c₂ r₁ r₂) (h₂₃ : CpBelow termBefore deref l₂ l₃ c₂ c₃ r₂ r₃) :
    CpBelow termBefore deref l₁ l₃ c₁ c₃ r₁ r₃ := by
  unfold CpBelow at *
  cases hclass : compEqThroughNeg c₁ c₂ with
  | true =>
    rw [if_pos hclass] at h₁₂
    rw [compEqThroughNeg_trans hclass]
    cases hother : compEqThroughNeg c₂ c₃ with
    | true =>
      rw [if_pos hother] at h₂₃
      exact h₁₂.trans h₂₃
    | false =>
      rw [if_neg (by simp [hother])] at h₂₃
      rw [if_neg Bool.false_ne_true]
      by_contra hhigh
      rw [compEqThroughNeg_comm] at hclass
      obtain ⟨rfl, rfl, hbetween⟩ := overlap hclass hother h₂₃ hhigh
      exact h₁₂.asymm (hS.ordered _ _ _ _ _ _ _ _ h₂ h₁ h₃ hbetween)
  | false =>
    rw [if_neg (by simp [hclass])] at h₁₂
    cases hother : compEqThroughNeg c₂ c₃ with
    | true =>
      rw [if_pos hother] at h₂₃
      have hclass' : compEqThroughNeg c₁ c₃ = false := by
        rw [compEqThroughNeg_comm, ← compEqThroughNeg_trans hother, compEqThroughNeg_comm, hclass]
      rw [if_neg (by simp [hclass'])]
      by_contra hhigh
      rw [compEqThroughNeg_comm] at hother hclass'
      obtain ⟨rfl, rfl, hbetween⟩ := overlap hother hclass'
        (lt_of_le_of_ne (not_lt.mp hhigh) (compRank_ne hclass')) (Nat.lt_asymm h₁₂)
      exact h₂₃.asymm (hS.ordered _ _ _ _ _ _ _ _ h₃ h₂ h₁ hbetween)
    | false =>
      rw [if_neg (by simp [hother])] at h₂₃
      split
      case isFalse => exact h₁₂.trans h₂₃
      case isTrue hends =>
        obtain ⟨rfl, rfl, hbetween⟩ := overlap hends hclass h₁₂ (Nat.lt_asymm h₂₃)
        exact hS.ordered _ _ _ _ _ _ _ _ h₁ h₃ h₂ hbetween

include hinj

theorem innerLt_trans (ha : a ∈ S) (hb : b ∈ S) (hc : c ∈ S) (htype : a.type = b.type) (htype' : b.type = c.type)
    (hab : innerLt termBefore deref a b = true) (hbc : innerLt termBefore deref b c = true) :
    innerLt termBefore deref a c = true := by
  cases a <;> cases b <;> first | cases hab | skip
  · cases c <;> first | cases hbc | skip
    rw [innerLt_pc] at hab hbc ⊢
    exact hab.trans hbc
  · cases c <;> first | cases hbc | skip
    simp only [innerLt, decide_eq_true_eq] at hab hbc ⊢
    exact hab.trans hbc
  · cases c <;> first | cases hbc | skip
    obtain rfl := htype
    obtain rfl := htype'
    exact (cpLt_iff hinj).mpr (cpBelow_trans hS ha hb hc ((cpLt_iff hinj).mp hab) ((cpLt_iff hinj).mp hbc))

variable (hbefore : Function.Injective before)

theorem derivedLt_trans (ha : a ∈ S) (hb : b ∈ S) (hc : c ∈ S) (hab : derivedLt before termBefore deref a b = true)
    (hbc : derivedLt before termBefore deref b c = true) : derivedLt before termBefore deref a c = true := by
  rw [derivedLt_iff, baseLt_iff] at hab hbc ⊢
  obtain hbase | ⟨hkind, htype, hinner⟩ := hab
  · obtain hbase' | ⟨hkind', htype', _⟩ := hbc
    · exact .inl (by omega)
    · rw [← hkind', ← htype']
      exact .inl hbase
  · obtain hbase' | ⟨hkind', htype', hinner'⟩ := hbc
    · rw [hkind, htype]
      exact .inl hbase'
    · exact .inr ⟨hkind.trans hkind', htype.trans htype',
        innerLt_trans hinj hS ha hb hc htype htype' hinner hinner'⟩

theorem cpEq_iff (h₁ : .cp type l₁ c₁ r₁ ∈ S) (h₂ : .cp type l₂ c₂ r₂ ∈ S) :
    (compEqThroughNeg c₁ c₂ = true ∧ l₁ = l₂) ∧ r₁ = r₂ ↔
      ¬ CpBelow termBefore deref l₁ l₂ c₁ c₂ r₁ r₂ ∧ ¬ CpBelow termBefore deref l₂ l₁ c₂ c₁ r₂ r₁ := by
  unfold CpBelow
  rw [compEqThroughNeg_comm c₂ c₁]
  cases hclass : compEqThroughNeg c₁ c₂ with
  | true =>
    simp only [↓reduceIte, true_and]
    rw [not_lt, not_lt, ← le_antisymm_iff, operands_eq_iff hinj]
    constructor
    · rintro ⟨rfl, rfl⟩
      exact ⟨rfl, rfl⟩
    · rintro ⟨hderef, rfl⟩
      exact ⟨hS.one_address _ _ _ _ _ _ h₁ h₂ hclass hderef.symm, rfl⟩
  | false =>
    simp only [Bool.false_eq_true, ↓reduceIte, false_and, false_iff]
    have hne := compRank_ne hclass
    omega

theorem innerEq_iff (ha : a ∈ S) (hb : b ∈ S) (hkind : a.kind = b.kind) (htype : a.type = b.type) :
    innerEq a b = true ↔ ¬ innerLt termBefore deref a b = true ∧ ¬ innerLt termBefore deref b a = true := by
  cases a <;> cases b <;> cases hkind
  · simp only [innerLt_pc, innerEq, Bool.and_eq_true, beq_iff_eq]
    rw [not_lt, not_lt, ← le_antisymm_iff, EmbeddingLike.apply_eq_iff_eq, Prod.mk.injEq, and_comm, eq_comm,
      eq_comm (a := (_ : List ℤ))]
  · exact absurd rfl (hS.no_agg _ ha)
  · simp only [innerLt, innerEq, decide_eq_true_eq, beq_iff_eq]
    omega
  · obtain rfl := htype
    simp only [innerLt, innerEq, cpLt_iff hinj, Bool.and_eq_true, beq_iff_eq, CPBound.eq_iff]
    exact cpEq_iff hinj hS ha hb

theorem derivedLt_irrefl (ha : a ∈ S) : ¬ derivedLt before termBefore deref a a = true := by
  rw [derivedLt_iff, baseLt_iff]
  rintro ((h | ⟨_, h⟩) | ⟨_, _, h⟩)
  · exact lt_irrefl _ h
  · exact lt_irrefl _ h
  · refine ((innerEq_iff hinj hS ha ha rfl rfl).mp ?_).1 h
    cases a with
    | pc => simp [innerEq]
    | agg => exact absurd rfl (hS.no_agg _ ha)
    | denoting => simp [innerEq]
    | cp => simp [innerEq, compEqThroughNeg_refl, CPBound.eq_iff]

include hbefore

theorem derivedEq_iff_incomparable (ha : a ∈ S) (hb : b ∈ S) : derivedEq a b = true ↔
    ¬ derivedLt before termBefore deref a b = true ∧ ¬ derivedLt before termBefore deref b a = true := by
  rw [derivedEq_iff, derivedLt_iff, derivedLt_iff, baseLt_iff, baseLt_iff]
  constructor
  · rintro ⟨hkind, htype, heq⟩
    obtain ⟨hab, hba⟩ := (innerEq_iff hinj hS ha hb hkind htype).mp heq
    rw [hkind, htype]
    simp only [lt_self_iff_false, and_false, or_self, false_or, true_and]
    exact ⟨hab, hba⟩
  · rintro ⟨hab, hba⟩
    have hkind : a.kind = b.kind := hbefore (by omega)
    rw [hkind] at hab hba
    have htype : a.type = b.type := tsRank_injective (by omega)
    refine ⟨hkind, htype, (innerEq_iff hinj hS ha hb hkind htype).mpr ⟨fun h => hab ?_, fun h => hba ?_⟩⟩
    · exact .inr ⟨rfl, htype, h⟩
    · exact .inr ⟨rfl, htype.symm, h⟩

theorem Consistent.lawful : Lawful before termBefore deref S where
  eq_ends a ha b _ := ⟨1, derivedEq a b, eq_succ (hS.no_agg a ha) 0 b⟩
  lt_ends a ha b _ := ⟨1, derivedLt before termBefore deref a b, lt_succ (hS.no_agg a ha) 0 b⟩
  refl a ha := by
    rw [equal_iff (hS.no_agg a ha), derivedEq_iff_incomparable hinj hS hbefore ha ha, and_self]
    exact derivedLt_irrefl hinj hS ha
  symm a ha b hb h := by
    rw [equal_iff (hS.no_agg a ha), derivedEq_iff_incomparable hinj hS hbefore ha hb] at h
    rw [equal_iff (hS.no_agg b hb), derivedEq_iff_incomparable hinj hS hbefore hb ha]
    exact h.symm
  trans a ha b hb c hc h h' := by
    rw [equal_iff (hS.no_agg a ha)] at h ⊢
    rw [equal_iff (hS.no_agg b hb)] at h'
    exact derivedEq_trans h h'
  irrefl a ha h := derivedLt_irrefl hinj hS ha ((below_iff (hS.no_agg a ha)).mp h)
  lt_trans a ha b hb c hc h h' := by
    rw [below_iff (hS.no_agg a ha)] at h ⊢
    rw [below_iff (hS.no_agg b hb)] at h'
    exact derivedLt_trans hinj hS ha hb hc h h'
  incomparable a ha b hb := by
    rw [equal_iff (hS.no_agg a ha), below_iff (hS.no_agg a ha), below_iff (hS.no_agg b hb),
      derivedEq_iff_incomparable hinj hS hbefore ha hb]

end Consistency

section Necessary

variable (hinj : Function.Injective termBefore) (h : Lawful before termBefore deref S) {type : TsType}
include hinj h

omit hinj in
theorem Lawful.no_agg (ha : a ∈ S) : a.kind ≠ .agg := by
  intro hkind
  obtain ⟨fuel, v, heq⟩ := h.eq_ends a ha a ha
  cases a with
  | agg => rw [eq_agg] at heq; cases heq
  | _ => cases hkind

theorem below_cp {l₁ l₂ : A} {c₁ c₂ : CompType} {r₁ r₂ : CPBound} :
    Below before termBefore deref (.cp type l₁ c₁ r₁ : TsBody W A) (.cp type l₂ c₂ r₂) ↔
      CpBelow termBefore deref l₁ l₂ c₁ c₂ r₁ r₂ := by
  rw [below_iff (by nofun), derivedLt_iff, baseLt_iff]
  simp [kind, TsBody.type, innerLt, cpLt_iff hinj]

theorem Lawful.consistent : Consistent termBefore deref S where
  no_agg a ha := h.no_agg ha
  one_address type left left' comp comp' right h₁ h₂ hclass hderef := by
    have hno (l l' : A) (c c' : CompType) (hc : compEqThroughNeg c c' = true) (hl : deref l = deref l') :
        ¬ CpBelow termBefore deref l l' c c' right right := by
      rw [CpBelow, if_pos hc, hl]
      exact lt_irrefl _
    have hequal := (h.incomparable _ h₁ _ h₂).mp
      ⟨fun hlt => hno _ _ _ _ hclass hderef ((below_cp hinj h).mp hlt),
        fun hlt => hno _ _ _ _ (by rw [compEqThroughNeg_comm]; exact hclass) hderef.symm ((below_cp hinj h).mp hlt)⟩
    rw [equal_iff (by nofun), derivedEq_iff] at hequal
    simpa [innerEq, hclass, CPBound.eq_iff] using hequal.2.2
  ordered type left left' left'' comp right right' right'' h₁ h₂ h₃ hbetween := by
    have hlow : CpBelow termBefore deref left left'' .lt comp right right'' := by
      obtain rfl | rfl := hbetween <;> exact show compRank .lt < _ by decide
    have hhigh : CpBelow termBefore deref left'' left' comp .geq right'' right' := by
      obtain rfl | rfl := hbetween <;> exact show _ < compRank .geq by decide
    have hends := h.lt_trans _ h₁ _ h₃ _ h₂ ((below_cp hinj h).mpr hlow) ((below_cp hinj h).mpr hhigh)
    exact (below_cp hinj h).mp hends

end Necessary

end TsBody

-- terms are compared by their values only
structure LawfulTerms (termBefore : TermKind → ℕ) : Prop where
  refl : ∀ a, CPTerm.eq a a = true
  symm : ∀ a b, CPTerm.eq a b = true → CPTerm.eq b a = true
  trans : ∀ a b c, CPTerm.eq a b = true → CPTerm.eq b c = true → CPTerm.eq a c = true
  irrefl : ∀ a, ¬ CPTerm.lt termBefore a a = true
  lt_trans : ∀ a b c, CPTerm.lt termBefore a b = true → CPTerm.lt termBefore b c = true →
    CPTerm.lt termBefore a c = true
  incomparable : ∀ a b, ¬ CPTerm.lt termBefore a b = true ∧ ¬ CPTerm.lt termBefore b a = true ↔ CPTerm.eq a b = true

theorem lawfulTerms (hinj : Function.Injective termBefore) : LawfulTerms termBefore where
  refl _ := CPTerm.eq_iff.mpr rfl
  symm _ _ h := CPTerm.eq_iff.mpr (CPTerm.eq_iff.mp h).symm
  trans _ _ _ h h' := CPTerm.eq_iff.mpr ((CPTerm.eq_iff.mp h).trans (CPTerm.eq_iff.mp h'))
  irrefl a := by
    rw [CPTerm.lt_iff hinj]
    exact lt_irrefl _
  lt_trans a b c h h' := by
    rw [CPTerm.lt_iff hinj] at h h' ⊢
    exact h.trans h'
  incomparable a b := by
    rw [CPTerm.lt_iff hinj, CPTerm.lt_iff hinj, CPTerm.eq_iff, not_lt, not_lt, ← le_antisymm_iff,
      (CPTerm.key_injective hinj).eq_iff, eq_comm]

theorem lawful_iff (hinj : Function.Injective termBefore) (hbefore : Function.Injective before)
    {S : Set (TsBody W A)} : LawfulTerms termBefore ∧ TsBody.Lawful before termBefore deref S ↔
      TsBody.Consistent termBefore deref S :=
  ⟨fun h => h.2.consistent hinj, fun h => ⟨lawfulTerms hinj, h.lawful hinj hbefore⟩⟩

section Overlapping

def kindRank : BodyKind → ℕ
  | .pc => 0
  | .agg => 1
  | .denoting => 2
  | .cp => 3

def termRank : TermKind → ℕ
  | .var => 0
  | .set => 1

theorem kindRank_injective : Function.Injective kindRank := by
  intro a b h
  cases a <;> cases b <;> first | rfl | cases h

theorem termRank_injective : Function.Injective termRank := by
  intro a b h
  cases a <;> cases b <;> first | rfl | cases h

-- the comparison of x at an address with 5
def xFive (address : ℕ) (comp : CompType) : TsBody ℤ ℕ := .cp .eq address comp (.bound 5)

def derefX : ℕ → CPTerm := fun _ => .var 1

def total : TsBody ℤ ℕ := .agg .eq 1 .sum true 5

theorem lawful_two : LawfulTerms termRank ∧
    TsBody.Lawful kindRank termRank derefX {.pc .eq [1, 2] true, xFive 0 .lt, xFive 0 .gt} := by
  refine (lawful_iff termRank_injective kindRank_injective).mpr ⟨?_, ?_, ?_⟩
  · rintro a (rfl | rfl | rfl) <;> decide
  · rintro type left left' comp comp' right (h | h | h) (h' | h' | h') _ _ <;> cases h <;> cases h' <;> rfl
  · rintro type left left' left'' comp right right' right'' _ (h | h | h) <;> cases h

-- an aggregate compared with itself, x < 5, x > 5 and x >= 5, and x = 5 at two addresses
theorem unlawful : (¬ ∃ fuel v, TsBody.eq fuel total total = some v) ∧
    (TsBody.Below kindRank termRank derefX (xFive 0 .lt) (xFive 0 .gt) ∧
      TsBody.Below kindRank termRank derefX (xFive 0 .gt) (xFive 0 .geq) ∧
        ¬ TsBody.Below kindRank termRank derefX (xFive 0 .lt) (xFive 0 .geq)) ∧
    ¬ TsBody.Below kindRank termRank derefX (xFive 0 .eq) (xFive 1 .eq) ∧
      ¬ TsBody.Below kindRank termRank derefX (xFive 1 .eq) (xFive 0 .eq) ∧
        ¬ TsBody.Equal (xFive 0 .eq) (xFive 1 .eq) := by
  refine ⟨?_, ⟨⟨1, by decide⟩, ⟨1, by decide⟩, ?_⟩, ?_, ?_, ?_⟩
  · rintro ⟨fuel, v, h⟩
    rw [total, TsBody.eq_agg] at h
    cases h
  · rw [TsBody.below_iff (by decide)]
    decide
  · rw [TsBody.below_iff (by decide)]
    decide
  · rw [TsBody.below_iff (by decide)]
    decide
  · rw [TsBody.equal_iff (by decide)]
    decide

end Overlapping

end BodyOrder

end Ecnf
