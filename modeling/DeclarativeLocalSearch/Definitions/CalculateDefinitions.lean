import Mathlib.Data.List.Nodup
import Mathlib.Data.List.Perm.Basic
import Mathlib.Data.Set.Basic

set_option linter.unusedSectionVars false

namespace CalculateDefinitions

variable {S A R : Type}

-- a three-valued structure, by its certainly true and certainly false atoms
@[ext] structure Tables (A : Type) where
  ct : A → Bool
  cf : A → Bool

-- the definitions with what the worklist asks of them and of the structure
structure Inference (S A R : Type) where
  symbol : A → S
  isFunction : S → Bool
  defsymbols : R → List S
  opens : R → List S
  hasRecursionOverNegation : R → Bool
  stableSemantics : Bool
  approxTwoValued : Tables A → S → Bool
  isConsistent : Tables A → Bool
  satdelay : Bool
  exceedsThreshold : R → Tables A → Bool
  solve : R → Tables A → Option (A → Bool)

structure DefinitionCalculationResult (A : Type) where
  hasModel : Bool
  calculatedModel : Tables A

structure State (S A R : Type) where
  calculatedModel : Tables A
  opens : List (R × List S)
  definitions : List R
  hasModel : Bool
  fixpoint : Bool

namespace Inference

variable [DecidableEq S] [DecidableEq R] (X : Inference S A R)

def addLiterals (definition : R) (model : A → Bool) (σ : Tables A) : Tables A where
  ct a := σ.ct a || (decide (X.symbol a ∈ X.defsymbols definition) && model a)
  cf a := σ.cf a || (decide (X.symbol a ∈ X.defsymbols definition) && !model a)

def tooExpensive (definition : R) (σ : Tables A) : Bool := X.satdelay && X.exceedsThreshold definition σ

-- a definition that is too expensive is left, with a model as far as is known
def calculateDefinition (definition : R) (σ : Tables A) : DefinitionCalculationResult A :=
  if X.tooExpensive definition σ then ⟨true, σ⟩
  else
    match X.solve definition σ with
    | none => ⟨false, σ⟩
    | some model =>
      let σ := X.addLiterals definition model σ
      let badlyDefined := (X.defsymbols definition).any fun symbol => X.isFunction symbol && ! X.approxTwoValued σ symbol
      ⟨! badlyDefined && X.isConsistent σ, σ⟩

-- the flag that the loop tests is its own, and always false
def visit (entry : R × List S) (st : State S A R) : State S A R :=
  let opens := entry.2.filter fun symbol => ! X.approxTwoValued st.calculatedModel symbol
  if opens = [] then
    let result := X.calculateDefinition entry.1 st.calculatedModel
    if result.hasModel then
      { st with calculatedModel := result.calculatedModel, definitions := st.definitions.erase entry.1, fixpoint := false }
    else
      { st with
        calculatedModel := result.calculatedModel, opens := st.opens ++ [(entry.1, opens)], hasModel := false }
  else { st with opens := st.opens ++ [(entry.1, opens)] }

def pass (st : State S A R) : State S A R :=
  st.opens.foldl (fun st entry => X.visit entry st) { st with opens := [], fixpoint := true }

def pending (st : State S A R) : ℕ := st.opens.length + if st.fixpoint then 0 else 1

theorem pending_visit (entry : R × List S) (st : State S A R) : pending (X.visit entry st) ≤ pending st + 1 := by
  unfold visit pending
  dsimp only
  split_ifs <;> simp_all

theorem pending_foldl (entries : List (R × List S)) (st : State S A R) :
    pending (entries.foldl (fun st entry => X.visit entry st) st) ≤ pending st + entries.length := by
  induction entries generalizing st with
  | nil => exact Nat.le_refl _
  | cons entry entries ih =>
    have hvisit := X.pending_visit entry st
    have hrest := ih (X.visit entry st)
    rw [List.foldl_cons, List.length_cons]
    omega

theorem pass_shorter {st : State S A R} (h : (X.pass st).fixpoint = false) :
    (X.pass st).opens.length < st.opens.length := by
  have hpending := X.pending_foldl st.opens { st with opens := [], fixpoint := true }
  rw [← pass] at hpending
  simp only [pending, h, List.length_nil, Bool.false_eq_true, if_false, if_true] at hpending
  omega

def loop (st : State S A R) : State S A R :=
  if (X.pass st).fixpoint = false ∧ (X.pass st).hasModel = true then loop (X.pass st) else X.pass st
termination_by st.opens.length
decreasing_by exact X.pass_shorter (by simp_all)

def removeNonTotalDefinitions (opens : List (R × List S)) : List (R × List S) :=
  opens.filter fun entry => ! X.hasRecursionOverNegation entry.1

-- the order is the one in which the table of open symbols stores the definitions
def collectOpens (order : List R) : List (R × List S) :=
  let opens := order.map fun definition => (definition, X.opens definition)
  if X.stableSemantics then X.removeNonTotalDefinitions opens else opens

def calculateKnownDefinitions (definitions order : List R) (σ : Tables A) : State S A R :=
  if definitions = [] then ⟨σ, [], [], true, true⟩
  else
    let st := X.loop ⟨σ, X.collectOpens order, definitions, true, false⟩
    if st.hasModel = false ∨ X.isConsistent st.calculatedModel = false then { st with hasModel := false }
    else { st with hasModel := true }

end Inference

section Order

def Tables.Le (σ τ : Tables A) : Prop :=
  (∀ a, σ.ct a = true → τ.ct a = true) ∧ ∀ a, σ.cf a = true → τ.cf a = true

def Tables.Consistent (σ : Tables A) : Prop := ∀ a, σ.ct a = true → σ.cf a = false

-- the two-valued structure has all that is certain
def Tables.ExtendedBy (σ : Tables A) (I : A → Bool) : Prop :=
  (∀ a, σ.ct a = true → I a = true) ∧ ∀ a, σ.cf a = true → I a = false

-- the atom has the value of the two-valued structure
def Tables.Has (σ : Tables A) (I : A → Bool) (a : A) : Prop := if I a then σ.ct a = true else σ.cf a = true

variable {σ τ υ : Tables A} {I J : A → Bool} {a : A}

theorem Tables.Le.refl : σ.Le σ := ⟨fun _ => id, fun _ => id⟩

theorem Tables.Le.trans (h : σ.Le τ) (h' : τ.Le υ) : σ.Le υ :=
  ⟨fun a ha => h'.1 a (h.1 a ha), fun a ha => h'.2 a (h.2 a ha)⟩

theorem Tables.Le.antisymm (h : σ.Le τ) (h' : τ.Le σ) : σ = τ := by
  ext a
  · exact Bool.eq_iff_iff.mpr ⟨h.1 a, h'.1 a⟩
  · exact Bool.eq_iff_iff.mpr ⟨h.2 a, h'.2 a⟩

theorem Tables.Le.consistent (h : σ.Le τ) (hτ : τ.Consistent) : σ.Consistent := by
  intro a ha
  have hcf := hτ a (h.1 a ha)
  by_contra hne
  exact Bool.false_ne_true (hcf.symm.trans (h.2 a (eq_true_of_ne_false hne)))

theorem Tables.Le.extendedBy (h : σ.Le τ) (hI : τ.ExtendedBy I) : σ.ExtendedBy I :=
  ⟨fun a ha => hI.1 a (h.1 a ha), fun a ha => hI.2 a (h.2 a ha)⟩

theorem Tables.Le.has (h : σ.Le τ) (ha : σ.Has I a) : τ.Has I a := by
  unfold Has at ha ⊢
  split_ifs at ha ⊢
  · exact h.1 a ha
  · exact h.2 a ha

theorem Tables.ExtendedBy.consistent (h : σ.ExtendedBy I) : σ.Consistent := by
  intro a ha
  by_contra hne
  exact Bool.false_ne_true ((h.2 a (eq_true_of_ne_false hne)).symm.trans (h.1 a ha))

theorem Tables.Has.eq_of_extendedBy (ha : σ.Has I a) (hJ : σ.ExtendedBy J) : J a = I a := by
  unfold Has at ha
  split_ifs at ha with hI
  · rw [hI, hJ.1 a ha]
  · rw [eq_false_of_ne_true hI, hJ.2 a ha]

-- the tables of a two-valued structure
def Tables.exact (I : A → Bool) : Tables A := ⟨I, fun a => ! I a⟩

theorem Tables.exact_consistent : (Tables.exact I).Consistent := fun a ha => by simp_all [exact]

theorem Tables.exact_has : (Tables.exact I).Has I a := by
  unfold Has
  split_ifs with hI <;> simp [exact, hI]

theorem Tables.ExtendedBy.le_exact (h : σ.ExtendedBy I) : σ.Le (Tables.exact I) :=
  ⟨h.1, fun a ha => by simp [exact, h.2 a ha]⟩

theorem Tables.Has.eq_of_has (hI : σ.Has I a) (hJ : σ.Has J a) (hσ : σ.Consistent) : I a = J a := by
  have := hσ a
  unfold Has at hI hJ
  cases hi : I a <;> cases hj : J a <;> simp_all

end Order

namespace Inference

variable [DecidableEq S] [DecidableEq R] (X : Inference S A R) (satisfies : R → (A → Bool) → Prop)
  (IsStructure : (A → Bool) → Prop)

def Agree (symbols : List S) (I J : A → Bool) : Prop := ∀ a, X.symbol a ∈ symbols → I a = J a

-- solving a definition over decided open symbols gives its well-founded model, if it has one that is two-valued and
-- that the structure does not exclude
structure Correct : Prop where
  approx_decided : ∀ σ s, X.approxTwoValued σ s = true → ∀ a, X.symbol a = s → σ.ct a = true ∨ σ.cf a = true
  approx_congr : ∀ σ τ s, (∀ a, X.symbol a = s → σ.ct a = τ.ct a ∧ σ.cf a = τ.cf a) →
    X.approxTwoValued σ s = X.approxTwoValued τ s
  approx_function : ∀ σ s I, X.isFunction s = true → IsStructure I → σ.Consistent →
    (∀ a, X.symbol a = s → σ.Has I a) → X.approxTwoValued σ s = true
  consistent : ∀ σ, X.isConsistent σ = true ↔ σ.Consistent
  congr : ∀ d I J, X.Agree (X.opens d ++ X.defsymbols d) I J → satisfies d I → satisfies d J
  unique : ∀ d I J, X.Agree (X.opens d) I J → satisfies d I → satisfies d J → X.Agree (X.defsymbols d) I J
  sound : ∀ d σ I, (∀ a, X.symbol a ∈ X.opens d → σ.ct a = true ∨ σ.cf a = true) → σ.Consistent →
    X.solve d σ = some I → IsStructure I ∧ satisfies d I ∧ ∀ a, X.symbol a ∈ X.opens d → σ.Has I a
  complete : ∀ d σ, (∀ a, X.symbol a ∈ X.opens d → σ.ct a = true ∨ σ.cf a = true) → σ.Consistent →
    X.solve d σ = none → ∀ I, IsStructure I → (∀ a, X.symbol a ∈ X.opens d ++ X.defsymbols d →
      (σ.ct a = true → I a = true) ∧ (σ.cf a = true → I a = false)) → ¬ satisfies d I

-- the definitions whose open symbols are collected
def collected (definitions : List R) : Set R :=
  {d | d ∈ definitions ∧ (X.stableSemantics = true → X.hasRecursionOverNegation d = false)}

-- some smaller structure showed the symbol to be two-valued
def Known (σ : Tables A) (s : S) : Prop := ∃ τ, τ.Le σ ∧ X.approxTwoValued τ s = true

-- the structures that evaluating definitions with known open symbols leads to
inductive Reached (collected : Set R) (σ₀ : Tables A) : Tables A → Prop
  | start : Reached collected σ₀ σ₀
  | evaluate {σ : Tables A} {d : R} {I : A → Bool} (hσ : Reached collected σ₀ σ) (hd : d ∈ collected)
      (hopens : ∀ s ∈ X.opens d, X.Known σ s) (hsolve : X.solve d σ = some I) :
      Reached collected σ₀ (X.addLiterals d I σ)

-- no definition that becomes evaluable is declined
def Affordable (collected : Set R) (σ₀ : Tables A) : Prop :=
  ∀ σ, X.Reached collected σ₀ σ → ∀ d ∈ collected, (∀ s ∈ X.opens d, X.Known σ s) → X.tooExpensive d σ = false

-- the defined symbols have the values of the well-founded model
def Evaluated (d : R) (σ : Tables A) : Prop :=
  (∀ s ∈ X.opens d, X.Known σ s) ∧ ∃ I, IsStructure I ∧ satisfies d I ∧
    ∀ a, X.symbol a ∈ X.opens d ++ X.defsymbols d → σ.Has I a

-- a two-valued structure that extends the tables and satisfies the definitions
structure IsModel (definitions : List R) (σ : Tables A) (I : A → Bool) : Prop where
  isStructure : IsStructure I
  extends_ : σ.ExtendedBy I
  satisfies : ∀ d ∈ definitions, satisfies d I

variable {X satisfies IsStructure} {σ τ σ₀ : Tables A} {d : R} {s : S} {I J : A → Bool}

theorem Known.mono (h : X.Known σ s) (hle : σ.Le τ) : X.Known τ s := by
  obtain ⟨υ, hυ, happrox⟩ := h
  exact ⟨υ, hυ.trans hle, happrox⟩

theorem Known.decided (hX : X.Correct satisfies IsStructure) (h : X.Known σ s) {a : A} (ha : X.symbol a = s) :
    σ.ct a = true ∨ σ.cf a = true := by
  obtain ⟨τ, hτ, happrox⟩ := h
  exact (hX.approx_decided τ s happrox a ha).imp (hτ.1 a) (hτ.2 a)

theorem Known.approx (hX : X.Correct satisfies IsStructure) (h : X.Known σ s) (hσ : σ.Consistent) :
    X.approxTwoValued σ s = true := by
  obtain ⟨τ, hτ, happrox⟩ := h
  rw [← happrox]
  refine (hX.approx_congr τ σ s fun a ha => ?_).symm
  have hdecided := hX.approx_decided τ s happrox a ha
  have h1 := hτ.1 a
  have h2 := hτ.2 a
  have h3 := hσ a
  cases hct : τ.ct a <;> cases hcf : τ.cf a <;> simp_all

theorem Evaluated.mono (h : X.Evaluated satisfies IsStructure d σ) (hle : σ.Le τ) :
    X.Evaluated satisfies IsStructure d τ := by
  obtain ⟨hopens, I, hI, hsat, hhas⟩ := h
  exact ⟨fun s hs => (hopens s hs).mono hle, I, hI, hsat, fun a ha => hle.has (hhas a ha)⟩

theorem Evaluated.satisfied (hX : X.Correct satisfies IsStructure) (h : X.Evaluated satisfies IsStructure d σ)
    (hJ : σ.ExtendedBy J) : satisfies d J := by
  obtain ⟨-, I, -, hsat, hhas⟩ := h
  exact hX.congr d I J (fun a ha => ((hhas a ha).eq_of_extendedBy hJ).symm) hsat

theorem Evaluated.decided (h : X.Evaluated satisfies IsStructure d σ) {a : A} (ha : X.symbol a ∈ X.defsymbols d) :
    σ.ct a = true ∨ σ.cf a = true := by
  obtain ⟨-, I, -, -, hhas⟩ := h
  have hvalue := hhas a (List.mem_append_right _ ha)
  unfold Tables.Has at hvalue
  split_ifs at hvalue
  · exact Or.inl hvalue
  · exact Or.inr hvalue

theorem le_addLiterals : σ.Le (X.addLiterals d I σ) :=
  ⟨fun a ha => by simp [addLiterals, ha], fun a ha => by simp [addLiterals, ha]⟩

theorem addLiterals_has {a : A} (ha : X.symbol a ∈ X.defsymbols d) : (X.addLiterals d I σ).Has I a := by
  unfold Tables.Has
  split_ifs with hI <;> simp [addLiterals, ha, hI]

theorem addLiterals_le (hle : σ.Le τ) (hhas : ∀ a, X.symbol a ∈ X.defsymbols d → τ.Has I a) :
    (X.addLiterals d I σ).Le τ := by
  constructor
  · intro a ha
    rcases Bool.or_eq_true_iff.mp ha with ha | ha
    · exact hle.1 a ha
    · obtain ⟨hsymbol, hI⟩ := Bool.and_eq_true_iff.mp ha
      have hvalue := hhas a (of_decide_eq_true hsymbol)
      rwa [Tables.Has, if_pos hI] at hvalue
  · intro a ha
    rcases Bool.or_eq_true_iff.mp ha with ha | ha
    · exact hle.2 a ha
    · obtain ⟨hsymbol, hI⟩ := Bool.and_eq_true_iff.mp ha
      have hvalue := hhas a (of_decide_eq_true hsymbol)
      rwa [Tables.Has, if_neg (by simpa using hI)] at hvalue

section Step

variable {definitions : List R}

theorem calculateDefinition_eq (h : X.tooExpensive d σ = false) (hsolve : X.solve d σ = some I) :
    X.calculateDefinition d σ = ⟨! ((X.defsymbols d).any fun symbol =>
      X.isFunction symbol && ! X.approxTwoValued (X.addLiterals d I σ) symbol) &&
        X.isConsistent (X.addLiterals d I σ), X.addLiterals d I σ⟩ := by
  simp [calculateDefinition, h, hsolve]

theorem calculateDefinition_hasModel (hX : X.Correct satisfies IsStructure) (hopens : ∀ s ∈ X.opens d, X.Known σ s)
    (hcheap : X.tooExpensive d σ = false) (h : (X.calculateDefinition d σ).hasModel = true) :
    ∃ I, X.solve d σ = some I ∧ (X.calculateDefinition d σ).calculatedModel = X.addLiterals d I σ ∧
      X.Evaluated satisfies IsStructure d (X.addLiterals d I σ) := by
  cases hsolve : X.solve d σ with
  | none => simp [calculateDefinition, hcheap, hsolve] at h
  | some I =>
    rw [calculateDefinition_eq hcheap hsolve] at h ⊢
    have hconsistent := (hX.consistent _).mp (Bool.and_eq_true_iff.mp h).2
    have hσ : σ.Consistent := le_addLiterals.consistent hconsistent
    obtain ⟨hI, hsat, hhas⟩ := hX.sound d σ I (fun a ha => (hopens _ ha).decided hX rfl) hσ hsolve
    refine ⟨I, rfl, rfl, fun s hs => (hopens s hs).mono le_addLiterals, I, hI, hsat, fun a ha => ?_⟩
    rcases List.mem_append.mp ha with ha | ha
    · exact le_addLiterals.has (hhas a ha)
    · exact addLiterals_has ha

-- a larger structure in which the definition is evaluated has at least the literals of the evaluation
theorem addLiterals_le_evaluated (hX : X.Correct satisfies IsStructure) (hopens : ∀ s ∈ X.opens d, X.Known σ s)
    (hsolve : X.solve d σ = some I) (hle : σ.Le τ) (hτ : τ.Consistent) (h : X.Evaluated satisfies IsStructure d τ) :
    (X.addLiterals d I σ).Le τ := by
  obtain ⟨-, J, hJ, hsatJ, hhasJ⟩ := h
  obtain ⟨hI, hsat, hhas⟩ :=
    hX.sound d σ I (fun a ha => (hopens _ ha).decided hX rfl) (hle.consistent hτ) hsolve
  have hsame : X.Agree (X.opens d) I J := fun a ha =>
    (hle.has (hhas a ha)).eq_of_has (hhasJ a (List.mem_append_left _ ha)) hτ
  have hdefined := hX.unique d I J hsame hsat hsatJ
  refine addLiterals_le hle fun a ha => ?_
  have hvalue := hhasJ a (List.mem_append_right _ ha)
  rwa [Tables.Has, ← hdefined a ha] at hvalue

theorem calculateDefinition_evaluated (hX : X.Correct satisfies IsStructure) (hopens : ∀ s ∈ X.opens d, X.Known σ s)
    (hcheap : X.tooExpensive d σ = false) (hle : σ.Le τ) (hτ : τ.Consistent)
    (h : X.Evaluated satisfies IsStructure d τ) : (X.calculateDefinition d σ).hasModel = true := by
  have hσ : σ.Consistent := hle.consistent hτ
  have hdecided : ∀ a, X.symbol a ∈ X.opens d → σ.ct a = true ∨ σ.cf a = true := fun a ha =>
    (hopens _ ha).decided hX rfl
  cases hsolve : X.solve d σ with
  | none =>
    obtain ⟨-, J, hJ, hsatJ, hhasJ⟩ := h
    refine absurd hsatJ (hX.complete d σ hdecided hσ hsolve J hJ fun a ha => ⟨fun hct => ?_, fun hcf => ?_⟩)
    · have hvalue := hhasJ a ha
      by_contra hne
      rw [Tables.Has, if_neg hne] at hvalue
      exact Bool.false_ne_true ((hτ a (hle.1 a hct)).symm.trans hvalue)
    · have hvalue := hhasJ a ha
      by_contra hne
      rw [Tables.Has, if_pos (eq_true_of_ne_false hne)] at hvalue
      exact Bool.false_ne_true ((hτ a hvalue).symm.trans (hle.2 a hcf))
  | some I =>
    obtain ⟨hI, -, -⟩ := hX.sound d σ I hdecided hσ hsolve
    have hconsistent : (X.addLiterals d I σ).Consistent :=
      (addLiterals_le_evaluated hX hopens hsolve hle hτ h).consistent hτ
    rw [calculateDefinition_eq hcheap hsolve]
    refine Bool.and_eq_true_iff.mpr ⟨?_, (hX.consistent _).mpr hconsistent⟩
    rw [Bool.not_eq_true', List.any_eq_false]
    intro symbol hsymbol hbad
    obtain ⟨hfunction, happrox⟩ := Bool.and_eq_true_iff.mp hbad
    have hwell := hX.approx_function (X.addLiterals d I σ) symbol I hfunction hI hconsistent fun a ha =>
      addLiterals_has (ha ▸ hsymbol)
    rw [hwell] at happrox
    exact Bool.false_ne_true happrox

end Step

section Run

variable {definitions order : List R} {collected : Set R} {st : State S A R} {e : R × List S} {entries : List (R × List S)}

variable (X satisfies IsStructure) in
-- what holds while the entries are still to be visited in the pass
structure Invariant (definitions : List R) (collected : Set R) (σ₀ : Tables A) (entries : List (R × List S))
    (st : State S A R) : Prop where
  reached : X.Reached collected σ₀ st.calculatedModel
  subset : st.definitions.Sublist definitions
  entry : ∀ e, e ∈ entries ∨ e ∈ st.opens → e.1 ∈ collected ∧ (∀ s ∈ e.2, s ∈ X.opens e.1) ∧
    ∀ s ∈ X.opens e.1, s ∉ e.2 → X.Known st.calculatedModel s
  kept : ∀ d ∈ collected, d ∈ st.definitions → ∃ e, (e ∈ entries ∨ e ∈ st.opens) ∧ e.1 = d
  removed : ∀ d ∈ definitions, d ∈ st.definitions ∨
    d ∈ collected ∧ X.Evaluated satisfies IsStructure d st.calculatedModel

theorem Reached.le (h : X.Reached collected σ₀ σ) : σ₀.Le σ := by
  induction h with
  | start => exact Tables.Le.refl
  | evaluate _ _ _ _ ih => exact ih.trans le_addLiterals

theorem known_of_filter (hknown : ∀ s ∈ X.opens e.1, s ∉ e.2 → X.Known σ s) :
    ∀ s ∈ X.opens e.1, s ∉ (e.2.filter fun symbol => ! X.approxTwoValued σ symbol) → X.Known σ s := by
  intro s hs hnot
  by_cases hmem : s ∈ e.2
  · refine ⟨σ, Tables.Le.refl, ?_⟩
    by_contra hne
    exact hnot (List.mem_filter.mpr ⟨hmem, by simp [hne]⟩)
  · exact hknown s hs hmem

theorem visit_cases (e : R × List S) (st : State S A R) :
    let opens := e.2.filter fun symbol => ! X.approxTwoValued st.calculatedModel symbol
    let result := X.calculateDefinition e.1 st.calculatedModel
    (opens = [] ∧ result.hasModel = true ∧ X.visit e st =
      { st with
        calculatedModel := result.calculatedModel, definitions := st.definitions.erase e.1, fixpoint := false }) ∨
    (opens = [] ∧ result.hasModel = false ∧ X.visit e st =
      { st with
        calculatedModel := result.calculatedModel, opens := st.opens ++ [(e.1, opens)], hasModel := false }) ∨
    (opens ≠ [] ∧ X.visit e st = { st with opens := st.opens ++ [(e.1, opens)] }) := by
  unfold visit
  dsimp only
  split_ifs with hopens hmodel
  · exact Or.inl ⟨hopens, hmodel, rfl⟩
  · exact Or.inr (Or.inl ⟨hopens, eq_false_of_ne_true hmodel, rfl⟩)
  · exact Or.inr (Or.inr ⟨hopens, rfl⟩)

theorem calculateDefinition_reached (hreached : X.Reached collected σ₀ σ) (hd : d ∈ collected)
    (hopens : ∀ s ∈ X.opens d, X.Known σ s) (hcheap : X.tooExpensive d σ = false) :
    X.Reached collected σ₀ (X.calculateDefinition d σ).calculatedModel := by
  cases hsolve : X.solve d σ with
  | none => simpa [calculateDefinition, hcheap, hsolve] using hreached
  | some I =>
    rw [calculateDefinition_eq hcheap hsolve]
    exact hreached.evaluate hd hopens hsolve

theorem le_calculateDefinition : σ.Le (X.calculateDefinition d σ).calculatedModel := by
  unfold calculateDefinition
  split_ifs
  · exact Tables.Le.refl
  · split
    · exact Tables.Le.refl
    · exact le_addLiterals

-- an entry that stays, with fewer open symbols
theorem Invariant.wait (h : X.Invariant satisfies IsStructure definitions collected σ₀ (e :: entries) st)
    {opens : List S} {hasModel : Bool} (hsub : ∀ s ∈ opens, s ∈ e.2)
    (hknown : ∀ s ∈ X.opens e.1, s ∉ opens → X.Known τ s)
    (hreached : X.Reached collected σ₀ τ) (hle : st.calculatedModel.Le τ) :
    X.Invariant satisfies IsStructure definitions collected σ₀ entries
      { st with calculatedModel := τ, opens := st.opens ++ [(e.1, opens)], hasModel := hasModel } where
  reached := hreached
  subset := h.subset
  entry e' he' := by
    by_cases heq : e' = (e.1, opens)
    · obtain ⟨hmem, hsubset, -⟩ := h.entry e (Or.inl List.mem_cons_self)
      subst heq
      exact ⟨hmem, fun s hs => hsubset s (hsub s hs), hknown⟩
    · have hold : e' ∈ e :: entries ∨ e' ∈ st.opens := by
        rcases he' with he' | he'
        · exact Or.inl (List.mem_cons_of_mem _ he')
        · exact Or.inr (by simpa [heq] using he')
      obtain ⟨hmem, hsubset, hothers⟩ := h.entry e' hold
      exact ⟨hmem, hsubset, fun s hs hnot => (hothers s hs hnot).mono hle⟩
  kept d hd hdef := by
    obtain ⟨e', he', rfl⟩ := h.kept d hd hdef
    by_cases heq : e' = e
    · exact ⟨(e.1, opens), Or.inr (by simp), by rw [heq]⟩
    · refine ⟨e', he'.imp (fun hmem => ?_) fun hmem => List.mem_append_left _ hmem, rfl⟩
      exact (List.mem_cons.mp hmem).resolve_left heq
  removed d hd := (h.removed d hd).imp_right fun ⟨hmem, hev⟩ => ⟨hmem, hev.mono hle⟩

theorem Invariant.visit (hX : X.Correct satisfies IsStructure) (hnodup : definitions.Nodup)
    (hcheap : X.Affordable collected σ₀)
    (h : X.Invariant satisfies IsStructure definitions collected σ₀ (e :: entries) st) :
    X.Invariant satisfies IsStructure definitions collected σ₀ entries (X.visit e st) := by
  obtain ⟨hmem, hsubset, hothers⟩ := h.entry e (Or.inl List.mem_cons_self)
  have hfiltered := known_of_filter hothers
  have hsub : ∀ s ∈ e.2.filter (fun symbol => ! X.approxTwoValued st.calculatedModel symbol), s ∈ e.2 :=
    fun s hs => (List.mem_filter.mp hs).1
  rcases X.visit_cases e st with ⟨hopens, hmodel, hvisit⟩ | ⟨hopens, hmodel, hvisit⟩ | ⟨-, hvisit⟩ <;> rw [hvisit]
  · have hknown : ∀ s ∈ X.opens e.1, X.Known st.calculatedModel s := fun s hs =>
      hfiltered s hs (by rw [hopens]; exact List.not_mem_nil)
    have haffordable := hcheap _ h.reached e.1 hmem hknown
    obtain ⟨I, hsolve, hresult, hevaluated⟩ := calculateDefinition_hasModel hX hknown haffordable hmodel
    have hle : st.calculatedModel.Le (X.addLiterals e.1 I st.calculatedModel) := le_addLiterals
    rw [hresult]
    exact {
      reached := h.reached.evaluate hmem hknown hsolve
      subset := List.erase_sublist.trans h.subset
      entry := fun e' he' => by
        obtain ⟨hmem', hsubset', hothers'⟩ := h.entry e' (he'.imp_left (List.mem_cons_of_mem _))
        exact ⟨hmem', hsubset', fun s hs hnot => (hothers' s hs hnot).mono hle⟩
      kept := fun d hd hdef => by
        obtain ⟨hne, hdef⟩ := (List.Nodup.mem_erase_iff (h.subset.nodup hnodup)).mp hdef
        obtain ⟨e', he', rfl⟩ := h.kept d hd hdef
        exact ⟨e', he'.imp_left fun hin => (List.mem_cons.mp hin).resolve_left fun heq => hne (by rw [heq]), rfl⟩
      removed := fun d hd => by
        by_cases heq : d = e.1
        · exact Or.inr ⟨heq ▸ hmem, heq ▸ hevaluated⟩
        · exact (h.removed d hd).imp (fun hdef => (List.mem_erase_of_ne heq).mpr hdef)
            fun ⟨hd, hev⟩ => ⟨hd, hev.mono hle⟩ }
  · have hknown : ∀ s ∈ X.opens e.1, X.Known st.calculatedModel s := fun s hs =>
      hfiltered s hs (by rw [hopens]; exact List.not_mem_nil)
    have haffordable := hcheap _ h.reached e.1 hmem hknown
    exact h.wait hsub (fun s hs _ => (hknown s hs).mono le_calculateDefinition)
      (calculateDefinition_reached h.reached hmem hknown haffordable) le_calculateDefinition
  · exact h.wait hsub hfiltered h.reached Tables.Le.refl

theorem Invariant.foldl (hX : X.Correct satisfies IsStructure) (hnodup : definitions.Nodup)
    (hcheap : X.Affordable collected σ₀)
    (h : X.Invariant satisfies IsStructure definitions collected σ₀ entries st) :
    X.Invariant satisfies IsStructure definitions collected σ₀ []
      (entries.foldl (fun st entry => X.visit entry st) st) := by
  induction entries generalizing st with
  | nil => exact h
  | cons e entries ih => exact ih (h.visit hX hnodup hcheap)

theorem Invariant.restart (h : X.Invariant satisfies IsStructure definitions collected σ₀ [] st) :
    X.Invariant satisfies IsStructure definitions collected σ₀ st.opens { st with opens := [], fixpoint := true } where
  reached := h.reached
  subset := h.subset
  entry e he := h.entry e (Or.inr (he.resolve_right List.not_mem_nil))
  kept d hd hdef := by
    obtain ⟨e, he, hed⟩ := h.kept d hd hdef
    exact ⟨e, Or.inl (he.resolve_left List.not_mem_nil), hed⟩
  removed := h.removed

theorem Invariant.pass (hX : X.Correct satisfies IsStructure) (hnodup : definitions.Nodup)
    (hcheap : X.Affordable collected σ₀) (h : X.Invariant satisfies IsStructure definitions collected σ₀ [] st) :
    X.Invariant satisfies IsStructure definitions collected σ₀ [] (X.pass st) :=
  h.restart.foldl hX hnodup hcheap

theorem Invariant.loop (hX : X.Correct satisfies IsStructure) (hnodup : definitions.Nodup)
    (hcheap : X.Affordable collected σ₀) (h : X.Invariant satisfies IsStructure definitions collected σ₀ [] st) :
    X.Invariant satisfies IsStructure definitions collected σ₀ [] (X.loop st) := by
  induction st using Inference.loop.induct X with
  | case1 st hagain ih =>
    rw [Inference.loop, if_pos hagain]
    exact ih (h.pass hX hnodup hcheap)
  | case2 st hdone =>
    rw [Inference.loop, if_neg hdone]
    exact h.pass hX hnodup hcheap

theorem mem_collectOpens (horder : order.Perm definitions) (e : R × List S) :
    e ∈ X.collectOpens order ↔ e.1 ∈ X.collected definitions ∧ e.2 = X.opens e.1 := by
  have hmem : ∀ d, d ∈ order ↔ d ∈ definitions := fun d => horder.mem_iff
  unfold collectOpens removeNonTotalDefinitions collected
  dsimp only
  split_ifs with hstable
  · simp only [List.mem_filter, List.mem_map, hmem, Set.mem_ofPred_eq, hstable, true_implies, Bool.not_eq_true']
    constructor
    · rintro ⟨⟨d, hd, rfl⟩, hrec⟩
      exact ⟨⟨hd, hrec⟩, rfl⟩
    · rintro ⟨⟨hd, hrec⟩, heq⟩
      exact ⟨⟨e.1, hd, by rw [← heq]⟩, hrec⟩
  · simp only [List.mem_map, hmem, Set.mem_ofPred_eq, hstable, Bool.false_eq_true, false_implies, and_true]
    constructor
    · rintro ⟨d, hd, rfl⟩
      exact ⟨hd, rfl⟩
    · rintro ⟨hd, heq⟩
      exact ⟨e.1, hd, by rw [← heq]⟩

theorem Invariant.start (horder : order.Perm definitions) :
    X.Invariant satisfies IsStructure definitions (X.collected definitions) σ₀ []
      ⟨σ₀, X.collectOpens order, definitions, true, false⟩ where
  reached := Reached.start
  subset := List.Sublist.refl _
  entry e he := by
    obtain ⟨hmem, hopens⟩ := (mem_collectOpens horder e).mp (he.resolve_left List.not_mem_nil)
    exact ⟨hmem, fun s hs => hopens ▸ hs, fun s hs hnot => absurd (hopens ▸ hs) hnot⟩
  kept d hd _ := ⟨(d, X.opens d), Or.inr ((mem_collectOpens horder _).mpr ⟨hd, rfl⟩), rfl⟩
  removed _ hd := Or.inl hd

variable (X) in
-- no entry was evaluated in the pass, and each that was visited waits for a symbol
def Waiting (σ : Tables A) (st : State S A R) : Prop :=
  st.fixpoint = true → st.hasModel = true → st.calculatedModel = σ ∧
    ∀ e ∈ st.opens, ∃ s ∈ e.2, X.approxTwoValued σ s = false

theorem Waiting.visit (h : X.Waiting σ st) (e : R × List S) : X.Waiting σ (X.visit e st) := by
  rcases X.visit_cases e st with ⟨-, -, hvisit⟩ | ⟨-, -, hvisit⟩ | ⟨hopens, hvisit⟩ <;>
    rw [hvisit] <;> intro hfix hmodel
  · exact absurd hfix Bool.false_ne_true
  · exact absurd hmodel Bool.false_ne_true
  · obtain ⟨hsame, hwait⟩ := h hfix hmodel
    refine ⟨hsame, fun e' he' => ?_⟩
    rcases List.mem_append.mp he' with he' | he'
    · exact hwait e' he'
    · obtain ⟨s, hs⟩ := List.exists_mem_of_ne_nil _ hopens
      rw [List.mem_singleton.mp he']
      rw [hsame] at hs ⊢
      exact ⟨s, hs, by simpa using (List.mem_filter.mp hs).2⟩

theorem Waiting.foldl (h : X.Waiting σ st) (entries : List (R × List S)) :
    X.Waiting σ (entries.foldl (fun st entry => X.visit entry st) st) := by
  induction entries generalizing st with
  | nil => exact h
  | cons e entries ih => exact ih (h.visit e)

theorem waiting_loop (st : State S A R) (h : (X.loop st).hasModel = true) :
    ∀ e ∈ (X.loop st).opens, ∃ s ∈ e.2, X.approxTwoValued (X.loop st).calculatedModel s = false := by
  induction st using Inference.loop.induct X with
  | case1 st hagain ih =>
    rw [Inference.loop, if_pos hagain] at h ⊢
    exact ih h
  | case2 st hdone =>
    rw [Inference.loop, if_neg hdone] at h ⊢
    have hfix : (X.pass st).fixpoint = true := by
      by_contra hne
      exact hdone ⟨eq_false_of_ne_true hne, h⟩
    have hstart : X.Waiting st.calculatedModel { st with opens := [], fixpoint := true } :=
      fun _ _ => ⟨rfl, fun e he => absurd he List.not_mem_nil⟩
    obtain ⟨hsame, hwait⟩ := hstart.foldl st.opens hfix h
    rw [← pass] at hsame hwait
    exact hsame ▸ hwait

end Run

section Closed

variable {definitions order : List R} {collected : Set R} {st : State S A R} {e : R × List S}
  {entries : List (R × List S)}

variable (X satisfies IsStructure) in
-- a structure in which no definition is left to evaluate
structure Closed (collected : Set R) (τ : Tables A) : Prop where
  consistent : τ.Consistent
  evaluated : ∀ d ∈ collected, (∀ s ∈ X.opens d, X.Known τ s) → X.Evaluated satisfies IsStructure d τ

theorem Reached.le_closed (hX : X.Correct satisfies IsStructure) (hτ : X.Closed satisfies IsStructure collected τ)
    (hle : σ₀.Le τ) (h : X.Reached collected σ₀ σ) : σ.Le τ := by
  induction h with
  | start => exact hle
  | evaluate hσ hd hopens hsolve ih =>
    have hevaluated := hτ.evaluated _ hd fun s hs => (hopens s hs).mono ih
    exact addLiterals_le_evaluated hX hopens hsolve ih hτ.consistent hevaluated

theorem Invariant.visit_hasModel (hX : X.Correct satisfies IsStructure) (hcheap : X.Affordable collected σ₀)
    (hτ : X.Closed satisfies IsStructure collected τ) (hle : σ₀.Le τ)
    (h : X.Invariant satisfies IsStructure definitions collected σ₀ (e :: entries) st) (hmodel : st.hasModel = true) :
    (X.visit e st).hasModel = true := by
  rcases X.visit_cases e st with ⟨-, -, hvisit⟩ | ⟨hopens, hfails, -⟩ | ⟨-, hvisit⟩
  · rw [hvisit, hmodel]
  · obtain ⟨hmem, -, hothers⟩ := h.entry e (Or.inl List.mem_cons_self)
    have hknown : ∀ s ∈ X.opens e.1, X.Known st.calculatedModel s := fun s hs =>
      known_of_filter hothers s hs (by rw [hopens]; exact List.not_mem_nil)
    have hbelow := h.reached.le_closed hX hτ hle
    have hevaluated := hτ.evaluated e.1 hmem fun s hs => (hknown s hs).mono hbelow
    have hholds := calculateDefinition_evaluated hX hknown (hcheap _ h.reached e.1 hmem hknown) hbelow
      hτ.consistent hevaluated
    exact absurd (hfails.symm.trans hholds) Bool.false_ne_true
  · rw [hvisit, hmodel]

theorem Invariant.foldl_hasModel (hX : X.Correct satisfies IsStructure) (hnodup : definitions.Nodup)
    (hcheap : X.Affordable collected σ₀) (hτ : X.Closed satisfies IsStructure collected τ) (hle : σ₀.Le τ)
    (h : X.Invariant satisfies IsStructure definitions collected σ₀ entries st) (hmodel : st.hasModel = true) :
    (entries.foldl (fun st entry => X.visit entry st) st).hasModel = true := by
  induction entries generalizing st with
  | nil => exact hmodel
  | cons e entries ih => exact ih (h.visit hX hnodup hcheap) (h.visit_hasModel hX hcheap hτ hle hmodel)

theorem Invariant.loop_hasModel (hX : X.Correct satisfies IsStructure) (hnodup : definitions.Nodup)
    (hcheap : X.Affordable collected σ₀) (hτ : X.Closed satisfies IsStructure collected τ) (hle : σ₀.Le τ)
    (h : X.Invariant satisfies IsStructure definitions collected σ₀ [] st) (hmodel : st.hasModel = true) :
    (X.loop st).hasModel = true := by
  have hpass : ∀ st, X.Invariant satisfies IsStructure definitions collected σ₀ [] st → st.hasModel = true →
      (X.pass st).hasModel = true := fun st h hmodel => h.restart.foldl_hasModel hX hnodup hcheap hτ hle hmodel
  induction st using Inference.loop.induct X with
  | case1 st hagain ih =>
    rw [Inference.loop, if_pos hagain]
    exact ih (h.pass hX hnodup hcheap) (hpass st h hmodel)
  | case2 st hdone =>
    rw [Inference.loop, if_neg hdone]
    exact hpass st h hmodel

theorem Invariant.closed (hX : X.Correct satisfies IsStructure)
    (h : X.Invariant satisfies IsStructure definitions (X.collected definitions) σ₀ [] st)
    (hwait : ∀ e ∈ st.opens, ∃ s ∈ e.2, X.approxTwoValued st.calculatedModel s = false)
    (hconsistent : st.calculatedModel.Consistent) :
    X.Closed satisfies IsStructure (X.collected definitions) st.calculatedModel ∧
      ∀ d, d ∈ st.definitions ↔ d ∈ definitions ∧
        ¬ (d ∈ X.collected definitions ∧ ∀ s ∈ X.opens d, X.Known st.calculatedModel s) := by
  have hleft : ∀ d ∈ X.collected definitions, d ∈ st.definitions →
      ¬ ∀ s ∈ X.opens d, X.Known st.calculatedModel s := by
    intro d hd hdef hknown
    obtain ⟨e, he, rfl⟩ := h.kept d hd hdef
    obtain ⟨s, hs, hopen⟩ := hwait e (he.resolve_left List.not_mem_nil)
    have hs' := (h.entry e he).2.1 s hs
    exact Bool.false_ne_true (hopen.symm.trans ((hknown s hs').approx hX hconsistent))
  refine ⟨⟨hconsistent, fun d hd hknown => ?_⟩, fun d => ⟨fun hdef => ?_, fun ⟨hd, hnot⟩ => ?_⟩⟩
  · exact ((h.removed d hd.1).resolve_left fun hdef => hleft d hd hdef hknown).2
  · exact ⟨h.subset.subset hdef, fun ⟨hd, hknown⟩ => hleft d hd hdef hknown⟩
  · exact (h.removed d hd).resolve_right fun ⟨hmem, hev⟩ => hnot ⟨hmem, hev.1⟩

theorem IsModel.closed (hJ : IsModel satisfies IsStructure definitions σ J) :
    X.Closed satisfies IsStructure (X.collected definitions) (Tables.exact J) where
  consistent := Tables.exact_consistent
  evaluated d hd hknown := ⟨hknown, J, hJ.isStructure, hJ.satisfies d hd.1, fun _ _ => Tables.exact_has⟩

end Closed

section Outcome

variable {definitions order definitions' order' : List R}

variable (X satisfies IsStructure) in
-- what calculating the definitions promises, for every order in which they are stored
structure Calculated (definitions order : List R) (σ : Tables A) : Prop where
  evaluated : ∀ d ∈ definitions, d ∉ (X.calculateKnownDefinitions definitions order σ).definitions →
    (∀ a, X.symbol a ∈ X.defsymbols d → (X.calculateKnownDefinitions definitions order σ).calculatedModel.ct a = true ∨
      (X.calculateKnownDefinitions definitions order σ).calculatedModel.cf a = true) ∧
    ∀ J, (X.calculateKnownDefinitions definitions order σ).calculatedModel.ExtendedBy J → satisfies d J
  remaining : (X.calculateKnownDefinitions definitions order σ).definitions.Sublist definitions
  inconsistent : (X.calculateKnownDefinitions definitions order σ).hasModel = false →
    ∀ J, ¬ IsModel satisfies IsStructure definitions σ J
  order : ∀ definitions' order', definitions'.Perm definitions → order'.Perm definitions →
    (X.calculateKnownDefinitions definitions' order' σ).hasModel =
      (X.calculateKnownDefinitions definitions order σ).hasModel ∧
    ((X.calculateKnownDefinitions definitions order σ).hasModel = true →
      (X.calculateKnownDefinitions definitions' order' σ).calculatedModel =
        (X.calculateKnownDefinitions definitions order σ).calculatedModel ∧
      (X.calculateKnownDefinitions definitions' order' σ).definitions.Perm
        (X.calculateKnownDefinitions definitions order σ).definitions)

theorem calculateKnownDefinitions_cons (hne : definitions ≠ []) (order : List R) (σ : Tables A) :
    X.calculateKnownDefinitions definitions order σ =
      { X.loop ⟨σ, X.collectOpens order, definitions, true, false⟩ with
        hasModel := (X.loop ⟨σ, X.collectOpens order, definitions, true, false⟩).hasModel &&
          X.isConsistent (X.loop ⟨σ, X.collectOpens order, definitions, true, false⟩).calculatedModel } := by
  rw [calculateKnownDefinitions, if_neg hne]
  dsimp only
  split_ifs with h
  · rcases h with h | h <;> rw [h] <;> simp
  · rw [not_or, Bool.not_eq_false, Bool.not_eq_false] at h
    rw [h.1, h.2, Bool.and_true]

theorem calculateKnownDefinitions_invariant (hX : X.Correct satisfies IsStructure) (hnodup : definitions.Nodup)
    (horder : order.Perm definitions) (hcheap : X.Affordable (X.collected definitions) σ) :
    X.Invariant satisfies IsStructure definitions (X.collected definitions) σ []
      (X.calculateKnownDefinitions definitions order σ) := by
  have hstart : X.Invariant satisfies IsStructure definitions (X.collected definitions) σ []
      ⟨σ, X.collectOpens order, definitions, true, false⟩ := Invariant.start horder
  by_cases hne : definitions = []
  · subst hne
    rw [List.perm_nil.mp horder] at hstart
    have hnone : ∀ e, ¬ (e ∈ [] ∨ e ∈ (X.calculateKnownDefinitions [] order σ).opens) := fun e he =>
      he.elim List.not_mem_nil List.not_mem_nil
    exact ⟨hstart.reached, hstart.subset, fun e he => absurd he (hnone e),
      fun d hd => absurd hd.1 List.not_mem_nil, hstart.removed⟩
  · have hloop := hstart.loop hX hnodup hcheap
    rw [calculateKnownDefinitions_cons hne]
    exact ⟨hloop.reached, hloop.subset, hloop.entry, hloop.kept, hloop.removed⟩

theorem calculateKnownDefinitions_below (hX : X.Correct satisfies IsStructure) (hnodup : definitions.Nodup)
    (horder : order.Perm definitions) (hcheap : X.Affordable (X.collected definitions) σ) (hne : definitions ≠ [])
    (hτ : X.Closed satisfies IsStructure (X.collected definitions) τ) (hle : σ.Le τ) :
    (X.calculateKnownDefinitions definitions order σ).hasModel = true ∧
      (X.calculateKnownDefinitions definitions order σ).calculatedModel.Le τ := by
  have hbelow := (calculateKnownDefinitions_invariant hX hnodup horder hcheap).reached.le_closed hX hτ hle
  refine ⟨?_, hbelow⟩
  rw [calculateKnownDefinitions_cons hne] at hbelow ⊢
  refine Bool.and_eq_true_iff.mpr ⟨?_, (hX.consistent _).mpr (hbelow.consistent hτ.consistent)⟩
  have hstart : X.Invariant satisfies IsStructure definitions (X.collected definitions) σ []
      ⟨σ, X.collectOpens order, definitions, true, false⟩ := Invariant.start horder
  exact hstart.loop_hasModel hX hnodup hcheap hτ hle rfl

theorem calculateKnownDefinitions_closed (hX : X.Correct satisfies IsStructure) (hnodup : definitions.Nodup)
    (horder : order.Perm definitions) (hcheap : X.Affordable (X.collected definitions) σ) (hne : definitions ≠ [])
    (h : (X.calculateKnownDefinitions definitions order σ).hasModel = true) :
    X.Closed satisfies IsStructure (X.collected definitions)
        (X.calculateKnownDefinitions definitions order σ).calculatedModel ∧
      ∀ d, d ∈ (X.calculateKnownDefinitions definitions order σ).definitions ↔ d ∈ definitions ∧
        ¬ (d ∈ X.collected definitions ∧
          ∀ s ∈ X.opens d, X.Known (X.calculateKnownDefinitions definitions order σ).calculatedModel s) := by
  have hinvariant := calculateKnownDefinitions_invariant hX hnodup horder hcheap
  rw [calculateKnownDefinitions_cons hne] at h hinvariant ⊢
  obtain ⟨hmodel, hconsistent⟩ := Bool.and_eq_true_iff.mp h
  exact hinvariant.closed hX (waiting_loop _ hmodel) ((hX.consistent _).mp hconsistent)

theorem calculateKnownDefinitions_order (hX : X.Correct satisfies IsStructure) (hnodup : definitions.Nodup)
    (horder : order.Perm definitions) (hcheap : X.Affordable (X.collected definitions) σ)
    (hdefinitions' : definitions'.Perm definitions) (horder' : order'.Perm definitions)
    (h : (X.calculateKnownDefinitions definitions order σ).hasModel = true) :
    (X.calculateKnownDefinitions definitions' order' σ).hasModel = true ∧
      (X.calculateKnownDefinitions definitions' order' σ).calculatedModel =
        (X.calculateKnownDefinitions definitions order σ).calculatedModel ∧
      (X.calculateKnownDefinitions definitions' order' σ).definitions.Perm
        (X.calculateKnownDefinitions definitions order σ).definitions := by
  by_cases hne : definitions = []
  · subst hne
    rw [List.perm_nil.mp hdefinitions', List.perm_nil.mp horder, List.perm_nil.mp horder']
    exact ⟨rfl, rfl, List.Perm.refl _⟩
  · have hne' : definitions' ≠ [] := fun hnil => hne (List.nil_perm.mp (hnil ▸ hdefinitions'))
    have hsame : X.collected definitions' = X.collected definitions := by
      ext d
      simp only [collected, Set.mem_ofPred_eq, hdefinitions'.mem_iff]
    have hnodup' : definitions'.Nodup := hdefinitions'.nodup_iff.mpr hnodup
    have hperm' : order'.Perm definitions' := horder'.trans hdefinitions'.symm
    have hcheap' : X.Affordable (X.collected definitions') σ := hsame.symm ▸ hcheap
    obtain ⟨hclosed, hleft⟩ := calculateKnownDefinitions_closed hX hnodup horder hcheap hne h
    have hinvariant := calculateKnownDefinitions_invariant hX hnodup horder hcheap
    have hinvariant' := calculateKnownDefinitions_invariant hX hnodup' hperm' hcheap'
    obtain ⟨hmodel', hle'⟩ := calculateKnownDefinitions_below hX hnodup' hperm' hcheap' hne'
      (hsame.symm ▸ hclosed) hinvariant.reached.le
    obtain ⟨hclosed', hleft'⟩ := calculateKnownDefinitions_closed hX hnodup' hperm' hcheap' hne' hmodel'
    obtain ⟨-, hle⟩ := calculateKnownDefinitions_below hX hnodup horder hcheap hne
      (hsame ▸ hclosed') hinvariant'.reached.le
    have heq := hle'.antisymm hle
    refine ⟨hmodel', heq, (List.perm_ext_iff_of_nodup (hinvariant'.subset.nodup hnodup')
      (hinvariant.subset.nodup hnodup)).mpr fun d => ?_⟩
    rw [hleft, hleft', heq, hsame, hdefinitions'.mem_iff]

end Outcome

section Declined

-- one symbol without arguments, and the definition that makes it true
def factInference (satdelay : Bool) : Inference Unit Unit Unit where
  symbol _ := ()
  isFunction _ := false
  defsymbols _ := [()]
  opens _ := []
  hasRecursionOverNegation _ := false
  stableSemantics := false
  approxTwoValued σ _ := σ.ct () || σ.cf ()
  isConsistent σ := ! (σ.ct () && σ.cf ())
  satdelay := satdelay
  exceedsThreshold _ _ := true
  solve _ σ := if σ.cf () then none else some fun _ => true

def Fact (_ : Unit) (I : Unit → Bool) : Prop := I () = true

theorem factInference_correct (satdelay : Bool) : (factInference satdelay).Correct Fact fun _ => True where
  approx_decided σ s h a _ := Bool.or_eq_true_iff.mp h
  approx_congr σ τ s h := by
    obtain ⟨hct, hcf⟩ := h () rfl
    simp [factInference, hct, hcf]
  approx_function σ s I h := absurd h Bool.false_ne_true
  consistent σ := by
    have hunit : σ.Consistent ↔ (σ.ct () = true → σ.cf () = false) := ⟨fun h => h (), fun h _ => h⟩
    rw [hunit]
    change (! (σ.ct () && σ.cf ())) = true ↔ _
    cases hct : σ.ct () <;> cases hcf : σ.cf () <;> decide
  congr d I J h hI := (h () (List.mem_singleton.mpr rfl)).symm.trans hI
  unique d I J _ hI hJ a _ := hI.trans hJ.symm
  sound d σ I _ _ h := by
    have hI : I = fun _ => true := by
      simp only [factInference] at h
      split_ifs at h
      exact (Option.some.inj h).symm
    exact ⟨trivial, hI ▸ rfl, fun a ha => absurd ha List.not_mem_nil⟩
  complete d σ _ _ h I _ hext hI := by
    have hcf : σ.cf () = true := by
      by_contra hne
      simp [factInference, hne] at h
    exact Bool.false_ne_true (((hext () (List.mem_singleton.mpr rfl)).2 hcf).symm.trans hI)

end Declined

end Inference

end CalculateDefinitions
