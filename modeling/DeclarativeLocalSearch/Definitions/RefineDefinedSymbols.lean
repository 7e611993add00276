import Mathlib.Data.Fintype.Card
import Mathlib.Data.Finset.Union
import DeclarativeLocalSearch.Definitions.CalculateDefinitions

namespace RefineDefinedSymbols

open CalculateDefinitions (Tables)

variable {S A I R : Type}

-- the atoms of a function have an input and an image, the definitions are those that are left after the
-- transformations of the theory
structure Inference (S A I R : Type) where
  symbol : A → S
  input : A → I
  domain : S → Finset I
  input_mem : ∀ a, input a ∈ domain (symbol a)
  functions : List S
  isPartial : S → Bool
  defsymbols : R → List S
  opens : R → List S
  opens_undefined : ∀ d, ∀ s ∈ opens d, s ∉ defsymbols d
  symbolsToQuery : List S
  usesXSB : R → Bool
  trueAnswers : R → Tables A → A → Bool
  unknownAnswers : R → Tables A → A → Bool
  approxTwoValued : Tables A → S → Bool
  order : List A
  shared : Tables A → S → Bool

structure Config (A R : Type) where
  definitionsToProcess : Finset R
  structure_ : Tables A
  hasModel : Bool

namespace Inference

variable [DecidableEq S] [DecidableEq A] [DecidableEq I] [DecidableEq R] [Fintype A] (X : Inference S A I R)

def isDefined (d : R) (a : A) : Bool := X.symbol a ∈ X.defsymbols d

def removeInterpretationOfDefinedSymbols (d : R) (σ : Tables A) : Tables A where
  ct a := !X.isDefined d a && σ.ct a
  cf a := !X.isDefined d a && σ.cf a

-- what is sent to XSB with the definition
def openTables (d : R) (σ : Tables A) : Tables A where
  ct a := decide (X.symbol a ∈ X.opens d) && σ.ct a
  cf a := decide (X.symbol a ∈ X.opens d) && σ.cf a

def answers (d : R) (σ : Tables A) : Tables A where
  ct := X.trueAnswers d (X.openTables d σ)
  cf a := !(X.trueAnswers d (X.openTables d σ) a || X.unknownAnswers d (X.openTables d σ) a)

def tableSize (s : S) (table : A → Bool) : ℕ := (Finset.univ.filter fun a => X.symbol a = s ∧ table a = true).card

def sameSizes (s : S) (σ τ : Tables A) : Bool :=
  X.tableSize s σ.ct = X.tableSize s τ.ct && X.tableSize s (fun a => !σ.cf a) = X.tableSize s (fun a => !τ.cf a)

def setTables (s : S) (τ σ : Tables A) : Tables A where
  ct a := if X.symbol a = s then τ.ct a else σ.ct a
  cf a := if X.symbol a = s then τ.cf a else σ.cf a

def isConsistentOn (s : S) (σ : Tables A) : Bool := decide (∀ a, X.symbol a = s → ¬(σ.ct a = true ∧ σ.cf a = true))

omit [DecidableEq A] in
def isConsistent (σ : Tables A) : Bool := decide (∀ a, ¬(σ.ct a = true ∧ σ.cf a = true))

-- no input has two certainly true images
def functional (s : S) (σ : Tables A) : Bool :=
  decide (∀ a b, X.symbol a = s → X.symbol b = s → X.input a = X.input b → σ.ct a = true → σ.ct b = true → a = b)

def satisfiesFunctionConstraints (s : S) (σ : Tables A) : Bool :=
  X.approxTwoValued σ s || (X.functional s σ && (X.isPartial s ||
    decide (∀ i ∈ X.domain s, ∃ a, X.symbol a = s ∧ X.input a = i ∧ σ.cf a = false)))

def isFunction (s : S) : Bool := s ∈ X.functions

def queryLoop (answers : Tables A) : List S → Tables A → Tables A × Bool
  | [], σ => (σ, true)
  | s :: symbols, σ =>
    let σ := if X.sameSizes s σ answers then σ else X.setTables s answers σ
    if X.isConsistentOn s σ = false then (σ, false)
    else if X.isFunction s && !X.satisfiesFunctionConstraints s σ then (σ, false)
    else queryLoop answers symbols σ

def queried (d : R) : List S :=
  if X.symbolsToQuery = [] then X.defsymbols d else (X.defsymbols d).filter (· ∈ X.symbolsToQuery)

def processDefinition (d : R) (σ : Tables A) : Tables A × Bool :=
  if X.usesXSB d then
    let (σ, hasModel) := X.queryLoop (X.answers d σ) (X.queried d) σ
    (σ, hasModel && isConsistent σ)
  else (σ, true)

-- the old interpretation of the symbol is put into the refined one
def insertOld (old : Tables A) (s : S) (σ : Tables A) : Tables A where
  ct a := σ.ct a || (decide (X.symbol a = s) && old.ct a)
  cf a := σ.cf a || (decide (X.symbol a = s) && old.cf a)

def postprocess (old : Tables A) : List S → Tables A → List S → Tables A × List S × Bool
  | [], σ, refined => (σ, refined, true)
  | s :: symbols, σ, refined =>
    if X.isConsistentOn s (X.insertOld old s σ) then
      postprocess old symbols (X.insertOld old s σ)
        (if X.sameSizes s old (X.insertOld old s σ) then refined else s :: refined)
    else (X.insertOld old s σ, refined, false)

def excludeImages (a : A) (σ : Tables A) : Tables A where
  ct b := !decide (X.symbol b = X.symbol a ∧ X.input b = X.input a ∧ b ≠ a) && σ.ct b
  cf b := decide (X.symbol b = X.symbol a ∧ X.input b = X.input a ∧ b ≠ a) || σ.cf b

def excludeOthers (shared : Bool) : List A → Tables A → Tables A
  | [], σ => σ
  | a :: atoms, σ => excludeOthers shared atoms (if shared || σ.ct a then X.excludeImages a σ else σ)

def cleanPartial (s : S) (σ : Tables A) : Tables A :=
  if X.isPartial s then
    X.excludeOthers (X.shared σ s) (X.order.filter fun a => X.symbol a = s && σ.ct a) σ
  else σ

-- all tuples outside the graph are false in a function table; a partial function gets one when its tables are
-- complements already, which changes no tuple
def toFuncTable (s : S) (σ : Tables A) : Option (Tables A) :=
  if X.tableSize s σ.ct = (X.domain s).card then
    if X.functional s σ then some (X.setTables s ⟨σ.ct, fun a => !σ.ct a⟩ σ) else none
  else some σ

-- no result: an exception for a second image; clean(predicate) changes no tuple
def cleanFunction (s : S) (σ : Tables A) : Option (Tables A) :=
  if X.isConsistentOn s σ then X.toFuncTable s (X.cleanPartial s σ) else some σ

def cleanFunctions : List S → Tables A → Option (Tables A)
  | [], σ => some σ
  | s :: symbols, σ => (X.cleanFunction s σ).bind (cleanFunctions symbols)

def clean (σ : Tables A) : Option (Tables A) := X.cleanFunctions X.functions σ

def requeue (definitions : Finset R) (refined : List S) (queue : Finset R) : Finset R :=
  queue ∪ definitions.filter fun d => ∃ s ∈ refined, s ∈ X.opens d

def processed (d : R) (σ : Tables A) : Tables A × Bool :=
  X.processDefinition d (X.removeInterpretationOfDefinedSymbols d σ)

def postprocessed (d : R) (σ : Tables A) : Tables A × List S × Bool :=
  X.postprocess σ (X.defsymbols d) (X.processed d σ).1 []

def next (definitions : Finset R) (d : R) (c : Config A R) : Option (Config A R) :=
  let queue := c.definitionsToProcess.erase d
  if (X.processed d c.structure_).2 = false then some ⟨queue, (X.processed d c.structure_).1, false⟩
  else if (X.postprocessed d c.structure_).2.2 = false then some ⟨queue, (X.postprocessed d c.structure_).1, false⟩
  else (X.clean (X.postprocessed d c.structure_).1).map fun σ =>
    ⟨X.requeue definitions (X.postprocessed d c.structure_).2.1 queue, σ, true⟩

-- the definitions are taken from the queue in any order
def Step (definitions : Finset R) (allowed : R → Tables A → Prop) (c c' : Config A R) : Prop :=
  c.hasModel = true ∧ ∃ d ∈ c.definitionsToProcess, allowed d c.structure_ ∧ X.next definitions d c = some c'

def start (definitions : Finset R) (σ : Tables A) : Config A R := ⟨definitions, σ, true⟩

def IsStructure (M : A → Bool) : Prop :=
  ∀ s ∈ X.functions, (∀ a b, X.symbol a = s → X.symbol b = s → X.input a = X.input b → M a = true → M b = true → a = b) ∧
    (X.isPartial s = false → ∀ i ∈ X.domain s, ∃ a, X.symbol a = s ∧ X.input a = i ∧ M a = true)

variable (satisfies : R → (A → Bool) → Prop)

structure IsModel (definitions : Finset R) (σ : Tables A) (M : A → Bool) : Prop where
  isStructure : X.IsStructure M
  extends_ : σ.ExtendedBy M
  satisfies : ∀ d ∈ definitions, satisfies d M

-- evaluating a definition only gives its consequences
def Sound : Prop :=
  ∀ d σ M, X.IsStructure M → satisfies d M → σ.ExtendedBy M → ∀ a, X.symbol a ∈ X.defsymbols d →
    ((X.answers d σ).ct a = true → M a = true) ∧ ((X.answers d σ).cf a = true → M a = false)

-- evaluating the definition again adds nothing
def Settled (d : R) (σ : Tables A) : Prop :=
  X.usesXSB d = true → ∀ a, X.symbol a ∈ X.queried d →
    ((X.answers d σ).ct a = true → σ.ct a = true) ∧ ((X.answers d σ).cf a = true → σ.cf a = true)

def Reached (definitions : Finset R) (σ : Tables A) (allowed : R → Tables A → Prop) (c : Config A R) : Prop :=
  Relation.ReflTransGen (X.Step definitions allowed) (start definitions σ) c

-- in the runs of which all steps are allowed ones
structure Correct (definitions : Finset R) (σ : Tables A) (allowed : R → Tables A → Prop) : Prop where
  terminates : Acc (fun c' c => X.Step definitions (fun _ _ => True) c c') (start definitions σ)
  proceeds : ∀ c, X.Reached definitions σ allowed c → c.hasModel = true →
    ∀ d ∈ c.definitionsToProcess, allowed d c.structure_ → ∃ c', X.next definitions d c = some c'
  keepsKnown : ∀ c, X.Reached definitions σ allowed c → σ.Le c.structure_
  keepsModels : ∀ c, X.Reached definitions σ allowed c → ∀ M, X.IsModel satisfies definitions σ M →
    c.structure_.ExtendedBy M
  settled : ∀ c, X.Reached definitions σ allowed c → c.hasModel = true → c.definitionsToProcess = ∅ →
    ∀ d ∈ definitions, X.Settled d c.structure_
  noModel : ∀ c, X.Reached definitions σ allowed c → c.hasModel = false → ∀ M, ¬X.IsModel satisfies definitions σ M

-- the symbols that do not have their old interpretation back when an inconsistency is found
def leftOut (old : Tables A) : List S → Tables A → List S
  | [], _ => []
  | s :: symbols, σ =>
    if X.isConsistentOn s (X.insertOld old s σ) then leftOut old symbols (X.insertOld old s σ) else symbols

def notRestored (d : R) (σ : Tables A) : List S :=
  if (X.processed d σ).2 then X.leftOut σ (X.defsymbols d) (X.processed d σ).1 else X.defsymbols d

structure Harmless (definitions : Finset R) (d : R) (σ : Tables A) : Prop where
  -- what is known of a symbol without its old interpretation has been derived again
  restored : ∀ a, X.symbol a ∈ X.notRestored d σ →
    (σ.ct a = true → (X.processed d σ).1.ct a = true) ∧ (σ.cf a = true → (X.processed d σ).1.cf a = true)
  -- where the old interpretation is back, no input has two images, and clean draws conclusions for symbols only
  -- that have been refined or are read by no definition
  functional : (X.processed d σ).2 = true → (X.postprocessed d σ).2.2 = true → ∀ s ∈ X.functions,
    X.functional s (X.postprocessed d σ).1 = true
  unchanged : (X.processed d σ).2 = true → (X.postprocessed d σ).2.2 = true →
    ∀ τ, X.clean (X.postprocessed d σ).1 = some τ → ∀ e ∈ definitions, ∀ a, X.symbol a ∈ X.opens e →
      X.symbol a ∉ (X.postprocessed d σ).2.1 →
        τ.ct a = (X.postprocessed d σ).1.ct a ∧ τ.cf a = (X.postprocessed d σ).1.cf a

end Inference

end RefineDefinedSymbols
