import DeclarativeLocalSearch.Grounding.GroundTheory
import Mathlib.Data.Set.Basic

namespace Grounding

open Theory (AggFunction)

variable {W B : Type}

section Literals

variable {ν ν' : ℕ → Prop}

def Lit.holds (ν : ℕ → Prop) (l : Lit) : Prop := if l.positive then ν l.atom else ¬ ν l.atom

@[simp] theorem Lit.neg_atom (l : Lit) : (-l).atom = l.atom := rfl

@[simp] theorem Lit.holds_pos {atom : ℕ} : Lit.holds ν ⟨true, atom⟩ ↔ ν atom := by
  simp [Lit.holds]

@[simp] theorem Lit.holds_negative {atom : ℕ} : Lit.holds ν ⟨false, atom⟩ ↔ ¬ ν atom := by
  simp [Lit.holds]

@[simp] theorem Lit.holds_neg {l : Lit} : (-l).holds ν ↔ ¬ l.holds ν := by
  cases l with
  | mk positive atom => cases positive <;> simp [Neg.neg]

def clauseHolds (ν : ℕ → Prop) (cl : List Lit) : Prop := ∃ l ∈ cl, l.holds ν

def bodyHolds (ν : ℕ → Prop) (body : List Lit) (conj : Bool) : Prop :=
  if conj then ∀ l ∈ body, l.holds ν else ∃ l ∈ body, l.holds ν

theorem bodyHolds_neg {body : List Lit} {conj : Bool} :
    bodyHolds ν (body.map (- ·)) (! conj) ↔ ¬ bodyHolds ν body conj := by
  cases conj <;> simp [bodyHolds]

theorem bodyHolds_single {l : Lit} {conj : Bool} : bodyHolds ν [l] conj ↔ l.holds ν := by
  cases conj <;> simp [bodyHolds]

theorem Lit.holds_agree {l : Lit} (h : ν l.atom ↔ ν' l.atom) : l.holds ν ↔ l.holds ν' := by
  unfold Lit.holds
  split_ifs
  · exact h
  · exact not_congr h

theorem bodyHolds_agree {body : List Lit} {conj : Bool} (h : ∀ l ∈ body, (ν l.atom ↔ ν' l.atom)) :
    bodyHolds ν body conj ↔ bodyHolds ν' body conj := by
  unfold bodyHolds
  split_ifs
  · exact forall₂_congr fun l hl => Lit.holds_agree (h l hl)
  · exact exists_congr fun l => and_congr_right fun hl => Lit.holds_agree (h l hl)

end Literals

-- which direction between a Tseitin and its body is asked for; a rule is a matter of its definition
def TsType.relates (head body : Prop) : TsType → Prop
  | .eq => head ↔ body
  | .impl => head → body
  | .rimpl => body → head
  | .rule => True

inductive GroundRule (W : Type) where
  | pc (defid head : ℕ) (body : List Lit) (conj : Bool)
  | agg (defid head : ℕ) (aggtype : AggFunction) (bound : W) (lower : Bool) (set : TsSet W)

def GroundRule.atoms : GroundRule W → List ℕ
  | .pc _ head body _ => head :: body.map Lit.atom
  | .agg _ head _ _ _ set => head :: set.literals.map Lit.atom

def TsSet.values (ν : ℕ → Prop) (set : TsSet W) : List (Prop × W) :=
  (set.literals.map (Lit.holds ν)).zip set.weights

theorem TsSet.values_agree {ν ν' : ℕ → Prop} {set : TsSet W} (h : ∀ l ∈ set.literals, (ν l.atom ↔ ν' l.atom)) :
    set.values ν = set.values ν' := by
  unfold TsSet.values
  rw [List.map_congr_left fun l hl => propext (Lit.holds_agree (h l hl))]

-- the comparison of an aggregate depends on its set only, a definition on the atoms of its rules, and its models
-- satisfy the rules
structure Semantics (W B : Type) where
  aggregate : AggFunction → W → Bool → List (Prop × W) → Prop
  other : B → Prop
  definitions : Set (GroundRule W) → (ℕ → Prop) → Prop
  agree : ∀ rules ν ν', (∀ r ∈ rules, ∀ a ∈ r.atoms, (ν a ↔ ν' a)) → definitions rules ν → definitions rules ν'
  satisfied_pc : ∀ rules ν, definitions rules ν →
    ∀ defid head body conj, .pc defid head body conj ∈ rules → bodyHolds ν body conj → ν head
  satisfied_agg : ∀ rules ν, definitions rules ν →
    ∀ defid head aggtype bound lower set, .agg defid head aggtype bound lower set ∈ rules →
      aggregate aggtype bound lower (set.values ν) → ν head

section Meaning

variable (X : Semantics W B) (translator : GroundTranslator W B)

def AggTsBody.holds (body : AggTsBody W) (set : TsSet W) (ν : ℕ → Prop) : Prop :=
  X.aggregate body.aggtype body.bound body.lower (set.values ν)

-- the solver has the sets it was sent
def Constraint.holds (sent : List (Constraint W B)) (ν : ℕ → Prop) : Constraint W B → Prop
  | .clause cl => clauseHolds ν cl
  | .equivalence head body conj => ν head ↔ bodyHolds ν body conj
  | .aggregate head body =>
    ∃ set weighted, .set body.setnr set weighted ∈ sent ∧ body.type.relates (ν head) (body.holds X set ν)
  | .other head type form => type.relates (ν head) (X.other form)
  | _ => True

def AggTsBody.groundRule (defid head : ℕ) (body : AggTsBody W) (set : TsSet W) : GroundRule W :=
  .agg defid head body.aggtype body.bound body.lower set

inductive Sends (sent : List (Constraint W B)) : GroundRule W → Prop
  | pc {defid head body conj} : .rule defid head body conj ∈ sent → Sends sent (.pc defid head body conj)
  | agg {defid head body set weighted} : .aggRule defid head body ∈ sent → .set body.setnr set weighted ∈ sent →
      Sends sent (body.groundRule defid head set)

-- a model of what was sent
def Sat (sent : List (Constraint W B)) (ν : ℕ → Prop) : Prop :=
  (∀ c ∈ sent, c.holds X sent ν) ∧ X.definitions {r | Sends sent r} ν

def TsBody.type : TsBody W B → TsType
  | .pc type _ _ => type
  | .agg body => body.type
  | .other type _ => type

def TsBody.value (ν : ℕ → Prop) : TsBody W B → Prop
  | .pc _ body conj => bodyHolds ν body conj
  | .agg body => body.holds X (translator.groundset body.setnr) ν
  | .other _ form => X.other form

def TsBody.atoms : TsBody W B → List ℕ
  | .pc _ body _ => body.map Lit.atom
  | .agg body => (translator.groundset body.setnr).literals.map Lit.atom
  | .other _ _ => []

-- the rule of a Tseitin in a definition
def TsBody.groundRule (defid tseitin : ℕ) : TsBody W B → Option (GroundRule W)
  | .pc _ body conj => some (.pc defid tseitin body conj)
  | .agg body => some (body.groundRule defid tseitin (translator.groundset body.setnr))
  | .other _ _ => none

theorem TsBody.value_agree {ν ν' : ℕ → Prop} {body : TsBody W B} (h : ∀ a ∈ body.atoms translator, (ν a ↔ ν' a)) :
    body.value X translator ν ↔ body.value X translator ν' := by
  cases body with
  | pc type body conj => exact bodyHolds_agree fun l hl => h l.atom (List.mem_map_of_mem hl)
  | agg body =>
    simp only [TsBody.value, AggTsBody.holds, TsSet.values_agree fun l hl => h l.atom (List.mem_map_of_mem hl)]
  | other type form => exact Iff.rfl

-- what is added, with each Tseitin constrained by its body and the Tseitins that are met in a definition defined there
inductive Given (additions : List (Addition W)) (met : ℕ → ℕ → Prop) : GroundRule W → Prop
  | rule {defid head body conj} : .rule defid head body conj ∈ additions →
      Given additions met (.pc defid head body conj)
  | aggRule {defid head body} : .aggRule defid head body ∈ additions →
      Given additions met (body.groundRule defid head (translator.groundset body.setnr))
  | tseitin {defid tseitin body r} : translator.getTsBody tseitin = some body → body.type = .rule →
      met defid tseitin → body.groundRule translator defid tseitin = some r → Given additions met r

def Spec (additions : List (Addition W)) (met : ℕ → ℕ → Prop) (ν : ℕ → Prop) : Prop :=
  (∀ cl, .clause cl ∈ additions → clauseHolds ν cl) ∧
  (∀ t body, translator.getTsBody t = some body → body.type.relates (ν t) (body.value X translator ν)) ∧
  X.definitions {r | Given translator additions met r} ν

end Meaning

end Grounding
