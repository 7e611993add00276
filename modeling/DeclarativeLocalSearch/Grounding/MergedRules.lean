import DeclarativeLocalSearch.Grounding.TseitinMeaning
import Mathlib.Data.List.Pairwise

namespace MergedRules

open Grounding (Lit TsType)
open Theory (AggFunction)

-- bound =< agg(set) for lower, and bound >= agg(set) otherwise
structure Aggregate where
  bound : Rat
  lower : Bool
  setnr : ℕ
  aggtype : AggFunction

inductive Body where
  | pc (body : List Lit) (conj : Bool)
  | agg (aggregate : Aggregate)

structure Tseitin where
  head : ℕ
  type : TsType
  body : Body

structure Translator where
  next : ℕ
  atom2TsBody : List Tseitin

def Translator.reify (body : Body) (tstype : TsType) (T : Translator) : Lit × Translator :=
  (⟨true, T.next⟩, ⟨T.next + 1, T.atom2TsBody ++ [⟨T.next, tstype, body⟩]⟩)

structure PCGroundRule where
  head : Lit
  conj : Bool
  body : List Lit
  recursive : Bool

structure AggGroundRule where
  head : Lit
  aggregate : Aggregate
  recursive : Bool

inductive GroundRule where
  | pc (r : PCGroundRule)
  | agg (r : AggGroundRule)

def PCGroundRule.isFalse (r : PCGroundRule) : Bool := r.body.isEmpty && ! r.conj

def PCGroundRule.isTrue (r : PCGroundRule) : Bool := r.body.isEmpty && r.conj

def tstype (recursive : Bool) : TsType := if recursive then .rule else .eq

-- a body is added for a head that has a rule
def GroundRule.addPC (head : Lit) (body : List Lit) (conj recursive : Bool) :
    GroundRule → Translator → GroundRule × Translator
  | .pc grb, T =>
    if grb.isFalse then (.pc ⟨head, conj, body, recursive⟩, T)
    else if body.isEmpty then (.pc (if conj then ⟨head, true, body, false⟩ else grb), T)
    else if grb.isTrue then (.pc grb, T)
    else if ! grb.conj then
      if ! conj || body.length = 1 then
        (.pc { grb with body := grb.body ++ body, recursive := grb.recursive || recursive }, T)
      else
        let (ts, T) := T.reify (.pc body conj) (tstype recursive)
        (.pc { grb with body := grb.body ++ [ts], recursive := grb.recursive || recursive }, T)
    else if grb.body.length = 1 && (! conj || body.length = 1) then
      (.pc ⟨grb.head, false, grb.body ++ body, grb.recursive || recursive⟩, T)
    else if ! conj || body.length = 1 then
      let (ts, T) := T.reify (.pc grb.body true) (tstype grb.recursive)
      (.pc ⟨grb.head, false, body ++ [ts], grb.recursive || recursive⟩, T)
    else
      let (ts1, T) := T.reify (.pc grb.body true) (tstype grb.recursive)
      let (ts2, T) := T.reify (.pc body conj) (tstype recursive)
      (.pc ⟨grb.head, false, [ts1, ts2], grb.recursive || recursive⟩, T)
  | .agg grb, T =>
    if body.isEmpty then (if conj then .pc ⟨head, true, body, false⟩ else .agg grb, T)
    else if ! conj || body.length = 1 then
      let (ts, T) := T.reify (.agg grb.aggregate) (tstype grb.recursive)
      (.pc ⟨head, false, body ++ [ts], recursive || grb.recursive⟩, T)
    else
      let (ts1, T) := T.reify (.agg grb.aggregate) (tstype grb.recursive)
      let (ts2, T) := T.reify (.pc body conj) (tstype recursive)
      (.pc ⟨head, false, [ts1, ts2], recursive || grb.recursive⟩, T)

def GroundRule.addAgg (head : Lit) (aggregate : Aggregate) (recursive : Bool) :
    GroundRule → Translator → GroundRule × Translator
  | .pc grb, T =>
    if grb.isFalse then (.agg ⟨head, aggregate, recursive⟩, T)
    else if grb.isTrue then (.pc grb, T)
    else if ! grb.conj then
      let (ts, T) := T.reify (.agg aggregate) (tstype recursive)
      (.pc { grb with body := grb.body ++ [ts], recursive := grb.recursive || recursive }, T)
    else
      let (ts2, T) := T.reify (.agg aggregate) (tstype recursive)
      if grb.body.length = 1 then
        (.pc ⟨grb.head, false, grb.body ++ [ts2], grb.recursive || recursive⟩, T)
      else
        let (ts1, T) := T.reify (.pc grb.body true) (tstype grb.recursive)
        (.pc ⟨grb.head, false, [ts1, ts2], grb.recursive || recursive⟩, T)
  | .agg grb, T =>
    let (ts1, T) := T.reify (.agg grb.aggregate) (tstype grb.recursive)
    let (ts2, T) := T.reify (.agg aggregate) (tstype recursive)
    (.pc ⟨head, false, [ts1, ts2], recursive || grb.recursive⟩, T)

structure GroundDefinition where
  rules : Lit → Option GroundRule
  translator : Translator

def GroundDefinition.put (head : Lit) (r : GroundRule × Translator) (d : GroundDefinition) : GroundDefinition :=
  ⟨Function.update d.rules head (some r.1), r.2⟩

def GroundDefinition.addPCRule (head : Lit) (body : List Lit) (conj recursive : Bool) (d : GroundDefinition) :
    GroundDefinition :=
  match d.rules head with
  | none => d.put head (.pc ⟨head, conj, body, recursive⟩, d.translator)
  | some r => d.put head (r.addPC head body conj recursive d.translator)

def GroundDefinition.addAggRule (head : Lit) (aggregate : Aggregate) (recursive : Bool) (d : GroundDefinition) :
    GroundDefinition :=
  match d.rules head with
  | none => d.put head (.agg ⟨head, aggregate, recursive⟩, d.translator)
  | some r => d.put head (r.addAgg head aggregate recursive d.translator)

-- a call, and how many numbers the translator has given to others since the one before
structure Call where
  others : ℕ
  head : Lit
  body : Body
  recursive : Bool

def GroundDefinition.call (d : GroundDefinition) (q : Call) : GroundDefinition :=
  let d := { d with translator := { d.translator with next := d.translator.next + q.others } }
  match q.body with
  | .pc body conj => d.addPCRule q.head body conj q.recursive
  | .agg aggregate => d.addAggRule q.head aggregate q.recursive

def start (next : ℕ) : GroundDefinition := ⟨fun _ => none, ⟨next, []⟩⟩

def run (d : GroundDefinition) (calls : List Call) : GroundDefinition := calls.foldl GroundDefinition.call d

-- the logic that literals and aggregates are read in, such as the one with two or the one with three values
structure Reading (V : Type) where
  neg : V → V
  aggregate : Aggregate → (ℕ → V) → V

section Meaning

variable {V : Type} [Lattice V] [BoundedOrder V] (R : Reading V) (ν : ℕ → V)

def Reading.lit (l : Lit) : V := if l.positive then ν l.atom else R.neg (ν l.atom)

def Reading.conjunction (body : List Lit) : V := (body.map (R.lit ν)).foldr (· ⊓ ·) ⊤

def Reading.disjunction (body : List Lit) : V := (body.map (R.lit ν)).foldr (· ⊔ ·) ⊥

def Body.value : Body → V
  | .pc body conj => if conj then R.conjunction ν body else R.disjunction ν body
  | .agg aggregate => R.aggregate aggregate ν

def GroundRule.body : GroundRule → Body
  | .pc r => .pc r.body r.conj
  | .agg r => .agg r.aggregate

def GroundRule.recursive : GroundRule → Bool
  | .pc r => r.recursive
  | .agg r => r.recursive

def GroundRule.head : GroundRule → Lit
  | .pc r => r.head
  | .agg r => r.head

-- each Tseitin has the value of the body that it stands for
def Translator.Meant (T : Translator) : Prop := ∀ t ∈ T.atom2TsBody, ν t.head = t.body.value R ν

end Meaning

def Body.isTrue : Body → Bool
  | .pc body conj => body.isEmpty && conj
  | .agg _ => false

def Body.isFalse : Body → Bool
  | .pc body conj => body.isEmpty && ! conj
  | .agg _ => false

-- the literals of a body that is a disjunction already
def Body.literals : Body → Option (List Lit)
  | .pc body conj => if ! conj || body.length = 1 then some body else none
  | .agg _ => none

-- a merged rule has another body
def Body.single : Body → Bool
  | .pc _ conj => conj
  | .agg _ => true

-- the disjuncts that stand for a body in a merged rule
inductive Splits (b : Body) (recursive : Bool) (T : Translator) : List Lit → Translator → Prop
  | literals {ls : List Lit} (h : b.literals = some ls) : Splits b recursive T ls T
  | reify (h : b.single) : Splits b recursive T [⟨true, T.next⟩] (T.reify b (tstype recursive)).2

-- the disjuncts of the rule and of the new body, by whichever is reified first
inductive Joined (r : GroundRule) (b : Body) (recursive : Bool) (T : Translator) :
    List Lit → List Lit → Translator → Prop
  | left {ls ls' : List Lit} {T₁ T₂ : Translator} (h : Splits r.body r.recursive T ls T₁)
      (h' : Splits b recursive T₁ ls' T₂) : Joined r b recursive T ls ls' T₂
  | right {ls ls' : List Lit} {T₁ T₂ : Translator} (h' : Splits b recursive T ls' T₁)
      (h : Splits r.body r.recursive T₁ ls T₂) : Joined r b recursive T ls ls' T₂

inductive Outcome (head : Lit) (r : GroundRule) (b : Body) (recursive : Bool) (T : Translator) :
    GroundRule × Translator → Prop
  | replaced (hr : r.body.isFalse) (r' : GroundRule) (hhead : r'.head = head) (hbody : r'.body = b)
      (hrec : r'.recursive = recursive) : Outcome head r b recursive T (r', T)
  | kept (h : b.isFalse ∨ r.body.isTrue) (hr : ¬ r.body.isFalse) (hb : ¬ b.isTrue) :
      Outcome head r b recursive T (r, T)
  | decided (hb : b.isTrue) (hr : ¬ r.body.isFalse) : Outcome head r b recursive T (.pc ⟨head, true, [], false⟩, T)
  | joined {ls ls' m : List Lit} {T' : Translator} {hd : Lit} (hr : ¬ r.body.isFalse ∧ ¬ r.body.isTrue)
      (hb : ¬ b.isFalse ∧ ¬ b.isTrue) (h : Joined r b recursive T ls ls' T') (hm : m = ls ++ ls' ∨ m = ls' ++ ls)
      (hhead : hd = head ∨ hd = r.head) :
      Outcome head r b recursive T (.pc ⟨hd, false, m, r.recursive || recursive⟩, T')

section Outcomes

variable {head : Lit} {recursive : Bool} {T : Translator}

theorem splits_pc {body : List Lit} {conj : Bool} (h : (! conj || body.length = 1) = true) :
    Splits (.pc body conj) recursive T body T := .literals (by rw [Body.literals, if_pos h])

theorem splits_reify {body : List Lit} {conj : Bool} (h : ¬ (! conj || body.length = 1) = true) :
    Splits (.pc body conj) recursive T [⟨true, T.next⟩] (T.reify (.pc body conj) (tstype recursive)).2 :=
  .reify (by cases conj <;> simp_all [Body.single])

theorem splits_conj {body : List Lit} {conj : Bool} (h : conj = true) :
    Splits (.pc body conj) recursive T [⟨true, T.next⟩] (T.reify (.pc body true) (tstype recursive)).2 := by
  subst h
  exact .reify rfl

theorem splits_agg {aggregate : Aggregate} :
    Splits (.agg aggregate) recursive T [⟨true, T.next⟩] (T.reify (.agg aggregate) (tstype recursive)).2 := .reify rfl

theorem addPC_pc_outcome (grb : PCGroundRule) (body : List Lit) (conj : Bool) :
    Outcome head (.pc grb) (.pc body conj) recursive T ((GroundRule.pc grb).addPC head body conj recursive T) := by
  rw [GroundRule.addPC]
  by_cases hfalse : grb.isFalse = true
  · rw [if_pos hfalse]
    exact .replaced (r := .pc grb) hfalse _ rfl rfl rfl
  have hfalse' : ¬ (GroundRule.pc grb).body.isFalse = true := hfalse
  rw [if_neg hfalse]
  by_cases hempty : body.isEmpty = true
  · rw [if_pos hempty]
    obtain rfl := List.isEmpty_iff.mp hempty
    cases conj with
    | false => exact .kept (b := .pc [] false) (Or.inl rfl) hfalse' Bool.false_ne_true
    | true => exact .decided (b := .pc [] true) rfl hfalse'
  have hb : ¬ (Body.pc body conj).isFalse ∧ ¬ (Body.pc body conj).isTrue := by
    simp [Body.isFalse, Body.isTrue, hempty]
  rw [if_neg hempty]
  by_cases htrue : grb.isTrue = true
  · rw [if_pos htrue]
    exact .kept (r := .pc grb) (Or.inr htrue) hfalse' hb.2
  have hr : ¬ (GroundRule.pc grb).body.isFalse ∧ ¬ (GroundRule.pc grb).body.isTrue := ⟨hfalse, htrue⟩
  rw [if_neg htrue]
  by_cases hdisj : (! grb.conj) = true
  · have hconj : grb.conj = false := by simpa using hdisj
    have hsplit : Splits (GroundRule.pc grb).body grb.recursive T grb.body T := splits_pc (by simp [hdisj])
    rw [if_pos hdisj, hconj]
    split_ifs with hnew
    · exact .joined hr hb (.left hsplit (splits_pc hnew)) (Or.inl rfl) (Or.inr rfl)
    · exact .joined hr hb (.left hsplit (splits_reify hnew)) (Or.inl rfl) (Or.inr rfl)
  have hconj : grb.conj = true := by simpa using hdisj
  rw [if_neg hdisj]
  by_cases hone : (grb.body.length = 1 && (! conj || body.length = 1)) = true
  · rw [if_pos hone]
    rw [Bool.and_eq_true] at hone
    exact .joined hr hb (.left (splits_pc (by simp [hone.1])) (splits_pc hone.2)) (Or.inl rfl) (Or.inr rfl)
  rw [if_neg hone]
  have hsplit : Splits (GroundRule.pc grb).body grb.recursive T [⟨true, T.next⟩]
      (T.reify (.pc grb.body true) (tstype grb.recursive)).2 := splits_conj hconj
  split_ifs with hnew
  · exact .joined hr hb (.left hsplit (splits_pc hnew)) (Or.inr rfl) (Or.inr rfl)
  · exact .joined hr hb (.left hsplit (splits_reify hnew)) (Or.inl rfl) (Or.inr rfl)

theorem addPC_agg_outcome (grb : AggGroundRule) (body : List Lit) (conj : Bool) :
    Outcome head (.agg grb) (.pc body conj) recursive T ((GroundRule.agg grb).addPC head body conj recursive T) := by
  have hfalse : ¬ (GroundRule.agg grb).body.isFalse = true := Bool.false_ne_true
  have htrue : ¬ (GroundRule.agg grb).body.isTrue = true := Bool.false_ne_true
  rw [GroundRule.addPC]
  by_cases hempty : body.isEmpty = true
  · rw [if_pos hempty]
    obtain rfl := List.isEmpty_iff.mp hempty
    cases conj with
    | false => exact .kept (b := .pc [] false) (Or.inl rfl) hfalse Bool.false_ne_true
    | true => exact .decided (b := .pc [] true) rfl hfalse
  have hb : ¬ (Body.pc body conj).isFalse ∧ ¬ (Body.pc body conj).isTrue := by
    simp [Body.isFalse, Body.isTrue, hempty]
  rw [if_neg hempty, Bool.or_comm recursive]
  split_ifs with hnew
  · exact .joined ⟨hfalse, htrue⟩ hb (.left splits_agg (splits_pc hnew)) (Or.inr rfl) (Or.inl rfl)
  · exact .joined ⟨hfalse, htrue⟩ hb (.left splits_agg (splits_reify hnew)) (Or.inl rfl) (Or.inl rfl)

theorem addPC_outcome (r : GroundRule) (body : List Lit) (conj : Bool) :
    Outcome head r (.pc body conj) recursive T (r.addPC head body conj recursive T) := by
  cases r with
  | pc grb => exact addPC_pc_outcome grb body conj
  | agg grb => exact addPC_agg_outcome grb body conj

theorem addAgg_outcome (r : GroundRule) (aggregate : Aggregate) :
    Outcome head r (.agg aggregate) recursive T (r.addAgg head aggregate recursive T) := by
  have hb : ¬ (Body.agg aggregate).isFalse ∧ ¬ (Body.agg aggregate).isTrue := ⟨Bool.false_ne_true, Bool.false_ne_true⟩
  cases r with
  | agg grb =>
    rw [GroundRule.addAgg, Bool.or_comm recursive]
    exact .joined ⟨Bool.false_ne_true, Bool.false_ne_true⟩ hb (.left splits_agg splits_agg) (Or.inl rfl) (Or.inl rfl)
  | pc grb =>
    rw [GroundRule.addAgg]
    by_cases hfalse : grb.isFalse = true
    · rw [if_pos hfalse]
      exact .replaced (r := .pc grb) hfalse _ rfl rfl rfl
    have hfalse' : ¬ (GroundRule.pc grb).body.isFalse = true := hfalse
    rw [if_neg hfalse]
    by_cases htrue : grb.isTrue = true
    · rw [if_pos htrue]
      exact .kept (r := .pc grb) (Or.inr htrue) hfalse' hb.2
    have hr : ¬ (GroundRule.pc grb).body.isFalse ∧ ¬ (GroundRule.pc grb).body.isTrue := ⟨hfalse, htrue⟩
    rw [if_neg htrue]
    by_cases hdisj : (! grb.conj) = true
    · have hconj : grb.conj = false := by simpa using hdisj
      rw [if_pos hdisj, hconj]
      exact .joined hr hb (.left (splits_pc (by simp [hdisj])) splits_agg) (Or.inl rfl) (Or.inr rfl)
    have hconj : grb.conj = true := by simpa using hdisj
    rw [if_neg hdisj]
    split_ifs with hone
    · exact .joined hr hb (.left (splits_pc (by simp [hone])) splits_agg) (Or.inl rfl) (Or.inr rfl)
    · exact .joined hr hb (.right splits_agg (splits_conj hconj)) (Or.inl rfl) (Or.inr rfl)

end Outcomes

section Parts

variable {V : Type} [Lattice V] [BoundedOrder V] {R : Reading V} {ν : ℕ → V}
variable {b : Body} {recursive : Bool} {T T' : Translator} {ls : List Lit} {r : GroundRule} {head : Lit}

@[simp] theorem disjunction_nil : R.disjunction ν [] = ⊥ := rfl

@[simp] theorem disjunction_cons (l : Lit) : R.disjunction ν (l :: ls) = R.lit ν l ⊔ R.disjunction ν ls := rfl

theorem disjunction_append (ls ls' : List Lit) :
    R.disjunction ν (ls ++ ls') = R.disjunction ν ls ⊔ R.disjunction ν ls' := by
  induction ls with
  | nil => simp
  | cons l ls ih => simp [ih, sup_assoc]

@[simp] theorem conjunction_nil : R.conjunction ν [] = ⊤ := rfl

@[simp] theorem conjunction_cons (l : Lit) : R.conjunction ν (l :: ls) = R.lit ν l ⊓ R.conjunction ν ls := rfl

theorem value_isFalse (h : b.isFalse = true) : b.value R ν = ⊥ := by
  cases b with
  | agg => exact absurd h Bool.false_ne_true
  | pc body conj =>
    obtain ⟨rfl, rfl⟩ : body = [] ∧ conj = false := by simpa [Body.isFalse] using h
    simp [Body.value]

theorem value_isTrue (h : b.isTrue = true) : b.value R ν = ⊤ := by
  cases b with
  | agg => exact absurd h Bool.false_ne_true
  | pc body conj =>
    obtain ⟨rfl, rfl⟩ : body = [] ∧ conj = true := by simpa [Body.isTrue] using h
    simp [Body.value]

theorem value_literals (h : b.literals = some ls) : R.disjunction ν ls = b.value R ν := by
  cases b with
  | agg => exact absurd h (by simp [Body.literals])
  | pc body conj =>
    rw [Body.literals] at h
    split_ifs at h with hdisj
    obtain rfl := Option.some.inj h
    cases conj with
    | false => rfl
    | true =>
      obtain ⟨l, rfl⟩ := List.length_eq_one_iff.mp (by simpa using hdisj)
      simp [Body.value]

def Translator.Le (T T' : Translator) : Prop := ∀ t ∈ T.atom2TsBody, t ∈ T'.atom2TsBody

theorem Translator.Le.refl : T.Le T := fun _ h => h

theorem Translator.Le.trans {T'' : Translator} (h : T.Le T') (h' : T'.Le T'') : T.Le T'' := fun t ht => h' t (h t ht)

theorem Translator.Meant.mono (h : T'.Meant R ν) (hle : T.Le T') : T.Meant R ν := fun t ht => h t (hle t ht)

namespace Splits

theorem le (h : Splits b recursive T ls T') : T.Le T' := by
  cases h with
  | literals h => exact .refl
  | reify h => exact fun t ht => List.mem_append_left _ ht

theorem value (h : Splits b recursive T ls T') (hmeant : T'.Meant R ν) : R.disjunction ν ls = b.value R ν := by
  cases h with
  | literals h => exact value_literals h
  | reify h =>
    have := hmeant _ (List.mem_append_right _ (List.mem_singleton_self _))
    simpa [Reading.lit] using this

theorem ne_nil (h : Splits b recursive T ls T') (hb : ¬ b.isFalse) : ls ≠ [] := by
  cases h with
  | reify h => exact List.cons_ne_nil _ _
  | literals h =>
    rintro rfl
    cases b with
    | agg => exact absurd h (by simp [Body.literals])
    | pc body conj =>
      rw [Body.literals] at h
      split_ifs at h with hdisj
      obtain rfl := Option.some.inj h
      exact hb (by simpa [Body.isFalse] using hdisj)

theorem tseitins (h : Splits b recursive T ls T') {t : Tseitin} (ht : t ∈ T'.atom2TsBody) :
    t ∈ T.atom2TsBody ∨ (b.single ∧ t.body = b ∧ t.type = tstype recursive) := by
  cases h with
  | literals h => exact Or.inl ht
  | reify h =>
    rcases List.mem_append.1 ht with ht | ht
    · exact Or.inl ht
    · rw [List.mem_singleton.1 ht]
      exact Or.inr ⟨h, rfl, rfl⟩

end Splits

-- the numbers of the Tseitins are below the next one, and different
structure Translator.Fresh (T : Translator) : Prop where
  below : ∀ t ∈ T.atom2TsBody, t.head < T.next
  distinct : T.atom2TsBody.Pairwise fun t t' => t.head ≠ t'.head

theorem Translator.Fresh.reify (h : T.Fresh) (b : Body) (type : TsType) : (T.reify b type).2.Fresh := by
  constructor
  · intro t ht
    rcases List.mem_append.1 ht with ht | ht
    · exact Nat.lt_succ_of_lt (h.below t ht)
    · rw [List.mem_singleton.1 ht]
      exact Nat.lt_succ_self _
  · refine List.pairwise_append.2 ⟨h.distinct, List.pairwise_singleton _ _, fun t ht t' ht' => ?_⟩
    rw [List.mem_singleton.1 ht']
    exact (h.below t ht).ne

theorem Splits.fresh (h : Splits b recursive T ls T') (hfresh : T.Fresh) : T'.Fresh := by
  cases h with
  | literals h => exact hfresh
  | reify h => exact hfresh.reify _ _

namespace Joined

variable {ls' : List Lit}

theorem le (h : Joined r b recursive T ls ls' T') : T.Le T' := by
  cases h with
  | left h h' => exact h.le.trans h'.le
  | right h' h => exact h'.le.trans h.le

theorem value (h : Joined r b recursive T ls ls' T') (hmeant : T'.Meant R ν) :
    R.disjunction ν ls ⊔ R.disjunction ν ls' = r.body.value R ν ⊔ b.value R ν := by
  cases h with
  | left h h' => rw [h.value (hmeant.mono h'.le), h'.value hmeant]
  | right h' h => rw [h.value hmeant, h'.value (hmeant.mono h.le)]

theorem ne_nil (h : Joined r b recursive T ls ls' T') (hr : ¬ r.body.isFalse) : ls ≠ [] := by
  cases h with
  | left h h' => exact h.ne_nil hr
  | right h' h => exact h.ne_nil hr

theorem tseitins (h : Joined r b recursive T ls ls' T') {t : Tseitin} (ht : t ∈ T'.atom2TsBody) :
    t ∈ T.atom2TsBody ∨ (r.body.single ∧ t.body = r.body ∧ t.type = tstype r.recursive) ∨
      (t.body = b ∧ t.type = tstype recursive) := by
  cases h with
  | left h h' =>
    rcases h'.tseitins ht with ht | ht
    · exact (h.tseitins ht).imp_right Or.inl
    · exact Or.inr (Or.inr ht.2)
  | right h' h =>
    rcases h.tseitins ht with ht | ht
    · exact (h'.tseitins ht).imp_right fun ht => Or.inr ht.2
    · exact Or.inr (Or.inl ht)

theorem fresh (h : Joined r b recursive T ls ls' T') (hfresh : T.Fresh) : T'.Fresh := by
  cases h with
  | left h h' => exact h'.fresh (h.fresh hfresh)
  | right h' h => exact h.fresh (h'.fresh hfresh)

end Joined

namespace Outcome

variable {out : GroundRule × Translator}

theorem le (h : Outcome head r b recursive T out) : T.Le out.2 := by
  cases h with
  | joined hr hb h hm hhead => exact h.le
  | _ => exact .refl

theorem fresh (h : Outcome head r b recursive T out) (hfresh : T.Fresh) : out.2.Fresh := by
  cases h with
  | joined hr hb h hm hhead => exact h.fresh hfresh
  | _ => exact hfresh

theorem value (h : Outcome head r b recursive T out) (hmeant : out.2.Meant R ν) :
    out.1.body.value R ν = r.body.value R ν ⊔ b.value R ν := by
  cases h with
  | replaced hr r' hhead hbody hrec => rw [value_isFalse hr, hbody, bot_sup_eq]
  | kept h hr hb =>
    rcases h with h | h
    · rw [value_isFalse h, sup_bot_eq]
    · rw [value_isTrue h, top_sup_eq]
  | decided hb hr => rw [value_isTrue hb, sup_top_eq, value_isTrue rfl]
  | joined hr hb h hm hhead =>
    rw [← h.value hmeant]
    rcases hm with rfl | rfl
    · exact disjunction_append _ _
    · exact (disjunction_append _ _).trans (sup_comm _ _)

theorem head_eq (h : Outcome head r b recursive T out) (hr : r.head = head) : out.1.head = head := by
  cases h with
  | replaced hr r' hhead hbody hrec => exact hhead
  | kept h hr' hb => exact hr
  | decided hb hr => rfl
  | joined hr' hb h hm hhead => exact hhead.elim id fun h => h.trans hr

theorem tseitins (h : Outcome head r b recursive T out) {t : Tseitin} (ht : t ∈ out.2.atom2TsBody) :
    t ∈ T.atom2TsBody ∨ (r.body.single ∧ ¬ r.body.isTrue ∧ t.body = r.body ∧ t.type = tstype r.recursive) ∨
      (t.body = b ∧ t.type = tstype recursive) := by
  cases h with
  | joined hr hb h hm hhead =>
    exact (h.tseitins ht).imp_right fun h => h.imp_left fun h => ⟨h.1, hr.2, h.2⟩
  | _ => exact Or.inl ht

end Outcome

end Parts

-- the disjunction of the bodies of all calls
def Reading.any {V : Type} [Lattice V] [BoundedOrder V] (R : Reading V) (ν : ℕ → V) (calls : List Call) : V :=
  (calls.map fun q => q.body.value R ν).foldr (· ⊔ ·) ⊥

-- the rule that is kept for a head, by the calls for that head
structure Kept (calls : List Call) (T : Translator) (head : Lit) (r : GroundRule) : Prop where
  head : r.head = head
  value : ∀ {V : Type} [Lattice V] [BoundedOrder V] (R : Reading V) (ν : ℕ → V),
    T.Meant R ν → r.body.value R ν = R.any ν calls
  isTrue : r.body.isTrue ↔ ∃ q ∈ calls, q.body.isTrue
  isFalse : r.body.isFalse → ∀ q ∈ calls, q.body.isFalse
  recursive : (∀ q ∈ calls, ¬ q.body.isTrue) → (∃ q ∈ calls, ¬ q.body.isFalse ∧ q.recursive) → r.recursive
  called : r.recursive → ∃ q ∈ calls, q.recursive
  single : r.body.single → ¬ r.body.isTrue → ∃ q ∈ calls, q.body = r.body ∧ q.recursive = r.recursive

section Keep

variable {calls : List Call} {q : Call} {T T' : Translator} {head : Lit} {r : GroundRule}
variable {out : GroundRule × Translator}

theorem any_append {V : Type} [Lattice V] [BoundedOrder V] {R : Reading V} {ν : ℕ → V} :
    R.any ν (calls ++ [q]) = R.any ν calls ⊔ q.body.value R ν := by
  unfold Reading.any
  induction calls with
  | nil => simp
  | cons q' calls ih =>
    rw [List.cons_append, List.map_cons, List.foldr_cons, ih, List.map_cons, List.foldr_cons, sup_assoc]

theorem Kept.mono (h : Kept calls T head r) (hle : T.Le T') : Kept calls T' head r where
  head := h.head
  value R ν hmeant := h.value R ν (hmeant.mono hle)
  isTrue := h.isTrue
  isFalse := h.isFalse
  recursive := h.recursive
  called := h.called
  single := h.single

theorem kept_first (hhead : r.head = head) (hbody : r.body = q.body) (hrec : r.recursive = q.recursive) :
    Kept [q] T head r where
  head := hhead
  value R ν _ := by simp [Reading.any, hbody]
  isTrue := by simp [hbody]
  isFalse := by simp [hbody]
  recursive := by simp [hrec]
  called := by simp [hrec]
  single := by simp [hbody, hrec]

theorem joined_trivial {ls ls' m : List Lit} {hd : Lit} {recursive recursive' : Bool}
    (h : Joined r q.body recursive T ls ls' T') (hr : ¬ r.body.isFalse) (hm : m = ls ++ ls' ∨ m = ls' ++ ls) :
    ¬ (GroundRule.pc ⟨hd, false, m, recursive'⟩).body.isFalse ∧
      ¬ (GroundRule.pc ⟨hd, false, m, recursive'⟩).body.isTrue := by
  have hne := h.ne_nil hr
  constructor
  · rcases hm with rfl | rfl <;> simp [GroundRule.body, Body.isFalse, hne]
  · simp [GroundRule.body, Body.isTrue]

theorem Kept.isTrue_append (h : Kept calls T head r) (hout : Outcome head r q.body q.recursive T out) :
    out.1.body.isTrue ↔ ∃ q' ∈ calls ++ [q], q'.body.isTrue := by
  have hsplit : (∃ q' ∈ calls ++ [q], q'.body.isTrue) ↔ r.body.isTrue ∨ q.body.isTrue := by
    simp [h.isTrue, or_and_right, exists_or]
  rw [hsplit]
  cases hout with
  | replaced hr r' hhead hbody hrec =>
    have : ¬ r.body.isTrue = true := by
      intro htrue
      cases hbody : r.body <;> simp_all [Body.isTrue, Body.isFalse]
    rw [hbody, or_iff_right this]
  | kept h' hr hb => rw [or_iff_left hb]
  | decided hb hr => exact iff_of_true rfl (Or.inr hb)
  | joined hr hb h' hm hhead =>
    exact iff_of_false (joined_trivial h' hr.1 hm).2 (not_or.2 ⟨hr.2, hb.2⟩)

theorem Kept.isFalse_append (h : Kept calls T head r) (hout : Outcome head r q.body q.recursive T out)
    (hfalse : out.1.body.isFalse) : ∀ q' ∈ calls ++ [q], q'.body.isFalse := by
  rw [List.forall_mem_append, List.forall_mem_singleton]
  cases hout with
  | replaced hr r' hhead hbody hrec => exact ⟨h.isFalse hr, hbody ▸ hfalse⟩
  | kept h' hr hb => exact absurd hfalse hr
  | decided hb hr => exact absurd hfalse Bool.false_ne_true
  | joined hr hb h' hm hhead => exact absurd hfalse (joined_trivial h' hr.1 hm).1

theorem Kept.recursive_append (h : Kept calls T head r) (hout : Outcome head r q.body q.recursive T out)
    (htrue : ∀ q' ∈ calls ++ [q], ¬ q'.body.isTrue)
    (hrec : ∃ q' ∈ calls ++ [q], ¬ q'.body.isFalse ∧ q'.recursive) : out.1.recursive := by
  rw [List.forall_mem_append, List.forall_mem_singleton] at htrue
  have hsplit : (∃ q' ∈ calls, ¬ q'.body.isFalse ∧ q'.recursive) ∨ (¬ q.body.isFalse ∧ q.recursive) := by
    simpa [or_and_right, exists_or] using hrec
  cases hout with
  | replaced hr r' hhead hbody hrec =>
    rcases hsplit with ⟨q', hmem, hnot, _⟩ | hnew
    · exact absurd (h.isFalse hr q' hmem) hnot
    · exact hrec.trans hnew.2
  | kept h' hr hb =>
    rcases h' with hfalse | hdone
    · exact h.recursive htrue.1 (hsplit.resolve_right fun hnew => hnew.1 hfalse)
    · obtain ⟨q', hmem, hq'⟩ := h.isTrue.1 hdone
      exact absurd hq' (htrue.1 q' hmem)
  | decided hb hr => exact absurd hb htrue.2
  | joined hr hb h' hm hhead =>
    refine Bool.or_eq_true _ _ |>.mpr ?_
    exact hsplit.imp (h.recursive htrue.1) And.right

theorem Kept.called_append (h : Kept calls T head r) (hout : Outcome head r q.body q.recursive T out)
    (hrec : out.1.recursive) : ∃ q' ∈ calls ++ [q], q'.recursive := by
  have hcases : r.recursive ∨ q.recursive := by
    cases hout with
    | replaced hr r' hhead hbody hrec' => exact Or.inr (hrec'.symm.trans hrec)
    | kept h' hr hb => exact Or.inl hrec
    | decided hb hr => exact absurd hrec Bool.false_ne_true
    | joined hr hb h' hm hhead => exact Bool.or_eq_true _ _ |>.mp hrec
  rcases hcases with hold | hnew
  · obtain ⟨q', hmem, hq'⟩ := h.called hold
    exact ⟨q', List.mem_append_left _ hmem, hq'⟩
  · exact ⟨q, List.mem_append_right _ (List.mem_singleton_self _), hnew⟩

theorem Kept.single_append (h : Kept calls T head r) (hout : Outcome head r q.body q.recursive T out)
    (hsingle : out.1.body.single) (htrue : ¬ out.1.body.isTrue) :
    ∃ q' ∈ calls ++ [q], q'.body = out.1.body ∧ q'.recursive = out.1.recursive := by
  cases hout with
  | replaced hr r' hhead hbody hrec =>
    exact ⟨q, List.mem_append_right _ (List.mem_singleton_self _), hbody.symm, hrec.symm⟩
  | kept h' hr hb =>
    obtain ⟨q', hmem, hq'⟩ := h.single hsingle htrue
    exact ⟨q', List.mem_append_left _ hmem, hq'⟩
  | decided hb hr => exact absurd rfl htrue
  | joined hr hb h' hm hhead => exact absurd hsingle Bool.false_ne_true

theorem Kept.append (h : Kept calls T head r) (hout : Outcome head r q.body q.recursive T out) :
    Kept (calls ++ [q]) out.2 head out.1 where
  head := hout.head_eq h.head
  value R ν hmeant := by rw [hout.value hmeant, h.value R ν (hmeant.mono hout.le), any_append]
  isTrue := h.isTrue_append hout
  isFalse := h.isFalse_append hout
  recursive := h.recursive_append hout
  called := h.called_append hout
  single := h.single_append hout

end Keep

section Runs

variable {calls : List Call} {d : GroundDefinition} {q : Call}

structure Stored (calls : List Call) (d : GroundDefinition) : Prop where
  absent : ∀ head, d.rules head = none ↔ ∀ q ∈ calls, q.head ≠ head
  rules : ∀ head r, d.rules head = some r → Kept (calls.filter (·.head = head)) d.translator head r
  tseitins : ∀ t ∈ d.translator.atom2TsBody, ∃ q ∈ calls, q.body = t.body ∧ t.type = tstype q.recursive
  fresh : d.translator.Fresh

theorem stored_start (next : ℕ) : Stored [] (start next) := by
  constructor <;> simp [start]
  constructor <;> simp

theorem call_cases (d : GroundDefinition) (q : Call) :
    ∃ T : Translator, T.atom2TsBody = d.translator.atom2TsBody ∧ T.next = d.translator.next + q.others ∧
      ((d.rules q.head = none ∧ ∃ r : GroundRule, r.head = q.head ∧ r.body = q.body ∧ r.recursive = q.recursive ∧
          d.call q = d.put q.head (r, T)) ∨
        ∃ r out, d.rules q.head = some r ∧ Outcome q.head r q.body q.recursive T out ∧
          d.call q = d.put q.head out) := by
  refine ⟨{ d.translator with next := d.translator.next + q.others }, rfl, rfl, ?_⟩
  obtain ⟨others, head, body, recursive⟩ := q
  cases hrule : d.rules head with
  | none =>
    refine Or.inl ⟨rfl, ?_⟩
    cases body with
    | pc body conj => exact ⟨.pc ⟨head, conj, body, recursive⟩, rfl, rfl, rfl, by
        simp [GroundDefinition.call, GroundDefinition.addPCRule, hrule, GroundDefinition.put]⟩
    | agg aggregate => exact ⟨.agg ⟨head, aggregate, recursive⟩, rfl, rfl, rfl, by
        simp [GroundDefinition.call, GroundDefinition.addAggRule, hrule, GroundDefinition.put]⟩
  | some r =>
    refine Or.inr ?_
    cases body with
    | pc body conj => exact ⟨r, _, rfl, addPC_outcome r body conj, by
        simp [GroundDefinition.call, GroundDefinition.addPCRule, hrule, GroundDefinition.put]⟩
    | agg aggregate => exact ⟨r, _, rfl, addAgg_outcome r aggregate, by
        simp [GroundDefinition.call, GroundDefinition.addAggRule, hrule, GroundDefinition.put]⟩

theorem filter_append_self (calls : List Call) (q : Call) :
    (calls ++ [q]).filter (·.head = q.head) = calls.filter (·.head = q.head) ++ [q] := by
  simp [List.filter_append]

theorem filter_append_other {head : Lit} (hne : head ≠ q.head) :
    (calls ++ [q]).filter (·.head = head) = calls.filter (·.head = head) := by
  simp [List.filter_append, hne.symm]

theorem fresh_skip {T T' : Translator} {n : ℕ} (h : T.Fresh) (hsame : T'.atom2TsBody = T.atom2TsBody)
    (hnext : T'.next = T.next + n) : T'.Fresh where
  below t ht := by
    rw [hsame] at ht
    exact hnext ▸ Nat.lt_add_right n (h.below t ht)
  distinct := hsame ▸ h.distinct

theorem Stored.put (h : Stored calls d) {T : Translator} (hle : d.translator.Le T) (hfresh : T.Fresh) {r : GroundRule}
    (hkept : Kept (calls.filter (·.head = q.head) ++ [q]) T q.head r)
    (hts : ∀ t ∈ T.atom2TsBody, t ∈ d.translator.atom2TsBody ∨
      ∃ q' ∈ calls ++ [q], q'.body = t.body ∧ t.type = tstype q'.recursive) :
    Stored (calls ++ [q]) (d.put q.head (r, T)) where
  absent head := by
    by_cases heq : head = q.head
    · subst heq
      simp [GroundDefinition.put]
    · change Function.update d.rules q.head (some r) head = none ↔ _
      rw [Function.update_of_ne heq, h.absent, List.forall_mem_append, List.forall_mem_singleton]
      exact (and_iff_left (Ne.symm heq)).symm
  rules head r' hr' := by
    rw [GroundDefinition.put] at hr'
    by_cases heq : head = q.head
    · subst heq
      obtain rfl : r = r' := by simpa using hr'
      rw [filter_append_self]
      exact hkept
    · rw [filter_append_other heq]
      exact (h.rules head r' (by simpa [heq] using hr')).mono hle
  tseitins t ht := by
    rcases hts t ht with hold | hnew
    · obtain ⟨q', hmem, hq'⟩ := h.tseitins t hold
      exact ⟨q', List.mem_append_left _ hmem, hq'⟩
    · exact hnew
  fresh := hfresh

theorem stored_call (h : Stored calls d) (q : Call) : Stored (calls ++ [q]) (d.call q) := by
  have hself : q ∈ calls ++ [q] := List.mem_append_right _ (List.mem_singleton_self _)
  obtain ⟨T, hsame, hnext, ⟨hnone, r, hhead, hbody, hrec, hcall⟩ | ⟨r, out, hrule, hout, hcall⟩⟩ := call_cases d q
  · have hempty : calls.filter (·.head = q.head) = [] := by
      rw [List.filter_eq_nil_iff]
      simpa using (h.absent q.head).1 hnone
    rw [hcall]
    refine h.put (fun t ht => hsame ▸ ht) (fresh_skip h.fresh hsame hnext) ?_ fun t ht => Or.inl (hsame ▸ ht)
    rw [hempty]
    exact kept_first hhead hbody hrec
  · have hle : d.translator.Le T := fun t ht => hsame ▸ ht
    have hkept := h.rules q.head r hrule
    rw [hcall]
    refine h.put (hle.trans hout.le) (hout.fresh (fresh_skip h.fresh hsame hnext)) ((hkept.mono hle).append hout) ?_
    intro t ht
    rcases hout.tseitins ht with hold | ⟨hsingle, htrue, hbody, htype⟩ | ⟨hbody, htype⟩
    · exact Or.inl (hsame ▸ hold)
    · obtain ⟨q', hmem, hq', hrec⟩ := hkept.single hsingle htrue
      exact Or.inr ⟨q', List.mem_append_left _ (List.mem_filter.1 hmem).1, hq'.trans hbody.symm, hrec ▸ htype⟩
    · exact Or.inr ⟨q, hself, hbody.symm, htype⟩

theorem stored_run (h : Stored calls d) (more : List Call) : Stored (calls ++ more) (run d more) := by
  induction more generalizing calls d with
  | nil => simpa [run] using h
  | cons q more ih => simpa [run] using ih (stored_call h q)

end Runs

section Extension

variable {V : Type} [Lattice V] [BoundedOrder V] {R : Reading V} {T : Translator}

def Translator.Introduced (T : Translator) (n : ℕ) : Prop := ∃ t ∈ T.atom2TsBody, t.head = n

-- a value that does not depend on the introduced Tseitins
def Translator.Free (T : Translator) (R : Reading V) (b : Body) : Prop :=
  ∀ ν ν' : ℕ → V, (∀ n, ¬ T.Introduced n → ν n = ν' n) → b.value R ν = b.value R ν'

theorem exists_meant (hfresh : T.Fresh) (hfree : ∀ t ∈ T.atom2TsBody, T.Free R t.body) (ν : ℕ → V) :
    ∃ ν', (∀ n, ¬ T.Introduced n → ν' n = ν n) ∧ T.Meant R ν' := by
  classical
  let ν' : ℕ → V := fun n => if h : T.Introduced n then h.choose.body.value R ν else ν n
  have hold : ∀ n, ¬ T.Introduced n → ν' n = ν n := fun n hn => dif_neg hn
  refine ⟨ν', hold, fun t ht => ?_⟩
  have hintro : T.Introduced t.head := ⟨t, ht, rfl⟩
  have hsame : hintro.choose = t := by
    by_contra hne
    have : Std.Symm fun t t' : Tseitin => t.head ≠ t'.head := ⟨fun _ _ h => h.symm⟩
    exact hfresh.distinct.forall hintro.choose_spec.1 ht hne hintro.choose_spec.2
  have hvalue : ν' t.head = t.body.value R ν := by
    rw [show ν' t.head = hintro.choose.body.value R ν from dif_pos hintro, hsame]
  rw [hvalue]
  exact hfree t ht ν ν' fun n hn => (hold n hn).symm

end Extension

-- what is kept for a head, of the calls for that head
structure Merged (calls : List Call) (T : Translator) (head : Lit) (r : GroundRule) : Prop where
  head : r.head = head
  -- for two, for three and for more truth values
  value : ∀ {V : Type} [Lattice V] [BoundedOrder V] (R : Reading V) (ν : ℕ → V),
    T.Meant R ν → r.body.value R ν = R.any ν calls
  recursive : (∀ q ∈ calls, ¬ q.body.isTrue) → (∃ q ∈ calls, ¬ q.body.isFalse ∧ q.recursive) → r.recursive
  isTrue : (∃ q ∈ calls, q.body.isTrue) → r.body.isTrue
  called : r.recursive → ∃ q ∈ calls, q.recursive

theorem run_merged (next : ℕ) (calls : List Call) :
    (∀ head, (run (start next) calls).rules head = none ↔ ∀ q ∈ calls, q.head ≠ head) ∧
    (∀ head r, (run (start next) calls).rules head = some r →
      Merged (calls.filter (·.head = head)) (run (start next) calls).translator head r) ∧
    (∀ t ∈ (run (start next) calls).translator.atom2TsBody,
      ∃ q ∈ calls, q.body = t.body ∧ t.type = tstype q.recursive) ∧
    (∀ {V : Type} [Lattice V] [BoundedOrder V] (R : Reading V) (ν : ℕ → V),
      (∀ q ∈ calls, (run (start next) calls).translator.Free R q.body) →
      ∃ ν' : ℕ → V, (∀ n, ¬ (run (start next) calls).translator.Introduced n → ν' n = ν n) ∧
        (run (start next) calls).translator.Meant R ν') := by
  have hstored : Stored calls (run (start next) calls) := by simpa using stored_run (stored_start next) calls
  refine ⟨hstored.absent, fun head r hr => ?_, hstored.tseitins, fun R ν hfree => ?_⟩
  · have hkept := hstored.rules head r hr
    exact ⟨hkept.head, hkept.value, hkept.recursive, hkept.isTrue.2, hkept.called⟩
  · refine exists_meant hstored.fresh (fun t ht => ?_) ν
    obtain ⟨q, hmem, hbody, _⟩ := hstored.tseitins t ht
    exact hbody ▸ hfree q hmem

def recursiveThenTrue : List Call := [⟨0, ⟨true, 1⟩, .pc [⟨true, 2⟩] false, true⟩, ⟨0, ⟨true, 1⟩, .pc [] true, false⟩]

theorem not_recursive_decided :
    (∃ q ∈ recursiveThenTrue, q.head = ⟨true, 1⟩ ∧ ¬ q.body.isFalse ∧ ¬ q.body.isTrue ∧ q.recursive) ∧
    ∃ r, (run (start 5) recursiveThenTrue).rules ⟨true, 1⟩ = some r ∧ ¬ r.recursive :=
  ⟨⟨_, List.mem_cons_self, by decide⟩, .pc ⟨⟨true, 1⟩, true, [], false⟩, rfl, by decide⟩

end MergedRules
