import DeclarativeLocalSearch.Grounding.TseitinMeaning
import Mathlib.Data.List.Induction

namespace LazyDisjunctive

open Grounding (Lit TsType bodyHolds bodyHolds_single)

-- what the reification of an instance gives
inductive Instance where
  | constant (value : Bool)
  | lit (l : Lit)

-- the instances in the order of the generator, or the subgrounders, and what the checker says when the generator
-- has come to an instance or to its end
structure Grounder where
  positive : Bool
  conj : Bool
  context : TsType
  useExplicitTseitins : Bool
  instances : List Instance
  check : ℕ → Bool
  nbiterations : ℕ
  nonempty : instances ≠ []

inductive Constraint where
  | implication (head : Lit) (type : TsType) (body : List Lit) (conj : Bool)
  -- the atom of the head
  | rule (head : ℕ) (body : List Lit) (conj : Bool)
  | clause (l : Lit)

structure State where
  index : ℕ
  residual : Lit
  stilldelayed : Bool
  decided : Bool
  constraints : List Constraint
  -- what has been added to the solver's own lazy clause
  additions : List Lit
  next : ℕ
  created : List ℕ
  grounded : List ℕ

def invertImplication : TsType → TsType
  | .impl => .rimpl
  | .rimpl => .impl
  | type => type

section Source

variable (g : Grounder)

def Grounder.tseitinType : TsType := if g.positive then g.context else invertImplication g.context

structure Grounded where
  index : ℕ
  lits : List Lit
  decided : Bool
  grounded : List ℕ

def groundLoop (groundall : Bool) : List Instance → ℕ → ℕ → Grounded
  | [], index, _ => ⟨index, [], false, []⟩
  | i :: instances, index, counter =>
    if groundall || counter < g.nbiterations then
      if g.check (index + 1) then ⟨index + 1, [], true, [index]⟩
      else
        match i with
        | .constant value =>
          if value ≠ g.conj then ⟨index + 1, [], true, [index]⟩
          else
            let r := groundLoop groundall instances (index + 1) counter
            { r with grounded := index :: r.grounded }
        | .lit l =>
          let r := groundLoop groundall instances (index + 1) (counter + 1)
          { r with lits := l :: r.lits, grounded := index :: r.grounded }
    else ⟨index, [], false, []⟩

def groundMore (groundall : Bool) (s : State) : List Lit × State :=
  let r := groundLoop g groundall (g.instances.drop s.index) s.index 0
  let s := { s with index := r.index, grounded := s.grounded ++ r.grounded }
  if r.decided then
    ([⟨! g.conj, s.next⟩],
      { s with
        stilldelayed := false
        decided := true
        constraints := s.constraints ++ [.clause ⟨true, s.next⟩]
        next := s.next + 1
        created := s.created ++ [s.next] })
  else if g.instances.length ≤ s.index then (r.lits, { s with stilldelayed := false })
  else if g.useExplicitTseitins then
    (r.lits ++ [⟨true, s.next⟩],
      { s with residual := ⟨true, s.next⟩, next := s.next + 1, created := s.created ++ [s.next] })
  else (r.lits, s)

def add (head : Lit) (type : TsType) (body : List Lit) (conj : Bool) : Constraint :=
  match type with
  | .rule => .rule head.atom body conj
  | type => .implication head type body conj

def notifyGroundingRequested (groundall : Bool) (s : State) : State :=
  let oldtseitin := s.residual
  let (lits, s) := groundMore g groundall s
  if g.useExplicitTseitins then
    { s with constraints := s.constraints ++ [add oldtseitin g.tseitinType lits g.conj] }
  else { s with additions := s.additions ++ lits }

-- a request, and how many numbers the translator has given to others since the one before
structure Request where
  groundall : Bool
  others : ℕ

-- there are no requests when nothing is delayed
def request (s : State) (q : Request) : State :=
  if s.stilldelayed then notifyGroundingRequested g q.groundall { s with next := s.next + q.others } else s

-- the literal is negated for a negative formula, and it is the first residual
def Grounder.first (tseitin : ℕ) : Lit := if g.positive then ⟨true, tseitin⟩ else -⟨true, tseitin⟩

-- the state when the Tseitin occurs in the theory
def internalClauseRun (tseitin next : ℕ) : State where
  index := 0
  residual := g.first tseitin
  stilldelayed := true
  decided := false
  constraints := []
  additions := []
  next := next
  created := []
  grounded := []

def run (tseitin next : ℕ) (requests : List Request) : State :=
  requests.foldl (request g) (internalClauseRun g tseitin next)

end Source

section Meaning

variable (ν : ℕ → Prop)

-- a rule makes its head equivalent with its body
def asked (type : TsType) (head body : Prop) : Prop :=
  match type with
  | .rule => head ↔ body
  | type => type.relates head body

def Constraint.holds : Constraint → Prop
  | implication head type body conj => type.relates (head.holds ν) (bodyHolds ν body conj)
  | rule head body conj => ν head ↔ bodyHolds ν body conj
  | clause l => l.holds ν

def Instance.holds : Instance → Prop
  | constant value => value = true
  | lit l => l.holds ν

def combine (conj : Bool) (a b : Prop) : Prop := if conj then a ∧ b else a ∨ b

def quantified (conj : Bool) (instances : List Instance) : Prop :=
  if conj then ∀ i ∈ instances, i.holds ν else ∃ i ∈ instances, i.holds ν

variable (g : Grounder)

def Grounder.whole : Prop := quantified ν g.conj g.instances

-- the instances up to an index, with the part not yet grounded
def Grounder.part (index : ℕ) (rest : Prop) : Prop := combine g.conj (quantified ν g.conj (g.instances.take index)) rest

-- what the type and the sign ask of the literal of the formula
def Grounder.demand (tseitin : ℕ) (formula : Prop) : Prop :=
  asked g.context (ν tseitin) (if g.positive then formula else ¬ formula)

-- where the checker speaks, the formula is decided
def Grounder.Checked : Prop := ∀ index, g.check index = true → (g.whole ν ↔ g.conj = false)

end Meaning

section Correctness

variable (g : Grounder) (tseitin : ℕ) (s : State)

-- the numbers made for residuals and decided formulas are the translator's new ones
def State.Fresh : Prop := ∀ a ∈ s.created, a ≠ tseitin ∧ ∀ l, .lit l ∈ g.instances → l.atom ≠ a

-- a number the grounder made for itself is seen as long as it is the residual
def State.Visible (a : ℕ) : Prop := a ∈ s.created → s.stilldelayed = true ∧ a = s.residual.atom

-- the body of the solver's lazy clause, with what is pending in it
def State.lazyBody (ν : ℕ → Prop) (pending : Prop) : Prop :=
  if s.stilldelayed then combine g.conj (bodyHolds ν s.additions g.conj) pending else bodyHolds ν s.additions g.conj

-- without residuals the solver has one lazy clause for the first literal
def State.Sat (ν : ℕ → Prop) (pending : Prop) : Prop :=
  ∃ ν' : ℕ → Prop, (∀ a, s.Visible a → (ν' a ↔ ν a)) ∧ (∀ c ∈ s.constraints, c.holds ν') ∧
    (g.useExplicitTseitins = false → asked g.tseitinType ((g.first tseitin).holds ν') (s.lazyBody g ν' pending))

-- the part not yet grounded
def State.rest (ν : ℕ → Prop) (pending : Prop) : Prop :=
  if g.useExplicitTseitins then s.residual.holds ν else pending

def State.formula (ν : ℕ → Prop) (pending : Prop) : Prop :=
  if s.stilldelayed then g.part ν s.index (s.rest g ν pending) else g.whole ν

structure State.Correct : Prop where
  related : ∀ ν, g.Checked ν → ∀ pending,
    (s.Sat g tseitin ν pending ↔ g.demand ν tseitin (s.formula g ν pending))
  grounded : s.grounded = List.range s.index
  bounded : s.index ≤ g.instances.length
  exhausted : s.index = g.instances.length ∨ s.decided = true → s.stilldelayed = false

end Correctness

section Formulas

variable {ν ν' : ℕ → Prop} {g : Grounder} {conj : Bool}

theorem quantified_append {instances instances' : List Instance} :
    quantified ν conj (instances ++ instances') ↔
      combine conj (quantified ν conj instances) (quantified ν conj instances') := by
  cases conj with
  | true => simp [quantified, combine, or_imp, forall_and]
  | false => simp [quantified, combine, or_and_right, exists_or]

theorem quantified_cons {i : Instance} {instances : List Instance} :
    quantified ν conj (i :: instances) ↔ combine conj (i.holds ν) (quantified ν conj instances) := by
  cases conj <;> simp [quantified, combine]

theorem bodyHolds_cons {l : Lit} {lits : List Lit} :
    bodyHolds ν (l :: lits) conj ↔ combine conj (l.holds ν) (bodyHolds ν lits conj) := by
  cases conj <;> simp [bodyHolds, combine]

theorem bodyHolds_append {lits lits' : List Lit} :
    bodyHolds ν (lits ++ lits') conj ↔ combine conj (bodyHolds ν lits conj) (bodyHolds ν lits' conj) := by
  cases conj with
  | true => simp [bodyHolds, combine, or_imp, forall_and]
  | false => simp [bodyHolds, combine, or_and_right, exists_or]

theorem bodyHolds_deciding {n : ℕ} (h : ν n) : bodyHolds ν [⟨! conj, n⟩] conj ↔ conj = false := by
  rw [bodyHolds_single]
  cases conj <;> simp [h]

theorem combine_congr {a a' b b' : Prop} (ha : a ↔ a') (hb : b ↔ b') : combine conj a b ↔ combine conj a' b' := by
  rw [propext ha, propext hb]

theorem combine_mono {a b b' : Prop} (h : b → b') : combine conj a b → combine conj a b' := by
  cases conj with
  | true => exact And.imp_right h
  | false => exact Or.imp_right h

theorem combine_assoc {a b c : Prop} : combine conj (combine conj a b) c ↔ combine conj a (combine conj b c) := by
  cases conj with
  | true => simp [combine, and_assoc]
  | false => simp [combine, or_assoc]

theorem combine_decided {a : Prop} : combine conj a (conj = false) ↔ conj = false := by
  cases conj <;> simp [combine]

theorem quantified_agree {instances : List Instance}
    (h : ∀ l, .lit l ∈ instances → (ν l.atom ↔ ν' l.atom)) :
    quantified ν conj instances ↔ quantified ν' conj instances := by
  have hi : ∀ i ∈ instances, (i.holds ν ↔ i.holds ν') := by
    intro i hi
    cases i with
    | constant value => rfl
    | lit l => exact Lit.holds_agree (h l hi)
  unfold quantified
  split_ifs
  · exact forall₂_congr hi
  · exact exists_congr fun i => and_congr_right fun hm => hi i hm

theorem quantified_decided {value : Bool} {instances : List Instance} (hv : value ≠ conj)
    (h : Instance.constant value ∈ instances) : quantified ν conj instances ↔ conj = false := by
  cases conj with
  | true =>
    refine iff_of_false (fun hall => hv ?_) (by simp)
    exact hall _ h
  | false => exact iff_of_true ⟨_, h, by simpa [Instance.holds] using hv⟩ rfl

end Formulas

section Types

variable {type : TsType} {conj : Bool}

theorem asked_combine {head a x : Prop} :
    (∃ p, asked type head (combine conj a p) ∧ asked type p x) ↔ asked type head (combine conj a x) := by
  constructor
  · rintro ⟨p, hp, hx⟩
    cases type with
    | eq => exact hp.trans (combine_congr Iff.rfl hx)
    | impl => exact fun h => combine_mono hx (hp h)
    | rimpl => exact fun h => hp (combine_mono hx h)
    | rule => exact hp.trans (combine_congr Iff.rfl hx)
  · intro h
    refine ⟨x, h, ?_⟩
    cases type <;> simp [asked, TsType.relates]

theorem asked_neg {head formula : Prop} :
    asked (invertImplication type) (¬ head) formula ↔ asked type head (¬ formula) := by
  cases type <;> simp only [asked, TsType.relates, invertImplication] <;> tauto

theorem asked_first {g : Grounder} {ν : ℕ → Prop} {tseitin : ℕ} {formula : Prop} :
    asked g.tseitinType ((g.first tseitin).holds ν) formula ↔ g.demand ν tseitin formula := by
  unfold Grounder.tseitinType Grounder.first Grounder.demand
  cases g.positive with
  | true => simp
  | false => simpa using asked_neg

-- the head of a rule is an atom
def added (type : TsType) (head : Lit) (ν : ℕ → Prop) (body : Prop) : Prop :=
  match type with
  | .rule => ν head.atom ↔ body
  | type => type.relates (head.holds ν) body

theorem add_holds {ν : ℕ → Prop} {head : Lit} {body : List Lit} :
    (add head type body conj).holds ν ↔ added type head ν (bodyHolds ν body conj) := by
  cases type <;> rfl

theorem added_positive {ν : ℕ → Prop} {head : Lit} {body : Prop} (h : type = .rule → head.positive = true) :
    added type head ν body ↔ asked type (head.holds ν) body := by
  cases type with
  | rule => simp [added, asked, Lit.holds, h rfl]
  | _ => rfl

end Types

section Loop

variable {g : Grounder} {groundall : Bool} {instances : List Instance} {index counter : ℕ}

theorem groundLoop_cons {i : Instance} (r : Grounded)
    (h : groundLoop g groundall (i :: instances) index counter = r) :
    r = ⟨index, [], false, []⟩ ∨
    (r = ⟨index + 1, [], true, [index]⟩ ∧
      ((∃ k, g.check k = true) ∨ ∃ value, value ≠ g.conj ∧ i = .constant value)) ∨
    ∃ counter', ∃ r' : Grounded, groundLoop g groundall instances (index + 1) counter' = r' ∧
      ((i = .constant g.conj ∧ r = ⟨r'.index, r'.lits, r'.decided, index :: r'.grounded⟩) ∨
        ∃ l, i = .lit l ∧ r = ⟨r'.index, l :: r'.lits, r'.decided, index :: r'.grounded⟩) := by
  subst h
  cases i with
  | constant value =>
    dsimp only [groundLoop]
    split_ifs with hmore hcheck hvalue
    · exact Or.inr (Or.inl ⟨rfl, Or.inl ⟨_, hcheck⟩⟩)
    · exact Or.inr (Or.inl ⟨rfl, Or.inr ⟨value, hvalue, rfl⟩⟩)
    · exact Or.inr (Or.inr ⟨counter, _, rfl, Or.inl ⟨by rw [not_not.mp hvalue], rfl⟩⟩)
    · exact Or.inl rfl
  | lit l =>
    dsimp only [groundLoop]
    split_ifs with hmore hcheck
    · exact Or.inr (Or.inl ⟨rfl, Or.inl ⟨_, hcheck⟩⟩)
    · exact Or.inr (Or.inr ⟨counter + 1, _, rfl, Or.inr ⟨l, rfl, rfl⟩⟩)
    · exact Or.inl rfl

theorem groundLoop_index {r : Grounded} (h : groundLoop g groundall instances index counter = r) :
    index ≤ r.index ∧ r.index ≤ index + instances.length := by
  induction instances generalizing index counter r with
  | nil =>
    subst h
    simp [groundLoop]
  | cons i instances ih =>
    rw [List.length_cons]
    obtain rfl | ⟨rfl, -⟩ | ⟨counter', r', hr, hi⟩ := groundLoop_cons r h
    · simp
    · simp
    · have hr' := ih hr
      obtain ⟨-, rfl⟩ | ⟨l, -, rfl⟩ := hi <;> constructor <;> simp only <;> omega

theorem groundLoop_grounded {r : Grounded} (h : groundLoop g groundall instances index counter = r) :
    r.grounded = List.range' index (r.index - index) := by
  induction instances generalizing index counter r with
  | nil =>
    subst h
    simp [groundLoop]
  | cons i instances ih =>
    obtain rfl | ⟨rfl, -⟩ | ⟨counter', r', hr, hi⟩ := groundLoop_cons r h
    · simp
    · simp
    · have hindex := groundLoop_index hr
      have hnext : index :: r'.grounded = List.range' index (r'.index - index) := by
        rw [ih hr, ← List.range'_succ]
        congr 1
        omega
      obtain ⟨-, rfl⟩ | ⟨l, -, rfl⟩ := hi
      · exact hnext
      · exact hnext

theorem groundLoop_lits {ν : ℕ → Prop} {r : Grounded} (h : groundLoop g groundall instances index counter = r)
    (hd : r.decided = false) :
    bodyHolds ν r.lits g.conj ↔ quantified ν g.conj (instances.take (r.index - index)) := by
  have hnil : bodyHolds ν [] g.conj ↔ quantified ν g.conj [] := by
    simp [bodyHolds, quantified]
  induction instances generalizing index counter r with
  | nil =>
    subst h
    simpa [groundLoop] using hnil
  | cons i instances ih =>
    obtain rfl | ⟨rfl, -⟩ | ⟨counter', r', hr, hi⟩ := groundLoop_cons r h
    · simpa using hnil
    · simp at hd
    · have hindex := groundLoop_index hr
      have htake : (i :: instances).take (r'.index - index) = i :: instances.take (r'.index - (index + 1)) := by
        rw [show r'.index - index = r'.index - (index + 1) + 1 by omega, List.take_succ_cons]
      obtain ⟨rfl, rfl⟩ | ⟨l, rfl, rfl⟩ := hi
      · have hi := @ih _ _ _ hr hd
        simp only
        rw [htake, quantified_cons, ← propext hi]
        cases g.conj <;> simp [combine, Instance.holds]
      · have hi := @ih _ _ _ hr hd
        simp only
        rw [htake, quantified_cons, bodyHolds_cons, ← propext hi]
        rfl

theorem groundLoop_decided {r : Grounded} (h : groundLoop g groundall instances index counter = r)
    (hd : r.decided = true) :
    (∃ k, g.check k = true) ∨ ∃ value, value ≠ g.conj ∧ Instance.constant value ∈ instances := by
  induction instances generalizing index counter r with
  | nil =>
    subst h
    simp [groundLoop] at hd
  | cons i instances ih =>
    obtain rfl | ⟨rfl, hk | ⟨value, hv, rfl⟩⟩ | ⟨counter', r', hr, hi⟩ := groundLoop_cons r h
    · simp at hd
    · exact Or.inl hk
    · exact Or.inr ⟨value, hv, List.mem_cons_self⟩
    · have hd' : r'.decided = true := by
        obtain ⟨-, rfl⟩ | ⟨l, -, rfl⟩ := hi
        · exact hd
        · exact hd
      exact (ih hr hd').imp_right fun ⟨value, hv, hm⟩ => ⟨value, hv, List.mem_cons_of_mem i hm⟩

end Loop

section Requests

variable {g : Grounder} {s s' : State} {ν ν' : ℕ → Prop} {tseitin : ℕ}

-- what may come out of grounding more: the formula is decided, the instances are exhausted, there is a new residual,
-- or the solver's clause is left open
inductive Outcome (g : Grounder) (s : State) : List Lit → State → Prop
  | decided (index : ℕ) : s.index ≤ index → index ≤ g.instances.length →
      (∀ ν, g.Checked ν → (g.whole ν ↔ g.conj = false)) →
      Outcome g s [⟨! g.conj, s.next⟩]
        { s with
          index := index
          grounded := s.grounded ++ List.range' s.index (index - s.index)
          stilldelayed := false
          decided := true
          constraints := s.constraints ++ [.clause ⟨true, s.next⟩]
          next := s.next + 1
          created := s.created ++ [s.next] }
  | exhausted (lits : List Lit) :
      (∀ ν, bodyHolds ν lits g.conj ↔ quantified ν g.conj (g.instances.drop s.index)) →
      Outcome g s lits
        { s with
          index := g.instances.length
          grounded := s.grounded ++ List.range' s.index (g.instances.length - s.index)
          stilldelayed := false }
  | residual (lits : List Lit) (index : ℕ) : g.useExplicitTseitins = true →
      s.index ≤ index → index < g.instances.length →
      (∀ ν, bodyHolds ν lits g.conj ↔ quantified ν g.conj ((g.instances.drop s.index).take (index - s.index))) →
      Outcome g s (lits ++ [⟨true, s.next⟩])
        { s with
          index := index
          grounded := s.grounded ++ List.range' s.index (index - s.index)
          residual := ⟨true, s.next⟩
          next := s.next + 1
          created := s.created ++ [s.next] }
  | continued (lits : List Lit) (index : ℕ) : g.useExplicitTseitins = false →
      s.index ≤ index → index < g.instances.length →
      (∀ ν, bodyHolds ν lits g.conj ↔ quantified ν g.conj ((g.instances.drop s.index).take (index - s.index))) →
      Outcome g s lits
        { s with
          index := index
          grounded := s.grounded ++ List.range' s.index (index - s.index) }

theorem groundMore_outcome (groundall : Bool) (hs : s.index ≤ g.instances.length) :
    Outcome g s (groundMore g groundall s).1 (groundMore g groundall s).2 := by
  generalize hr : groundLoop g groundall (g.instances.drop s.index) s.index 0 = r
  have hindex := groundLoop_index hr
  have hgrounded := groundLoop_grounded hr
  rw [List.length_drop] at hindex
  have hbound : r.index ≤ g.instances.length := by omega
  unfold groundMore
  dsimp only
  rw [hr, hgrounded]
  split_ifs with hdecided hend hexplicit
  · refine Outcome.decided r.index hindex.1 hbound fun ν hν => ?_
    obtain ⟨k, hk⟩ | ⟨value, hv, hm⟩ := groundLoop_decided hr hdecided
    · exact hν k hk
    · exact quantified_decided hv (List.mem_of_mem_drop hm)
  · have hall : r.index = g.instances.length := by omega
    rw [hall]
    refine Outcome.exhausted r.lits fun ν => ?_
    rw [groundLoop_lits hr (by simpa using hdecided), hall, List.take_of_length_le (by simp)]
  · simp only [not_le] at hend
    exact Outcome.residual r.lits r.index hexplicit hindex.1 hend fun ν =>
      groundLoop_lits hr (by simpa using hdecided)
  · simp only [not_le] at hend
    exact Outcome.continued r.lits r.index (by simpa using hexplicit) hindex.1 hend fun ν =>
      groundLoop_lits hr (by simpa using hdecided)

theorem whole_agree (hi : ∀ l, .lit l ∈ g.instances → (ν l.atom ↔ ν' l.atom)) : g.whole ν ↔ g.whole ν' :=
  quantified_agree hi

theorem checked_agree (hi : ∀ l, .lit l ∈ g.instances → (ν l.atom ↔ ν' l.atom)) (h : g.Checked ν) : g.Checked ν' :=
  fun index hindex => (whole_agree hi).symm.trans (h index hindex)

theorem part_agree {index : ℕ} {rest rest' : Prop} (hi : ∀ l, .lit l ∈ g.instances → (ν l.atom ↔ ν' l.atom))
    (hrest : rest ↔ rest') : g.part ν index rest ↔ g.part ν' index rest' :=
  combine_congr (quantified_agree fun l hl => hi l (List.mem_of_mem_take hl)) hrest

theorem demand_agree {formula formula' : Prop} (ht : ν tseitin ↔ ν' tseitin) (hf : formula ↔ formula') :
    g.demand ν tseitin formula ↔ g.demand ν' tseitin formula' := by
  unfold Grounder.demand
  rw [propext ht, propext hf]

theorem part_slice {index index' : ℕ} {rest : Prop} (h : index ≤ index') :
    g.part ν index (combine g.conj (quantified ν g.conj ((g.instances.drop index).take (index' - index))) rest) ↔
      g.part ν index' rest := by
  unfold Grounder.part
  rw [← propext combine_assoc, ← propext quantified_append, ← List.take_add, Nat.add_sub_cancel' h]

theorem part_zero {rest : Prop} : g.part ν 0 rest ↔ rest := by
  cases hconj : g.conj <;> simp [Grounder.part, combine, quantified, hconj]

theorem part_whole {index : ℕ} : g.part ν index (quantified ν g.conj (g.instances.drop index)) ↔ g.whole ν := by
  unfold Grounder.part Grounder.whole
  rw [← propext quantified_append, List.take_append_drop]

theorem part_decided {index : ℕ} (h : g.whole ν ↔ g.conj = false) : g.part ν index (g.conj = false) ↔ g.whole ν := by
  rw [h]
  exact combine_decided

theorem State.Fresh.visible (h : s.Fresh g tseitin) (hν : ∀ a, s.Visible a → (ν' a ↔ ν a)) :
    (ν' tseitin ↔ ν tseitin) ∧ ∀ l, .lit l ∈ g.instances → (ν' l.atom ↔ ν l.atom) := by
  refine ⟨hν _ fun ha => absurd rfl (h _ ha).1, fun l hl => hν _ fun ha => absurd rfl ((h _ ha).2 l hl)⟩

end Requests

section Residuals

variable (g : Grounder) (tseitin : ℕ) (s : State)

-- the residual of a request is the first literal, or the number made by the request before
inductive State.Chained : Prop
  | first : s.residual = g.first tseitin → s.index = 0 → s.created = [] → s.constraints = [] → Chained
  | residual (a : ℕ) : s.residual = ⟨true, a⟩ → a ∈ s.created → Chained

-- between the requests
structure State.Delayed : Prop where
  stilldelayed : s.stilldelayed = true
  index_lt : s.index < g.instances.length
  undecided : s.decided = false
  created_lt : ∀ a ∈ s.created, a < s.next
  explicitly : g.useExplicitTseitins = true → s.Chained g tseitin
  lazily : g.useExplicitTseitins = false → s.created = [] ∧ s.constraints = [] ∧
    ∀ ν, bodyHolds ν s.additions g.conj ↔ quantified ν g.conj (g.instances.take s.index)

def State.Related : Prop := ∀ ν, g.Checked ν → ∀ pending,
  (s.Sat g tseitin ν pending ↔ g.demand ν tseitin (s.formula g ν pending))

end Residuals

section Steps

variable {g : Grounder} {s s' : State} {ν ν' : ℕ → Prop} {tseitin n : ℕ} {Y : (ℕ → Prop) → Prop} {pending : Prop}

theorem added_agree {type : TsType} {head : Lit} {body body' : Prop} (hh : ν head.atom ↔ ν' head.atom)
    (hb : body ↔ body') : added type head ν body ↔ added type head ν' body' := by
  cases type with
  | rule => exact iff_congr hh hb
  | eq => exact iff_congr (Lit.holds_agree hh) hb
  | impl => exact imp_congr (Lit.holds_agree hh) hb
  | rimpl => exact imp_congr hb (Lit.holds_agree hh)

-- a request with residuals: the new constraints say what is added for the residual, and the number of a decided
-- formula holds
structure Adds (g : Grounder) (s s' : State) (n : ℕ) (Y : (ℕ → Prop) → Prop) : Prop where
  visible : ∀ a, s'.Visible a → s.Visible a
  fresh : n ∉ s.created
  hidden : ∀ a ∈ s.created, ¬ s'.Visible a
  decided : s'.decided = true → ¬ s'.Visible n
  holds : ∃ new, s'.constraints = s.constraints ++ new ∧ ∀ ν : ℕ → Prop, (∀ c ∈ new, c.holds ν) ↔
    (s'.decided = true → ν n) ∧ added g.tseitinType s.residual ν (Y ν)
  agree : ∀ ν ν' : ℕ → Prop, (∀ a, s'.Visible a → (ν a ↔ ν' a)) → (Y ν ↔ Y ν')

theorem Adds.choose (h : Adds g s s' n Y) (ν : ℕ → Prop) :
    ∃ ν' : ℕ → Prop, (∀ a, a ≠ n → (ν' a ↔ ν a)) ∧ (∀ a, s'.Visible a → (ν' a ↔ ν a)) ∧ (s'.decided = true → ν' n) := by
  refine ⟨fun a => (s'.decided = true ∧ a = n) ∨ ν a, fun a ha => ?_, fun a ha => ?_, fun hd => Or.inl ⟨hd, rfl⟩⟩
  · simp [ha]
  · have hn : ¬ (s'.decided = true ∧ a = n) := by
      rintro ⟨hd, rfl⟩
      exact h.decided hd ha
    simp [hn]

theorem sat_first (h : Adds g s s' n Y) (he : g.useExplicitTseitins = true) (hf : s'.Fresh g tseitin)
    (hr : s.residual = g.first tseitin) (hc : s.constraints = []) :
    s'.Sat g tseitin ν pending ↔ added g.tseitinType (g.first tseitin) ν (Y ν) := by
  obtain ⟨new, hnew, hN⟩ := h.holds
  have hatom : (g.first tseitin).atom = tseitin := by
    unfold Grounder.first
    split_ifs <;> rfl
  constructor
  · rintro ⟨ν', hν', hall, -⟩
    rw [hnew, hc, List.nil_append] at hall
    have hadded := ((hN ν').mp hall).2
    rw [hr] at hadded
    exact (added_agree (by rw [hatom]; exact (hf.visible hν').1) (h.agree _ _ hν')).mp hadded
  · intro hadded
    obtain ⟨ν', -, hν', hd⟩ := h.choose ν
    refine ⟨ν', hν', ?_, by simp [he]⟩
    rw [hnew, hc, List.nil_append, hN, hr]
    exact ⟨hd, (added_agree (by rw [hatom]; exact (hf.visible hν').1) (h.agree _ _ hν')).mpr hadded⟩

theorem sat_residual (h : Adds g s s' n Y) (he : g.useExplicitTseitins = true) (hf : s'.Fresh g tseitin)
    (hdelayed : s.stilldelayed = true) {a : ℕ} (hr : s.residual = ⟨true, a⟩) (ha : a ∈ s.created)
    (hrel : s.Related g tseitin) (hν : g.Checked ν) :
    s'.Sat g tseitin ν pending ↔ asked g.tseitinType ((g.first tseitin).holds ν) (g.part ν s.index (Y ν)) := by
  obtain ⟨new, hnew, hN⟩ := h.holds
  have hrest : ∀ ν : ℕ → Prop, s.formula g ν pending = g.part ν s.index (ν a) := by
    intro ν
    simp [State.formula, State.rest, hdelayed, he, hr]
  have hresidual : ∀ ν : ℕ → Prop, added g.tseitinType s.residual ν (Y ν) ↔ asked g.tseitinType (ν a) (Y ν) := by
    intro ν
    rw [added_positive (by simp [hr]), hr]
    simp
  have hvisible : s.Visible a := fun _ => ⟨hdelayed, by rw [hr]⟩
  constructor
  · rintro ⟨ν', hν', hall, -⟩
    have hf' := hf.visible hν'
    rw [hnew] at hall
    have hbefore : s.Sat g tseitin ν' pending :=
      ⟨ν', fun _ _ => Iff.rfl, fun c hc => hall c (List.mem_append_left new hc), by simp [he]⟩
    have hchecked : g.Checked ν' := checked_agree (fun l hl => (hf'.2 l hl).symm) hν
    have hdemand := (hrel ν' hchecked pending).mp hbefore
    rw [hrest, ← propext asked_first] at hdemand
    have hadded := ((hN ν').mp fun c hc => hall c (List.mem_append_right s.constraints hc)).2
    rw [hresidual] at hadded
    have hasked := asked_combine.mp ⟨ν' a, hdemand, hadded⟩
    rw [asked_first] at hasked ⊢
    exact (demand_agree hf'.1 (part_agree hf'.2 (h.agree _ _ hν'))).mp hasked
  · intro hasked
    obtain ⟨p, hp, hY⟩ := asked_combine.mpr hasked
    obtain ⟨ν₁, hn, hν₁, hd⟩ := h.choose ν
    let ν₀ := Function.update ν₁ a p
    have hp₀ : ν₀ a ↔ p := by simp [ν₀]
    have hν₀ : ∀ b, s'.Visible b → (ν₀ b ↔ ν b) := by
      intro b hb
      have hne : b ≠ a := by
        rintro rfl
        exact h.hidden b ha hb
      simpa [ν₀, hne] using hν₁ b hb
    have hf₀ := hf.visible hν₀
    have hna : n ≠ a := by
      rintro rfl
      exact h.fresh ha
    have hd₀ : s'.decided = true → ν₀ n := by
      intro hdec
      simpa [ν₀, hna] using hd hdec
    have hdemand : g.demand ν₀ tseitin (s.formula g ν₀ pending) := by
      rw [hrest, propext hp₀]
      exact (demand_agree hf₀.1 (part_agree hf₀.2 Iff.rfl)).mpr (asked_first.mp hp)
    have hchecked : g.Checked ν₀ := checked_agree (fun l hl => (hf₀.2 l hl).symm) hν
    obtain ⟨ν', hν', hall, -⟩ := (hrel ν₀ hchecked pending).mpr hdemand
    have hback : ∀ b, s'.Visible b → (ν' b ↔ ν b) := fun b hb => (hν' b (h.visible b hb)).trans (hν₀ b hb)
    refine ⟨ν', hback, ?_, by simp [he]⟩
    have hn' : ν' n ↔ ν₀ n := hν' n fun hm => absurd hm h.fresh
    have ha' : ν' a ↔ p := (hν' a hvisible).trans hp₀
    rw [hnew]
    intro c hc
    rcases List.mem_append.mp hc with hc | hc
    · exact hall c hc
    · refine (hN ν').mpr ⟨fun hdec => hn'.mpr (hd₀ hdec), ?_⟩ c hc
      rw [hresidual, propext ha', propext (h.agree _ _ hback)]
      exact hY

end Steps

section Runs

variable {g : Grounder} {s s' : State} {ν : ℕ → Prop} {tseitin next : ℕ}

theorem State.Delayed.next_fresh (h : s.Delayed g tseitin) : s.next ∉ s.created :=
  fun hm => lt_irrefl _ (h.created_lt _ hm)

theorem notify_adds (groundall : Bool) (hd : s.Delayed g tseitin) (he : g.useExplicitTseitins = true)
    (hf : (notifyGroundingRequested g groundall s).Fresh g tseitin) :
    ∃ n Y, Adds g s (notifyGroundingRequested g groundall s) n Y ∧
      ∀ ν, g.Checked ν → ∀ pending,
        (g.part ν s.index (Y ν) ↔ (notifyGroundingRequested g groundall s).formula g ν pending) := by
  have ho := groundMore_outcome groundall hd.index_lt.le
  unfold notifyGroundingRequested at hf ⊢
  generalize groundMore g groundall s = out at ho hf ⊢
  obtain ⟨lits, s₁⟩ := out
  simp only [he, if_true] at ho hf ⊢
  cases ho with
  | decided index hle hbound hwhole =>
    refine ⟨s.next, fun _ => g.conj = false, ⟨?_, hd.next_fresh, ?_, ?_, ?_, ?_⟩, ?_⟩
    · intro a ha hm
      exact absurd (ha (List.mem_append_left _ hm)).1 (by simp)
    · intro a hm ha
      exact absurd (ha (List.mem_append_left _ hm)).1 (by simp)
    · intro _ ha
      exact absurd (ha (List.mem_append_right _ List.mem_cons_self)).1 (by simp)
    · refine ⟨_, List.append_assoc _ _ _, fun ν => ?_⟩
      simp only [List.cons_append, List.nil_append, List.forall_mem_cons, forall_true_left, List.not_mem_nil,
        false_implies, implies_true, and_true, add_holds]
      rw [Constraint.holds, Lit.holds_pos]
      exact and_congr_right fun hn => added_agree Iff.rfl (bodyHolds_deciding hn)
    · exact fun _ _ _ => Iff.rfl
    · intro ν hν pending
      simpa [State.formula] using part_decided (hwhole ν hν)
  | exhausted lits hlits =>
    refine ⟨s.next, fun ν => quantified ν g.conj (g.instances.drop s.index),
      ⟨?_, hd.next_fresh, ?_, ?_, ?_, ?_⟩, ?_⟩
    · intro a ha hm
      exact absurd (ha hm).1 (by simp)
    · intro a hm ha
      exact absurd (ha hm).1 (by simp)
    · intro hdec
      exact absurd hdec (by simp [hd.undecided])
    · refine ⟨_, rfl, fun ν => ?_⟩
      simp [add_holds, hlits, hd.undecided]
    · intro ν ν' hν
      exact quantified_agree fun l hl => (hf.visible hν).2 l (List.mem_of_mem_drop hl)
    · intro ν hν pending
      simpa [State.formula] using part_whole
  | residual lits index _ hle hlt hlits =>
    refine ⟨s.next, fun ν => combine g.conj
      (quantified ν g.conj ((g.instances.drop s.index).take (index - s.index))) (ν s.next),
      ⟨?_, hd.next_fresh, ?_, ?_, ?_, ?_⟩, ?_⟩
    · intro a ha hm
      obtain rfl : a = s.next := (ha (List.mem_append_left _ hm)).2
      exact absurd hm hd.next_fresh
    · intro a hm ha
      obtain rfl : a = s.next := (ha (List.mem_append_left _ hm)).2
      exact absurd hm hd.next_fresh
    · intro hdec
      exact absurd hdec (by simp [hd.undecided])
    · refine ⟨_, rfl, fun ν => ?_⟩
      simp [add_holds, hlits, hd.undecided, bodyHolds_append, bodyHolds_single]
    · intro ν ν' hν
      refine combine_congr (quantified_agree fun l hl => ?_) (hν _ fun _ => ⟨hd.stilldelayed, rfl⟩)
      exact (hf.visible hν).2 l (List.mem_of_mem_drop (List.mem_of_mem_take hl))
    · intro ν hν pending
      simpa [State.formula, State.rest, he, hd.stilldelayed] using part_slice hle
  | continued lits index hne => simp [he] at hne

theorem groundMore_created (groundall : Bool) : ∀ a ∈ s.created, a ∈ (groundMore g groundall s).2.created := by
  intro a ha
  unfold groundMore
  dsimp only
  split_ifs <;> simp [ha]

theorem request_created (q : Request) : ∀ a ∈ s.created, a ∈ (request g s q).created := by
  intro a ha
  unfold request notifyGroundingRequested
  split_ifs
  · exact groundMore_created q.groundall a ha
  · exact groundMore_created q.groundall a ha
  · exact ha

-- without residuals, the solver's clause says it all as long as the grounder adds no constraint of its own
theorem sat_lazy (he : g.useExplicitTseitins = false) (hcreated : s.created = []) (hc : s.constraints = [])
    {pending : Prop} :
    s.Sat g tseitin ν pending ↔ g.demand ν tseitin (s.lazyBody g ν pending) := by
  rw [← asked_first]
  constructor
  · rintro ⟨ν', hν', -, hasked⟩
    obtain rfl : ν' = ν := funext fun a => propext (hν' a (by simp [State.Visible, hcreated]))
    exact hasked he
  · intro hasked
    exact ⟨ν, fun _ _ => Iff.rfl, by simp [hc], fun _ => hasked⟩

theorem notify_lazily (groundall : Bool) (hd : s.Delayed g tseitin) (he : g.useExplicitTseitins = false)
    (hf : (notifyGroundingRequested g groundall s).Fresh g tseitin) :
    (notifyGroundingRequested g groundall s).Related g tseitin := by
  obtain ⟨hcreated, hconstraints, hadditions⟩ := hd.lazily he
  have ho := groundMore_outcome groundall hd.index_lt.le
  unfold notifyGroundingRequested at hf ⊢
  generalize groundMore g groundall s = out at ho hf ⊢
  obtain ⟨lits, s₁⟩ := out
  simp only [he, Bool.false_eq_true, if_false] at ho hf ⊢
  cases ho with
  | decided index hle hbound hwhole =>
    intro ν hν pending
    rw [← asked_first]
    have hbody : ∀ ν' : ℕ → Prop, ν' s.next →
        (bodyHolds ν' (s.additions ++ [⟨! g.conj, s.next⟩]) g.conj ↔ g.whole ν) := by
      intro ν' hn
      rw [bodyHolds_append, propext (bodyHolds_deciding hn), hwhole ν hν]
      exact combine_decided
    constructor
    · rintro ⟨ν', hν', hall, hasked⟩
      have hn : ν' s.next := Lit.holds_pos.mp (hall (.clause ⟨true, s.next⟩) (by simp))
      have hasked := hasked he
      simp only [State.lazyBody, Bool.false_eq_true, if_false, hbody ν' hn] at hasked
      rw [asked_first] at hasked ⊢
      exact (demand_agree (hf.visible hν').1 Iff.rfl).mp hasked
    · intro hasked
      have hn : Function.update ν s.next True s.next := by simp
      have hν' : ∀ a, a ≠ s.next → (Function.update ν s.next True a ↔ ν a) := by
        intro a ha
        simp [ha]
      refine ⟨Function.update ν s.next True, fun a ha => hν' a ?_, ?_, fun _ => ?_⟩
      · rintro rfl
        exact absurd (ha (by simp)).1 (by simp)
      · simp [hconstraints, Constraint.holds]
      · simp only [State.lazyBody, Bool.false_eq_true, if_false, hbody _ hn]
        have ht : tseitin ≠ s.next := fun h => (hf s.next (by simp)).1 h.symm
        rw [asked_first] at hasked ⊢
        exact (demand_agree (hν' tseitin ht) Iff.rfl).mpr hasked
  | exhausted lits hlits =>
    intro ν hν pending
    refine Iff.trans (sat_lazy he ?_ ?_) (demand_agree Iff.rfl ?_)
    · exact hcreated
    · exact hconstraints
    · simp only [State.lazyBody, State.formula, Bool.false_eq_true, if_false]
      rw [bodyHolds_append, propext (hadditions ν), propext (hlits ν)]
      exact part_whole
  | residual lits index hne => simp [he] at hne
  | continued lits index _ hle hlt hlits =>
    intro ν hν pending
    refine Iff.trans (sat_lazy he ?_ ?_) (demand_agree Iff.rfl ?_)
    · exact hcreated
    · exact hconstraints
    · simp only [State.lazyBody, State.formula, State.rest, hd.stilldelayed, he, if_true, Bool.false_eq_true, if_false]
      rw [bodyHolds_append, propext (hadditions ν), propext (hlits ν), propext combine_assoc]
      exact part_slice hle

-- what a request leaves, whatever is related
structure State.Framed (g : Grounder) (tseitin : ℕ) (s : State) : Prop where
  grounded : s.grounded = List.range s.index
  bounded : s.index ≤ g.instances.length
  exhausted : s.index = g.instances.length ∨ s.decided = true → s.stilldelayed = false
  delayed : s.stilldelayed = true → s.Delayed g tseitin

theorem notify_framed (groundall : Bool) (hs : s.Framed g tseitin) (hd : s.Delayed g tseitin) :
    (notifyGroundingRequested g groundall s).Framed g tseitin := by
  have ho := groundMore_outcome groundall hd.index_lt.le
  have hgrounded : ∀ index, s.index ≤ index →
      s.grounded ++ List.range' s.index (index - s.index) = List.range index := by
    intro index hle
    have happend := @List.range'_append_1 0 s.index (index - s.index)
    rw [Nat.zero_add, Nat.add_sub_cancel' hle] at happend
    rw [hs.grounded, List.range_eq_range', List.range_eq_range', happend]
  unfold notifyGroundingRequested
  generalize groundMore g groundall s = out at ho ⊢
  obtain ⟨lits, s₁⟩ := out
  dsimp only at ho ⊢
  cases ho with
  | decided index hle hbound hwhole =>
    split_ifs with he
    · exact ⟨hgrounded index hle, hbound, fun _ => rfl, by simp⟩
    · exact ⟨hgrounded index hle, hbound, fun _ => rfl, by simp⟩
  | exhausted lits hlits =>
    split_ifs with he
    · exact ⟨hgrounded _ hd.index_lt.le, le_rfl, fun _ => rfl, by simp⟩
    · exact ⟨hgrounded _ hd.index_lt.le, le_rfl, fun _ => rfl, by simp⟩
  | residual lits index he hle hlt hlits =>
    rw [if_pos he]
    refine ⟨hgrounded index hle, hlt.le, fun h => ?_, fun _ => ⟨hd.stilldelayed, hlt, hd.undecided, ?_, ?_, ?_⟩⟩
    · exact absurd h (by simp [hd.undecided, hlt.ne])
    · intro a ha
      rcases List.mem_append.mp ha with ha | ha
      · exact Nat.lt_succ_of_lt (hd.created_lt a ha)
      · rw [List.mem_singleton.mp ha]
        exact Nat.lt_succ_self _
    · exact fun _ => .residual s.next rfl (List.mem_append_right _ List.mem_cons_self)
    · simp [he]
  | continued lits index he hle hlt hlits =>
    obtain ⟨hcreated, hconstraints, hadditions⟩ := hd.lazily he
    rw [if_neg (by simp [he])]
    refine ⟨hgrounded index hle, hlt.le, fun h => ?_, fun _ => ⟨hd.stilldelayed, hlt, hd.undecided, ?_, ?_, ?_⟩⟩
    · exact absurd h (by simp [hd.undecided, hlt.ne])
    · exact hd.created_lt
    · simp [he]
    · refine fun _ => ⟨hcreated, hconstraints, fun ν => ?_⟩
      dsimp only
      rw [bodyHolds_append, propext (hadditions ν), propext (hlits ν), ← propext quantified_append, ← List.take_add,
        Nat.add_sub_cancel' hle]

-- a rule for the residual of a negative formula loses the sign of its head
def Grounder.SignKept (g : Grounder) : Prop := ¬ (g.useExplicitTseitins = true ∧ g.context = .rule ∧ g.positive = false)

theorem Grounder.SignKept.positive (h : g.SignKept) (he : g.useExplicitTseitins = true) (ht : g.tseitinType = .rule) :
    (g.first tseitin).positive = true := by
  unfold Grounder.first
  rw [if_pos]
  by_contra hp
  refine h ⟨he, ?_, by simpa using hp⟩
  unfold Grounder.tseitinType at ht
  rw [if_neg hp] at ht
  cases hc : g.context <;> simp [hc, invertImplication] at ht ⊢

theorem notify_related (groundall : Bool) (hsign : g.SignKept) (hd : s.Delayed g tseitin)
    (hrel : s.Related g tseitin) (hf : (notifyGroundingRequested g groundall s).Fresh g tseitin) :
    (notifyGroundingRequested g groundall s).Related g tseitin := by
  cases he : g.useExplicitTseitins with
  | false => exact notify_lazily groundall hd he hf
  | true =>
    obtain ⟨n, Y, hadds, hY⟩ := notify_adds groundall hd he hf
    intro ν hν pending
    rw [← propext (hY ν hν pending), ← asked_first]
    cases hd.explicitly he with
    | first hr hindex hcreated hconstraints =>
      rw [sat_first hadds he hf hr hconstraints, added_positive (hsign.positive he), hindex]
      rw [propext part_zero]
    | residual a hr ha => exact sat_residual hadds he hf hd.stilldelayed hr ha hrel hν

theorem run_snoc (requests : List Request) (q : Request) :
    run g tseitin next (requests ++ [q]) = request g (run g tseitin next requests) q := by
  simp [run]

theorem internalClauseRun_framed : (internalClauseRun g tseitin next).Framed g tseitin := by
  have hpos : 0 < g.instances.length := List.length_pos_iff.mpr g.nonempty
  refine ⟨rfl, Nat.zero_le _, fun h => ?_, fun _ => ⟨rfl, hpos, rfl, ?_, ?_, ?_⟩⟩
  · exact absurd h (by simp [internalClauseRun, hpos.ne])
  · simp [internalClauseRun]
  · exact fun _ => .first rfl rfl rfl rfl
  · exact fun _ => ⟨rfl, rfl, fun ν => by simp [internalClauseRun, bodyHolds, quantified]⟩

theorem internalClauseRun_related : (internalClauseRun g tseitin next).Related g tseitin := by
  intro ν hν pending
  cases he : g.useExplicitTseitins with
  | false =>
    refine Iff.trans (sat_lazy he rfl rfl) (demand_agree Iff.rfl ?_)
    cases hconj : g.conj <;>
      simp [State.lazyBody, State.formula, State.rest, internalClauseRun, he, part_zero, combine, bodyHolds, hconj]
  | true =>
    have hsat : (internalClauseRun g tseitin next).Sat g tseitin ν pending :=
      ⟨ν, fun _ _ => Iff.rfl, by simp [internalClauseRun], by simp [he]⟩
    refine iff_of_true hsat (asked_first.mp ?_)
    simp only [State.formula, State.rest, internalClauseRun, he, if_true, part_zero]
    cases g.tseitinType <;> simp [asked, TsType.relates]

theorem State.Delayed.others (hd : s.Delayed g tseitin) (others : ℕ) :
    State.Delayed g tseitin { s with next := s.next + others } := by
  refine ⟨hd.stilldelayed, hd.index_lt, hd.undecided, ?_, fun he => ?_, hd.lazily⟩
  · exact fun a ha => Nat.lt_add_right others (hd.created_lt a ha)
  · cases hd.explicitly he with
    | first hr hindex hcreated hconstraints => exact .first hr hindex hcreated hconstraints
    | residual a hr ha => exact .residual a hr ha

theorem request_framed (q : Request) (hs : s.Framed g tseitin) : (request g s q).Framed g tseitin := by
  unfold request
  split_ifs with hdelayed
  · have hd := (hs.delayed hdelayed).others q.others
    exact notify_framed q.groundall ⟨hs.grounded, hs.bounded, hs.exhausted, fun _ => hd⟩ hd
  · exact hs

theorem request_related (q : Request) (hsign : g.SignKept) (hs : s.Framed g tseitin) (hrel : s.Related g tseitin)
    (hf : (request g s q).Fresh g tseitin) : (request g s q).Related g tseitin := by
  unfold request at hf ⊢
  split_ifs at hf ⊢ with hdelayed
  · exact notify_related q.groundall hsign ((hs.delayed hdelayed).others q.others) hrel hf
  · exact hrel

theorem run_framed (requests : List Request) : (run g tseitin next requests).Framed g tseitin := by
  induction requests using List.reverseRecOn with
  | nil => exact internalClauseRun_framed
  | append_singleton requests q ih =>
    rw [run_snoc]
    exact request_framed q ih

theorem run_related (hsign : g.SignKept) (requests : List Request)
    (hf : (run g tseitin next requests).Fresh g tseitin) : (run g tseitin next requests).Related g tseitin := by
  induction requests using List.reverseRecOn with
  | nil => exact internalClauseRun_related
  | append_singleton requests q ih =>
    rw [run_snoc] at hf ⊢
    have hbefore : (run g tseitin next requests).Fresh g tseitin := fun a ha => hf a (request_created q a ha)
    exact request_related q hsign (run_framed requests) (ih hbefore) hf

theorem notify_not_related (groundall : Bool) (hsign : ¬ g.SignKept) (hd : s.Delayed g tseitin)
    (hr : s.residual = g.first tseitin) (hindex : s.index = 0) (hc : s.constraints = [])
    (hf : (notifyGroundingRequested g groundall s).Fresh g tseitin) (hν : g.Checked ν) :
    ¬ (notifyGroundingRequested g groundall s).Related g tseitin := by
  intro hrel
  obtain ⟨he, hrule, hnegative⟩ := not_not.mp hsign
  obtain ⟨n, Y, hadds, hY⟩ := notify_adds groundall hd he hf
  have hrelated := hrel ν hν True
  rw [← propext (hY ν hν True), sat_first hadds he hf hr hc, hindex, propext part_zero] at hrelated
  have htype : g.tseitinType = .rule := by
    simp [Grounder.tseitinType, hnegative, hrule, invertImplication]
  have hatom : (g.first tseitin).atom = tseitin := by
    simp [Grounder.first, hnegative]
  simp only [htype, added, hatom, Grounder.demand, hrule, asked, hnegative, Bool.false_eq_true, if_false] at hrelated
  tauto

theorem run_not_correct (hsign : ¬ g.SignKept) (q : Request) (hf : (run g tseitin next [q]).Fresh g tseitin)
    (hν : g.Checked ν) : ¬ (run g tseitin next [q]).Correct g tseitin := by
  have hd : (internalClauseRun g tseitin next).Delayed g tseitin := internalClauseRun_framed.delayed rfl
  exact fun hcorrect =>
    notify_not_related q.groundall hsign (hd.others q.others) rfl rfl rfl hf hν hcorrect.related

theorem exists_above (instances : List Instance) (tseitin : ℕ) :
    ∃ n, tseitin < n ∧ ∀ l, Instance.lit l ∈ instances → l.atom < n := by
  induction instances with
  | nil => exact ⟨tseitin + 1, Nat.lt_succ_self _, by simp⟩
  | cons i instances ih =>
    obtain ⟨n, ht, hn⟩ := ih
    cases i with
    | constant value => exact ⟨n, ht, by simpa using hn⟩
    | lit l =>
      refine ⟨n + l.atom + 1, by omega, fun l' hl' => ?_⟩
      rcases List.mem_cons.mp hl' with heq | hmem
      · cases heq
        omega
      · have hlt := hn l' hmem
        omega

theorem exists_fresh_request : ∃ q, (run g tseitin next [q]).Fresh g tseitin := by
  obtain ⟨n, ht, hn⟩ := exists_above g.instances tseitin
  refine ⟨⟨false, n⟩, fun a ha => ?_⟩
  have hle : n ≤ a := by
    have hcreated : a ∈ (groundMore g false { internalClauseRun g tseitin next with next := next + n }).2.created := by
      have hrun : run g tseitin next [⟨false, n⟩] = notifyGroundingRequested g false
          { internalClauseRun g tseitin next with next := next + n } := rfl
      rw [hrun] at ha
      unfold notifyGroundingRequested at ha
      split_ifs at ha
      · exact ha
      · exact ha
    unfold groundMore at hcreated
    dsimp only at hcreated
    split_ifs at hcreated <;> simp [internalClauseRun] at hcreated <;> omega
  exact ⟨by omega, fun l hl => by have := hn l hl; omega⟩

theorem fresh_of_created {a : ℕ} (hc : s.created = [a]) (ht : a ≠ tseitin)
    (hi : ∀ l, Instance.lit l ∈ g.instances → l.atom ≠ a) : s.Fresh g tseitin := by
  intro b hb
  rw [hc, List.mem_singleton] at hb
  exact hb ▸ ⟨ht, hi⟩

end Runs

-- not (p or q), with an implication
def negativeImplication : Grounder where
  positive := false
  conj := false
  context := .impl
  useExplicitTseitins := true
  instances := [.lit ⟨true, 2⟩, .lit ⟨true, 3⟩]
  check := fun _ => false
  nbiterations := 1
  nonempty := by simp

-- the same with a rule
def negativeRule : Grounder := { negativeImplication with context := .rule }

end LazyDisjunctive
