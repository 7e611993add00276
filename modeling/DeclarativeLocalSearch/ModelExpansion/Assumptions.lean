import Mathlib.Data.Finset.Basic

namespace ModelExpansion

variable {Q D : Type}

structure DomainAtom (Q D : Type) where
  symbol : Q
  args : List D
  deriving DecidableEq

structure MXAssumptions (Q D : Type) where
  assumeFalse : List (DomainAtom Q D)
  assumeAllFalse : List Q
  assumeTrue : List (DomainAtom Q D)

-- what the structure and its bounds say of an atom, and the atoms that were introduced; query gives the tuples
-- that are certainly true
structure GroundTranslator (Q D : Type) where
  isTrue : DomainAtom Q D → Bool
  isFalse : DomainAtom Q D → Bool
  query : Q → List (List D)
  tuple2atom : List (DomainAtom Q D × ℕ)
  knownlits : List (DomainAtom Q D × ℕ)
  nextnumber : ℕ
  unitclauses : List ℤ
  positive : 0 < nextnumber
  atoms : ∀ e ∈ tuple2atom, 0 < e.2 ∧ e.2 < nextnumber
  one_atom : ∀ e ∈ tuple2atom, ∀ e' ∈ tuple2atom, e.1 = e'.1 ↔ e.2 = e'.2
  known : ∀ e ∈ knownlits, e ∈ tuple2atom ∧ ¬ (isTrue e.1 ∧ isFalse e.1)

namespace GroundTranslator

def getIntroducedLiteralsFor [DecidableEq Q] (g : GroundTranslator Q D) (p : Q) : List ℕ :=
  (g.tuple2atom.filter fun e => e.1.symbol = p).map Prod.snd

def introduce (a : DomainAtom Q D) (g : GroundTranslator Q D) (hnew : ∀ e ∈ g.tuple2atom, e.1 ≠ a) :
    GroundTranslator Q D :=
  { g with
    tuple2atom := g.tuple2atom ++ [(a, g.nextnumber)]
    nextnumber := g.nextnumber + 1
    positive := Nat.succ_pos _
    atoms := by
      intro e he
      rcases List.mem_append.mp he with hold | hlast
      · exact ⟨(g.atoms e hold).1, Nat.lt_succ_of_lt (g.atoms e hold).2⟩
      · obtain rfl := List.mem_singleton.mp hlast
        exact ⟨g.positive, Nat.lt_succ_self _⟩
    one_atom := by
      intro e he e' he'
      rcases List.mem_append.mp he with hold | hlast <;> rcases List.mem_append.mp he' with hold' | hlast'
      · exact g.one_atom e hold e' hold'
      · obtain rfl := List.mem_singleton.mp hlast'
        exact iff_of_false (hnew e hold) (g.atoms e hold).2.ne
      · obtain rfl := List.mem_singleton.mp hlast
        exact iff_of_false (hnew e' hold').symm (g.atoms e' hold').2.ne'
      · rw [List.mem_singleton.mp hlast, List.mem_singleton.mp hlast']
        exact iff_of_true rfl rfl
    known := fun e he => ⟨List.mem_append_left _ (g.known e he).1, (g.known e he).2⟩ }

def addUnitClause (l : ℤ) (g : GroundTranslator Q D) : GroundTranslator Q D :=
  { g with unitclauses := g.unitclauses ++ [l] }

-- what is known of an atom holds in the grounding
def addValue (a : DomainAtom Q D) (atom : ℕ) (g : GroundTranslator Q D) : GroundTranslator Q D :=
  if g.isTrue a then g.addUnitClause atom else if g.isFalse a then g.addUnitClause (-atom) else g

def addKnownlit (e : DomainAtom Q D × ℕ) (g : GroundTranslator Q D) (he : e ∈ g.tuple2atom)
    (hvalue : ¬ (g.isTrue e.1 ∧ g.isFalse e.1)) : GroundTranslator Q D :=
  { g with
    knownlits := g.knownlits ++ [e]
    known := by
      intro e' he'
      rcases List.mem_append.mp he' with hold | hlast
      · exact g.known e' hold
      · exact List.mem_singleton.mp hlast ▸ ⟨he, hvalue⟩ }

section Translate

variable [DecidableEq Q] [DecidableEq D]

def getLiteral (a : DomainAtom Q D) (g : GroundTranslator Q D) : { r : ℕ × GroundTranslator Q D //
    (a, r.1) ∈ r.2.tuple2atom ∧ r.2.isTrue = g.isTrue ∧ r.2.isFalse = g.isFalse } :=
  match h : g.tuple2atom.find? fun e => e.1 = a with
  | some e => ⟨(e.2, g), by
      obtain rfl : e.1 = a := by simpa using List.find?_some h
      exact ⟨List.mem_of_find?_eq_some h, rfl, rfl⟩⟩
  | none => ⟨(g.nextnumber, g.introduce a (by simpa using h)),
      List.mem_append_right _ (List.mem_singleton_self _), rfl, rfl⟩

-- none is the exception for an atom that is both certainly true and certainly false
def translateNonReduced (a : DomainAtom Q D) (g : GroundTranslator Q D) : Option (ℕ × GroundTranslator Q D) :=
  match g.knownlits.find? fun e => e.1 = a with
  | some e => some (e.2, g)
  | none =>
    if hvalue : g.isTrue a ∧ g.isFalse a then none
    else
      let r := g.getLiteral a
      let g' := r.1.2.addKnownlit (a, r.1.1) r.2.1 (by rw [r.2.2.1, r.2.2.2]; exact hvalue)
      some (r.1.1, g'.addValue a r.1.1)

def translateAll (lit : ℕ → ℤ) :
    List (DomainAtom Q D) → GroundTranslator Q D → Option (List ℤ × GroundTranslator Q D)
  | [], g => some ([], g)
  | a :: as, g => do
    let (atom, g) ← g.translateNonReduced a
    let (lits, g) ← translateAll lit as g
    some (lit atom :: lits, g)

-- the atoms that were introduced and those of the query
def translateAllFalse : List Q → GroundTranslator Q D → Option (List ℤ × GroundTranslator Q D)
  | [], g => some ([], g)
  | p :: ps, g => do
    let introduced := (g.getIntroducedLiteralsFor p).map fun atom : ℕ => -(atom : ℤ)
    let (lits, g) ← translateAll (fun atom => -atom) ((g.query p).map fun t => ⟨p, t⟩) g
    let (rest, g) ← translateAllFalse ps g
    some (introduced ++ lits ++ rest, g)

end Translate

end GroundTranslator

section Literals

variable [DecidableEq Q] [DecidableEq D] (assumptions : MXAssumptions Q D) (g : GroundTranslator Q D)

def MXAssumptions.toLitList : Option (List ℤ × GroundTranslator Q D) := do
  let (lits, g) ← g.translateAllFalse assumptions.assumeAllFalse
  let (falselits, g) ← g.translateAll (fun atom => -atom) assumptions.assumeFalse
  let (truelits, g) ← g.translateAll (fun atom => atom) assumptions.assumeTrue
  some (lits ++ falselits ++ truelits, g)

-- the sign is left out here, and so are the atoms assumed true
def ModelIterator.ground : Option (List ℤ × GroundTranslator Q D) := do
  let (lits, g) ← g.translateAllFalse assumptions.assumeAllFalse
  let (falselits, g) ← g.translateAll (fun atom => atom) assumptions.assumeFalse
  some (lits ++ falselits, g)

end Literals

section Solver

structure SolverLit where
  atom : ℕ
  hasSign : Bool
  deriving DecidableEq

def createLiteral (lit : ℤ) : SolverLit := ⟨lit.natAbs, !decide (0 < lit)⟩

def createList (lits : List ℤ) : Finset SolverLit := (lits.map createLiteral).toFinset

def getAtomSign (l : ℤ) : ℕ × Bool := (l.natAbs, decide (l < 0))

abbrev Lit := {l : ℤ // l ≠ 0}

inductive Call where
  | addAssumption (l : Lit)
  | removeAssumption (l : Lit)

def ModelIterator.call (assumptions : Finset SolverLit) : Call → Finset SolverLit
  | .addAssumption l => insert ⟨(getAtomSign l).1, (getAtomSign l).2⟩ assumptions
  | .removeAssumption l => assumptions.erase ⟨(getAtomSign l).1, (getAtomSign l).2⟩

end Solver

end ModelExpansion

namespace ModelExpansion

variable {Q D : Type} {g g' g'' : GroundTranslator Q D} {a : DomainAtom Q D} {n : ℕ}

namespace GroundTranslator

def Introduced (g : GroundTranslator Q D) (a : DomainAtom Q D) : Prop := ∃ n, (a, n) ∈ g.tuple2atom

def Inconsistent (g : GroundTranslator Q D) (a : DomainAtom Q D) : Prop := g.isTrue a ∧ g.isFalse a

-- a unit clause is the value of an atom
def IsValue (g : GroundTranslator Q D) (l : ℤ) : Prop :=
  ∃ e ∈ g.tuple2atom, g.isTrue e.1 ∧ l = e.2 ∨ g.isFalse e.1 ∧ l = -e.2

-- what translating atoms keeps, and where the new numbers and clauses come from
structure Extends (g g' : GroundTranslator Q D) : Prop where
  isTrue : g'.isTrue = g.isTrue
  isFalse : g'.isFalse = g.isFalse
  query : g'.query = g.query
  kept : ∀ e ∈ g.tuple2atom, e ∈ g'.tuple2atom
  fresh : ∀ e ∈ g'.tuple2atom, e ∈ g.tuple2atom ∨ g.nextnumber ≤ e.2
  next : g.nextnumber ≤ g'.nextnumber
  units : ∀ l ∈ g.unitclauses, l ∈ g'.unitclauses
  values : ∀ l ∈ g'.unitclauses, l ∈ g.unitclauses ∨ g'.IsValue l

theorem Extends.refl (g : GroundTranslator Q D) : Extends g g :=
  ⟨rfl, rfl, rfl, fun _ => id, fun _ => Or.inl, le_rfl, fun _ => id, fun _ => Or.inl⟩

theorem IsValue.extends {l : ℤ} (h : g.IsValue l) (hg : Extends g g') : g'.IsValue l := by
  obtain ⟨e, he, hvalue⟩ := h
  rw [IsValue, hg.isTrue, hg.isFalse]
  exact ⟨e, hg.kept e he, hvalue⟩

theorem Extends.trans (h : Extends g g') (h' : Extends g' g'') : Extends g g'' where
  isTrue := h'.isTrue.trans h.isTrue
  isFalse := h'.isFalse.trans h.isFalse
  query := h'.query.trans h.query
  kept := fun e he => h'.kept e (h.kept e he)
  fresh := fun e he => (h'.fresh e he).elim (h.fresh e) fun hle => Or.inr (h.next.trans hle)
  next := h.next.trans h'.next
  units := fun l hl => h'.units l (h.units l hl)
  values := fun l hl => (h'.values l hl).elim
    (fun hmem => (h.values l hmem).imp_right fun hvalue => hvalue.extends h') Or.inr

theorem Extends.introduced (h : Extends g g') (ha : g.Introduced a) : g'.Introduced a :=
  ha.imp fun _ => h.kept _

theorem Extends.inconsistent (h : Extends g g') : g'.Inconsistent a ↔ g.Inconsistent a := by
  rw [Inconsistent, Inconsistent, h.isTrue, h.isFalse]

theorem number_unique {m : ℕ} (h : (a, n) ∈ g.tuple2atom) (h' : (a, m) ∈ g.tuple2atom) : n = m :=
  (g.one_atom _ h _ h').mp rfl

theorem atom_unique {b : DomainAtom Q D} (h : (a, n) ∈ g.tuple2atom) (h' : (b, n) ∈ g.tuple2atom) : a = b :=
  (g.one_atom _ h _ h').mpr rfl

theorem addValue_extends (h : (a, n) ∈ g.tuple2atom) : Extends g (g.addValue a n) := by
  have hunit : ∀ l, g.IsValue l → Extends g (g.addUnitClause l) := by
    refine fun l hvalue => ⟨rfl, rfl, rfl, fun _ => id, fun _ => Or.inl, le_rfl, fun _ => List.mem_append_left _,
      fun l' hl' => (List.mem_append.mp hl').imp_right fun hlast => ?_⟩
    rw [List.mem_singleton.mp hlast]
    exact hvalue
  unfold addValue
  split_ifs with htrue hfalse
  · exact hunit _ ⟨_, h, Or.inl ⟨htrue, rfl⟩⟩
  · exact hunit _ ⟨_, h, Or.inr ⟨hfalse, rfl⟩⟩
  · exact Extends.refl g

theorem addValue_tuple2atom : (g.addValue a n).tuple2atom = g.tuple2atom := by
  unfold addValue
  split_ifs <;> rfl

theorem addKnownlit_extends {e : DomainAtom Q D × ℕ} (he : e ∈ g.tuple2atom) (hvalue) :
    Extends g (g.addKnownlit e he hvalue) :=
  ⟨rfl, rfl, rfl, fun _ => id, fun _ => Or.inl, le_rfl, fun _ => id, fun _ => Or.inl⟩

-- the atoms of the predicates that are assumed all false for which there is an assumption
def Covered (g : GroundTranslator Q D) (ps : List Q) (a : DomainAtom Q D) : Prop :=
  a.symbol ∈ ps ∧ (g.Introduced a ∨ a.args ∈ g.query a.symbol)

theorem mem_query {p : Q} {b : DomainAtom Q D} :
    b ∈ (g.query p).map (fun t => (⟨p, t⟩ : DomainAtom Q D)) ↔ b.symbol = p ∧ b.args ∈ g.query b.symbol := by
  obtain ⟨symbol, args⟩ := b
  constructor
  · intro h
    obtain ⟨t, ht, heq⟩ := List.mem_map.mp h
    cases heq
    exact ⟨rfl, ht⟩
  · rintro ⟨rfl, hargs⟩
    exact List.mem_map_of_mem hargs

theorem mem_getIntroducedLiteralsFor [DecidableEq Q] {p : Q} :
    n ∈ g.getIntroducedLiteralsFor p ↔ ∃ b : DomainAtom Q D, (b, n) ∈ g.tuple2atom ∧ b.symbol = p := by
  simp [getIntroducedLiteralsFor]

section Translate

variable [DecidableEq Q] [DecidableEq D]

-- translating an atom introduces it and no other
structure Translates (a : DomainAtom Q D) (g : GroundTranslator Q D) (n : ℕ) (g' : GroundTranslator Q D) : Prop where
  extending : Extends g g'
  number : (a, n) ∈ g'.tuple2atom
  only : ∀ b, g'.Introduced b → g.Introduced b ∨ b = a

theorem getLiteral_translates (a : DomainAtom Q D) (g : GroundTranslator Q D) :
    Translates a g (g.getLiteral a).1.1 (g.getLiteral a).1.2 := by
  refine ⟨?_, (g.getLiteral a).2.1, ?_⟩ <;> unfold getLiteral <;> split
  · exact Extends.refl g
  · refine ⟨rfl, rfl, rfl, fun e he => List.mem_append_left _ he, fun e he => ?_, Nat.le_succ _, fun _ => id,
      fun _ => Or.inl⟩
    refine (List.mem_append.mp he).imp_right fun hlast => ?_
    rw [List.mem_singleton.mp hlast]
  · exact fun b => Or.inl
  · rintro b ⟨m, hm⟩
    refine (List.mem_append.mp hm).imp (fun hold => ⟨m, hold⟩) fun hlast => ?_
    exact congrArg Prod.fst (List.mem_singleton.mp hlast)

theorem translateNonReduced_translates (h : g.translateNonReduced a = some (n, g')) : Translates a g n g' := by
  unfold translateNonReduced at h
  split at h
  case h_1 e he =>
    obtain ⟨rfl, rfl⟩ := Prod.mk.inj (Option.some.inj h)
    obtain rfl : e.1 = a := by simpa using List.find?_some he
    exact ⟨Extends.refl g, (g.known e (List.mem_of_find?_eq_some he)).1, fun b => Or.inl⟩
  case h_2 =>
    split_ifs at h with hvalue
    obtain ⟨rfl, rfl⟩ := Prod.mk.inj (Option.some.inj h)
    have hlit := getLiteral_translates a g
    refine ⟨(hlit.extending.trans (addKnownlit_extends hlit.number _)).trans (addValue_extends hlit.number), ?_, ?_⟩
    · rw [addValue_tuple2atom]
      exact hlit.number
    · intro b hb
      rw [Introduced, addValue_tuple2atom] at hb
      exact hlit.only b hb

theorem translateNonReduced_eq_none : g.translateNonReduced a = none ↔ g.Inconsistent a := by
  unfold translateNonReduced
  split
  case h_1 e he =>
    obtain rfl : e.1 = a := by simpa using List.find?_some he
    exact iff_of_false nofun (g.known e (List.mem_of_find?_eq_some he)).2
  case h_2 =>
    split_ifs with hvalue
    · exact iff_of_true rfl hvalue
    · exact iff_of_false nofun hvalue

variable {as : List (DomainAtom Q D)} {ps : List Q} {lit lit' : ℕ → ℤ} {lits : List ℤ}

-- the atoms that are introduced and the literals that are made
structure TranslatesAll (news : DomainAtom Q D → Prop) (literals : DomainAtom Q D → ℕ → ℤ → Prop)
    (g : GroundTranslator Q D) (lits : List ℤ) (g' : GroundTranslator Q D) : Prop where
  extending : Extends g g'
  introduced : ∀ b, g'.Introduced b ↔ g.Introduced b ∨ news b
  literals : ∀ l, l ∈ lits ↔ ∃ b n, (b, n) ∈ g'.tuple2atom ∧ literals b n l

theorem translateAll_translates (h : g.translateAll lit as = some (lits, g')) :
    TranslatesAll (· ∈ as) (fun b n l => b ∈ as ∧ l = lit n) g lits g' := by
  induction as generalizing g lits with
  | nil =>
    obtain ⟨rfl, rfl⟩ := Prod.mk.inj (Option.some.inj h)
    exact ⟨Extends.refl g, by simp, by simp⟩
  | cons a as ih =>
    simp only [translateAll, Option.bind_eq_bind, Option.bind_eq_some_iff, Option.some.injEq, Prod.mk.injEq,
      Prod.exists] at h
    obtain ⟨n, g₁, hfirst, lits', g₂, hrest, rfl, rfl⟩ := h
    have ha := translateNonReduced_translates hfirst
    have has := ih hrest
    refine ⟨ha.extending.trans has.extending, fun b => ?_, fun l => ?_⟩
    · rw [has.introduced, List.mem_cons]
      constructor
      · rintro (hb | hb)
        · exact (ha.only b hb).imp_right Or.inl
        · exact Or.inr (Or.inr hb)
      · rintro (hb | rfl | hb)
        · exact Or.inl (ha.extending.introduced hb)
        · exact Or.inl ⟨n, ha.number⟩
        · exact Or.inr hb
    · rw [List.mem_cons, has.literals]
      constructor
      · rintro (rfl | ⟨b, m, hb, hmem, rfl⟩)
        · exact ⟨a, n, has.extending.kept _ ha.number, List.mem_cons_self, rfl⟩
        · exact ⟨b, m, hb, List.mem_cons_of_mem _ hmem, rfl⟩
      · rintro ⟨b, m, hb, hmem, rfl⟩
        rcases List.mem_cons.mp hmem with rfl | hmem
        · exact Or.inl (congrArg lit (number_unique hb (has.extending.kept _ ha.number)))
        · exact Or.inr ⟨b, m, hb, hmem, rfl⟩

theorem translateAll_eq_none : g.translateAll lit as = none ↔ ∃ a ∈ as, g.Inconsistent a := by
  induction as generalizing g with
  | nil => exact iff_of_false nofun (by simp)
  | cons a as ih =>
    rw [translateAll, List.exists_mem_cons_iff, ← translateNonReduced_eq_none]
    cases h : g.translateNonReduced a with
    | none => exact iff_of_true rfl (Or.inl rfl)
    | some r =>
      have hextends := (@translateNonReduced_translates _ _ _ r.2 _ r.1 _ _ h).extending
      have hrest := ih (g := r.2)
      simp only [hextends.inconsistent] at hrest
      cases h' : r.2.translateAll lit as with
      | none => simpa [h'] using hrest
      | some r' => simpa [h'] using hrest

theorem translateAll_state (h : g.translateAll lit as = some (lits, g')) :
    ∃ lits', g.translateAll lit' as = some (lits', g') := by
  induction as generalizing g lits with
  | nil => exact ⟨[], congrArg (some ∘ Prod.mk []) (Prod.mk.inj (Option.some.inj h)).2⟩
  | cons a as ih =>
    simp only [translateAll, Option.bind_eq_bind, Option.bind_eq_some_iff, Option.some.injEq, Prod.mk.injEq,
      Prod.exists] at h
    obtain ⟨n, g₁, hfirst, lits', g₂, hrest, rfl, rfl⟩ := h
    obtain ⟨lits'', hlits⟩ := ih hrest
    exact ⟨lit' n :: lits'', by simp [translateAll, hfirst, hlits]⟩

theorem translateAllFalse_translates (h : g.translateAllFalse ps = some (lits, g')) :
    TranslatesAll (fun b => b.symbol ∈ ps ∧ b.args ∈ g.query b.symbol)
      (fun b n l => g.Covered ps b ∧ l = -n) g lits g' := by
  induction ps generalizing g lits with
  | nil =>
    obtain ⟨rfl, rfl⟩ := Prod.mk.inj (Option.some.inj h)
    exact ⟨Extends.refl g, by simp, by simp [Covered]⟩
  | cons p ps ih =>
    simp only [translateAllFalse, Option.bind_eq_bind, Option.bind_eq_some_iff, Option.some.injEq, Prod.mk.injEq,
      Prod.exists] at h
    obtain ⟨lits₁, g₁, hfirst, lits₂, g₂, hrest, rfl, rfl⟩ := h
    have hp := translateAll_translates hfirst
    have hps := ih hrest
    simp only [mem_query] at hp
    rw [hp.extending.query] at hps
    have hextends := hp.extending.trans hps.extending
    refine ⟨hextends, fun b => ?_, fun l => ?_⟩
    · rw [hps.introduced, hp.introduced, List.mem_cons, or_and_right, or_assoc]
    · rw [List.mem_append, List.mem_append, hp.literals, hps.literals]
      simp only [List.mem_map, mem_getIntroducedLiteralsFor]
      constructor
      · rintro ((⟨n, ⟨b, hb, rfl⟩, rfl⟩ | ⟨b, n, hb, ⟨rfl, hargs⟩, rfl⟩) | ⟨b, n, hb, ⟨hmem, hcovered⟩, rfl⟩)
        · exact ⟨b, n, hextends.kept _ hb, ⟨List.mem_cons_self, Or.inl ⟨n, hb⟩⟩, rfl⟩
        · exact ⟨b, n, hps.extending.kept _ hb, ⟨List.mem_cons_self, Or.inr hargs⟩, rfl⟩
        · refine ⟨b, n, hb, ⟨List.mem_cons_of_mem _ hmem, ?_⟩, rfl⟩
          rw [hp.introduced, hp.extending.query] at hcovered
          rcases hcovered with (hold | hquery) | hquery
          · exact Or.inl hold
          · exact Or.inr hquery.2
          · exact Or.inr hquery
      · rintro ⟨b, n, hb, ⟨hmem, hcovered⟩, rfl⟩
        rcases List.mem_cons.mp hmem with rfl | hmem
        · rcases hcovered with ⟨m, hm⟩ | hquery
          · obtain rfl := number_unique hb (hextends.kept _ hm)
            exact Or.inl (Or.inl ⟨n, ⟨b, hm, rfl⟩, rfl⟩)
          · obtain ⟨m, hm⟩ := (hp.introduced b).mpr (Or.inr ⟨rfl, hquery⟩)
            obtain rfl := number_unique hb (hps.extending.kept _ hm)
            exact Or.inl (Or.inr ⟨b, n, hm, ⟨rfl, hquery⟩, rfl⟩)
        · refine Or.inr ⟨b, n, hb, ⟨hmem, ?_⟩, rfl⟩
          rw [hp.extending.query]
          exact hcovered.imp_left hp.extending.introduced

theorem translateAllFalse_eq_none : g.translateAllFalse ps = none ↔
    ∃ a : DomainAtom Q D, (a.symbol ∈ ps ∧ a.args ∈ g.query a.symbol) ∧ g.Inconsistent a := by
  induction ps generalizing g with
  | nil => exact iff_of_false nofun (by simp)
  | cons p ps ih =>
    have hall := @translateAll_eq_none _ _ g _ _ ((g.query p).map fun t => (⟨p, t⟩ : DomainAtom Q D))
      fun atom => -atom
    simp only [mem_query] at hall
    simp only [List.mem_cons, or_and_right, exists_or]
    rw [← hall, translateAllFalse]
    cases h : g.translateAll (fun atom => -atom) ((g.query p).map fun t => (⟨p, t⟩ : DomainAtom Q D)) with
    | none => exact iff_of_true rfl (Or.inl rfl)
    | some r =>
      have hextends := (@translateAll_translates _ _ _ r.2 _ _ _ _ r.1 h).extending
      have hrest := ih (g := r.2)
      simp only [hextends.inconsistent, hextends.query] at hrest
      cases h' : r.2.translateAllFalse ps with
      | none => simpa [h'] using hrest
      | some r' => simpa [h'] using hrest

end Translate

theorem TranslatesAll.append {news news' : DomainAtom Q D → Prop} {literals literals' : DomainAtom Q D → ℕ → ℤ → Prop}
    {lits lits' : List ℤ} (h : TranslatesAll news literals g lits g') (h' : TranslatesAll news' literals' g' lits' g'')
    (hintroduced : ∀ b n l, literals b n l → g.Introduced b ∨ news b) :
    TranslatesAll (fun b => news b ∨ news' b) (fun b n l => literals b n l ∨ literals' b n l) g (lits ++ lits') g'' where
  extending := h.extending.trans h'.extending
  introduced := fun b => by rw [h'.introduced, h.introduced, or_assoc]
  literals := by
    intro l
    rw [List.mem_append, h.literals, h'.literals]
    constructor
    · rintro (⟨b, n, hb, hl⟩ | ⟨b, n, hb, hl⟩)
      · exact ⟨b, n, h'.extending.kept _ hb, Or.inl hl⟩
      · exact ⟨b, n, hb, Or.inr hl⟩
    · rintro ⟨b, n, hb, hl | hl⟩
      · obtain ⟨m, hm⟩ := (h.introduced b).mpr (hintroduced b n l hl)
        obtain rfl := number_unique hb (h'.extending.kept _ hm)
        exact Or.inl ⟨b, n, hm, hl⟩
      · exact Or.inr ⟨b, n, hb, hl⟩

end GroundTranslator

open GroundTranslator

section Literals

variable [DecidableEq Q] [DecidableEq D] {assumptions : MXAssumptions Q D} {lits : List ℤ}

theorem toLitList_translates (h : assumptions.toLitList g = some (lits, g')) :
    TranslatesAll
      (fun b => ((b.symbol ∈ assumptions.assumeAllFalse ∧ b.args ∈ g.query b.symbol) ∨ b ∈ assumptions.assumeFalse) ∨
        b ∈ assumptions.assumeTrue)
      (fun b n l => (g.Covered assumptions.assumeAllFalse b ∧ l = -n ∨ b ∈ assumptions.assumeFalse ∧ l = -n) ∨
        b ∈ assumptions.assumeTrue ∧ l = n) g lits g' := by
  simp only [MXAssumptions.toLitList, Option.bind_eq_bind, Option.bind_eq_some_iff, Option.some.injEq, Prod.mk.injEq,
    Prod.exists] at h
  obtain ⟨alllits, g₁, hall, falselits, g₂, hfalse, truelits, g₃, htrue, rfl, rfl⟩ := h
  refine ((translateAllFalse_translates hall).append (translateAll_translates hfalse) ?_).append
    (translateAll_translates htrue) ?_
  · rintro b n l ⟨⟨hmem, hcovered⟩, -⟩
    exact hcovered.imp_right fun hquery => ⟨hmem, hquery⟩
  · rintro b n l (⟨⟨hmem, hcovered⟩, -⟩ | ⟨hmem, -⟩)
    · exact hcovered.imp_right fun hquery => Or.inl ⟨hmem, hquery⟩
    · exact Or.inr (Or.inr hmem)

theorem ground_translates (h : ModelIterator.ground assumptions g = some (lits, g')) :
    TranslatesAll
      (fun b => (b.symbol ∈ assumptions.assumeAllFalse ∧ b.args ∈ g.query b.symbol) ∨ b ∈ assumptions.assumeFalse)
      (fun b n l => g.Covered assumptions.assumeAllFalse b ∧ l = -n ∨ b ∈ assumptions.assumeFalse ∧ l = n)
      g lits g' := by
  simp only [ModelIterator.ground, Option.bind_eq_bind, Option.bind_eq_some_iff, Option.some.injEq, Prod.mk.injEq,
    Prod.exists] at h
  obtain ⟨alllits, g₁, hall, falselits, g₂, hfalse, rfl, rfl⟩ := h
  refine (translateAllFalse_translates hall).append (translateAll_translates hfalse) ?_
  rintro b n l ⟨⟨hmem, hcovered⟩, -⟩
  exact hcovered.imp_right fun hquery => ⟨hmem, hquery⟩

-- the atoms that are translated for an assumption
def MXAssumptions.Assumed (assumptions : MXAssumptions Q D) (g : GroundTranslator Q D) (b : DomainAtom Q D) : Prop :=
  (b.symbol ∈ assumptions.assumeAllFalse ∧ b.args ∈ g.query b.symbol) ∨ b ∈ assumptions.assumeFalse ∨
    b ∈ assumptions.assumeTrue

theorem toLitList_eq_none : assumptions.toLitList g = none ↔ ∃ b, assumptions.Assumed g b ∧ g.Inconsistent b := by
  simp only [MXAssumptions.Assumed, or_and_right, exists_or]
  rw [← translateAllFalse_eq_none, MXAssumptions.toLitList]
  cases hall : g.translateAllFalse assumptions.assumeAllFalse with
  | none => exact iff_of_true rfl (Or.inl rfl)
  | some r =>
    have hextends := (@translateAllFalse_translates _ _ _ r.2 _ _ _ r.1 hall).extending
    have hnone := @translateAll_eq_none _ _ r.2 _ _ assumptions.assumeFalse fun atom => -atom
    simp only [hextends.inconsistent] at hnone
    cases hfalse : r.2.translateAll (fun atom => -atom) assumptions.assumeFalse with
    | none => simpa [hfalse] using Or.inl (hnone.mp hfalse)
    | some r' =>
      have hextends' := (@translateAll_translates _ _ _ r'.2 _ _ _ _ r'.1 hfalse).extending
      have hnone' := @translateAll_eq_none _ _ r'.2 _ _ assumptions.assumeTrue fun atom => atom
      simp only [hextends'.inconsistent, hextends.inconsistent] at hnone'
      rw [hfalse] at hnone
      cases htrue : r'.2.translateAll (fun atom => atom) assumptions.assumeTrue with
      | none => simpa [hfalse, htrue] using Or.inr (hnone'.mp htrue)
      | some r'' =>
        rw [htrue] at hnone'
        have hconsistent := not_exists.mp (hnone.not.mp nofun)
        have hconsistent' := not_exists.mp (hnone'.not.mp nofun)
        simpa [hfalse, htrue] using ⟨fun b hb hinc => hconsistent b ⟨hb, hinc⟩, fun b hb hinc => hconsistent' b ⟨hb, hinc⟩⟩

theorem ground_of_toLitList (h : assumptions.toLitList g = some (lits, g')) :
    ∃ lits' g'', ModelIterator.ground assumptions g = some (lits', g'') ∧ Extends g'' g' := by
  simp only [MXAssumptions.toLitList, Option.bind_eq_bind, Option.bind_eq_some_iff, Option.some.injEq, Prod.mk.injEq,
    Prod.exists] at h
  obtain ⟨alllits, g₁, hall, falselits, g₂, hfalse, truelits, g₃, htrue, rfl, rfl⟩ := h
  obtain ⟨falselits', hfalse'⟩ := @translateAll_state _ _ _ _ _ _ _ _ (fun atom => atom) _ hfalse
  exact ⟨alllits ++ falselits', g₂, by simp [ModelIterator.ground, hall, hfalse'], (translateAll_translates htrue).extending⟩

end Literals

end ModelExpansion
