import DeclarativeLocalSearch.ModelExpansion.Assumptions

namespace ModelExpansion

open GroundTranslator

variable {Q D : Type}

-- the constraints that were given to the solver, over the atoms with a number by then
structure Grounding (Q D : Type) where
  translator : GroundTranslator Q D
  holds : (ℕ → Bool) → Prop
  depends : ∀ ν ν' : ℕ → Bool, (∀ n < translator.nextnumber, ν n = ν' n) → (holds ν ↔ holds ν')
  units : ∀ l ∈ translator.unitclauses, l.natAbs < translator.nextnumber

def litTrue (ν : ℕ → Bool) (l : ℤ) : Prop := ν l.natAbs = decide (0 < l)

-- a two-valued structure that a solution stands for
structure Solution (holds : (ℕ → Bool) → Prop) (g : GroundTranslator Q D) (assumptions : Finset SolverLit)
    (M : DomainAtom Q D → Bool) (ν : ℕ → Bool) : Prop where
  isTrue : ∀ a, g.isTrue a → M a = true
  isFalse : ∀ a, g.isFalse a → M a = false
  constraints : holds ν
  units : ∀ l ∈ g.unitclauses, litTrue ν l
  assumed : ∀ l ∈ assumptions, ν l.atom = !l.hasSign
  atoms : ∀ e ∈ g.tuple2atom, ν e.2 = M e.1

inductive SolverAtom (Q D : Type) where
  | input (a : DomainAtom Q D)
  | internal (n : ℕ)
  deriving DecidableEq

def SolverAtom.value (M : DomainAtom Q D → Bool) (ν : ℕ → Bool) : SolverAtom Q D → Bool
  | .input a => M a
  | .internal n => ν n

def GroundTranslator.atomOf (g : GroundTranslator Q D) (n : ℕ) : SolverAtom Q D :=
  match g.tuple2atom.find? fun e => e.2 = n with
  | some e => .input e.1
  | none => .internal n

-- an atom with the value it is assumed to have
abbrev Requirement (Q D : Type) := SolverAtom Q D × Bool

def MXAssumptions.requirements (assumptions : MXAssumptions Q D) : Set (Requirement Q D) :=
  {r | ∃ a, r.1 = .input a ∧
    (r.2 = false ∧ (a ∈ assumptions.assumeFalse ∨ a.symbol ∈ assumptions.assumeAllFalse) ∨
      r.2 = true ∧ a ∈ assumptions.assumeTrue)}

def Call.require (g : GroundTranslator Q D) (requirements : Set (Requirement Q D)) : Call → Set (Requirement Q D)
  | .addAssumption l => insert (g.atomOf l.1.natAbs, decide (0 < l.1)) requirements
  | .removeAssumption l => requirements \ {(g.atomOf l.1.natAbs, decide (0 < l.1))}

def Meeting (M : DomainAtom Q D → Bool) (ν : ℕ → Bool) (requirements : Set (Requirement Q D)) : Prop :=
  ∀ r ∈ requirements, r.1.value M ν = r.2

section Meets

variable [DecidableEq Q] [DecidableEq D] (assumptions : MXAssumptions Q D) (G : Grounding Q D)

-- the models of the grounding that meet the requirements
def Expected (requirements : Set (Requirement Q D)) (M : DomainAtom Q D → Bool) : Prop :=
  ∃ ν, Solution G.holds G.translator ∅ M ν ∧ Meeting M ν requirements

def ExpandFinds (M : DomainAtom Q D → Bool) : Prop :=
  ∃ lits g ν, assumptions.toLitList G.translator = some (lits, g) ∧ Solution G.holds g (createList lits) M ν

-- both pass the same literals, and what they find is what is assumed
structure Meets : Prop where
  same : ∀ lits g lits' g', assumptions.toLitList G.translator = some (lits, g) →
    ModelIterator.ground assumptions G.translator = some (lits', g') → ∀ l, l ∈ lits ↔ l ∈ lits'
  expand : ∀ M, ExpandFinds assumptions G M ↔ Expected G assumptions.requirements M
  iterate : ∀ lits g, ModelIterator.ground assumptions G.translator = some (lits, g) → ∀ (calls : List Call) M,
    (∃ ν, Solution G.holds g (calls.foldl ModelIterator.call (createList lits)) M ν) ↔
      Expected G (calls.foldl (Call.require g) assumptions.requirements) M

end Meets

section Solutions

variable {g : GroundTranslator Q D} {G : Grounding Q D} {M : DomainAtom Q D → Bool} {ν : ℕ → Bool}
  {a : DomainAtom Q D} {n m : ℕ}

theorem atomOf_eq_input : g.atomOf n = .input a ↔ (a, n) ∈ g.tuple2atom := by
  unfold GroundTranslator.atomOf
  split
  case h_1 e he =>
    obtain rfl : e.2 = n := by simpa using List.find?_some he
    have hmem := List.mem_of_find?_eq_some he
    rw [SolverAtom.input.injEq]
    exact ⟨fun heq => heq ▸ hmem, fun h => atom_unique hmem h⟩
  case h_2 hnone => exact iff_of_false nofun fun h => by simpa using List.find?_eq_none.mp hnone _ h

theorem atomOf_eq_internal (h : g.atomOf n = .internal m) : n = m := by
  unfold GroundTranslator.atomOf at h
  split at h
  · exact nomatch h
  · exact SolverAtom.internal.inj h

theorem atomOf_injective (h : g.atomOf n = g.atomOf m) : n = m := by
  cases hm : g.atomOf m with
  | input a => exact number_unique (atomOf_eq_input.mp (h.trans hm)) (atomOf_eq_input.mp hm)
  | internal k => exact (atomOf_eq_internal (h.trans hm)).trans (atomOf_eq_internal hm).symm

theorem value_atomOf (hatoms : ∀ e ∈ g.tuple2atom, ν e.2 = M e.1) (n : ℕ) : (g.atomOf n).value M ν = ν n := by
  cases h : g.atomOf n with
  | input a => exact (hatoms _ (atomOf_eq_input.mp h)).symm
  | internal k => exact congrArg ν (atomOf_eq_internal h).symm

theorem Solution.restrict {assumptions : Finset SolverLit} (h : Solution G.holds g assumptions M ν)
    (hg : Extends G.translator g) : Solution G.holds G.translator ∅ M ν where
  isTrue := hg.isTrue ▸ h.isTrue
  isFalse := hg.isFalse ▸ h.isFalse
  constraints := h.constraints
  units := fun l hl => h.units l (hg.units l hl)
  assumed := by simp
  atoms := fun e he => h.atoms e (hg.kept e he)

theorem value_number {e : DomainAtom Q D × ℕ} (he : e ∈ g.tuple2atom) : (g.atomOf e.2).value M ν = M e.1 := by
  rw [atomOf_eq_input.mpr he, SolverAtom.value]

theorem Solution.extended (h : Solution G.holds G.translator ∅ M ν) (hg : Extends G.translator g) :
    Solution G.holds g ∅ M fun n => (g.atomOf n).value M ν := by
  have hold : ∀ n < G.translator.nextnumber, ν n = (g.atomOf n).value M ν := by
    intro n hn
    cases hatom : g.atomOf n with
    | input a => exact h.atoms _ ((hg.fresh _ (atomOf_eq_input.mp hatom)).resolve_right (not_le.mpr hn))
    | internal k => exact congrArg ν (atomOf_eq_internal hatom)
  have htrue : ∀ a, g.isTrue a → M a = true := hg.isTrue ▸ h.isTrue
  have hfalse : ∀ a, g.isFalse a → M a = false := hg.isFalse ▸ h.isFalse
  refine ⟨htrue, hfalse, (G.depends _ _ hold).mp h.constraints, fun l hl => ?_, by simp, fun e he => value_number he⟩
  rcases hg.values l hl with hmem | ⟨e, he, ⟨hvalue, rfl⟩ | ⟨hvalue, rfl⟩⟩
  · exact (hold _ (G.units l hmem)).symm.trans (h.units l hmem)
  · have hpos := (g.atoms e he).1
    rw [litTrue, Int.natAbs_natCast, value_number he, htrue _ hvalue]
    exact (decide_eq_true (by omega)).symm
  · rw [litTrue, Int.natAbs_neg, Int.natAbs_natCast, value_number he, hfalse _ hvalue]
    exact (decide_eq_false (by omega)).symm

end Solutions

section Calls

variable {g : GroundTranslator Q D} {M : DomainAtom Q D → Bool} {ν : ℕ → Bool} {assumptions : Finset SolverLit}
  {rest : Set (Requirement Q D)}

def requirementOf (g : GroundTranslator Q D) (l : SolverLit) : Requirement Q D := (g.atomOf l.atom, !l.hasSign)

theorem requirementOf_injective : Function.Injective (requirementOf g) := by
  rintro ⟨n, sign⟩ ⟨n', sign'⟩ h
  obtain ⟨hatom, hsign⟩ := Prod.mk.inj h
  exact congrArg₂ SolverLit.mk (atomOf_injective hatom) (Bool.not_inj hsign)

theorem requirementOf_createLiteral (l : ℤ) :
    requirementOf g (createLiteral l) = (g.atomOf l.natAbs, decide (0 < l)) := by
  rw [requirementOf, createLiteral, Bool.not_not]

-- the atom with its sign is the literal that the list of assumptions would have
theorem getAtomSign_eq (l : Lit) : (⟨(getAtomSign l.1).1, (getAtomSign l.1).2⟩ : SolverLit) = createLiteral l.1 := by
  have hne := l.2
  have hsign : decide (l.1 < 0) = !decide (0 < l.1) := by
    rw [← decide_not]
    exact decide_eq_decide.mpr (by omega)
  rw [getAtomSign, createLiteral, hsign]

theorem meeting_image (hatoms : ∀ e ∈ g.tuple2atom, ν e.2 = M e.1) :
    Meeting M ν (requirementOf g '' assumptions) ↔ ∀ l ∈ assumptions, ν l.atom = !l.hasSign := by
  simp only [Meeting, Set.forall_mem_image, requirementOf, value_atomOf hatoms, Finset.mem_coe]

theorem call_requirements (hrest : ∀ r ∈ rest, ∀ n, r.1 ≠ g.atomOf n) (c : Call) :
    requirementOf g '' (ModelIterator.call assumptions c) ∪ rest =
      c.require g (requirementOf g '' assumptions ∪ rest) := by
  cases c with
  | addAssumption l =>
    rw [ModelIterator.call, Call.require, getAtomSign_eq, Finset.coe_insert, Set.image_insert_eq, Set.insert_union,
      requirementOf_createLiteral]
  | removeAssumption l =>
    rw [ModelIterator.call, Call.require, getAtomSign_eq, Finset.coe_erase,
      Set.image_sdiff requirementOf_injective, Set.image_singleton, Set.union_sdiff_distrib,
      requirementOf_createLiteral]
    congr 1
    refine (Set.sdiff_singleton_eq_self fun hmem => ?_).symm
    exact hrest _ hmem l.1.natAbs rfl

theorem calls_requirements (hrest : ∀ r ∈ rest, ∀ n, r.1 ≠ g.atomOf n) (calls : List Call) :
    requirementOf g '' (calls.foldl ModelIterator.call assumptions : Finset SolverLit) ∪ rest =
      calls.foldl (Call.require g) (requirementOf g '' assumptions ∪ rest) := by
  induction calls generalizing assumptions with
  | nil => rfl
  | cons c calls ih =>
    rw [List.foldl_cons, List.foldl_cons, ih, call_requirements hrest]

theorem foldl_removeAssumption (calls : List Lit) (s : Finset SolverLit) :
    (calls.map Call.removeAssumption).foldl ModelIterator.call s = s \ (calls.map fun l => createLiteral l.1).toFinset := by
  induction calls generalizing s with
  | nil => simp
  | cons l calls ih =>
    rw [List.map_cons, List.foldl_cons, ih, ModelIterator.call, getAtomSign_eq, List.map_cons, List.toFinset_cons,
      Finset.sdiff_insert, Finset.erase_sdiff_comm]

end Calls

section Unassumed

variable {assumptions : MXAssumptions Q D} {g : GroundTranslator Q D}

-- the atoms of the predicates that are assumed all false and have no number
def unassumed (assumptions : MXAssumptions Q D) (g : GroundTranslator Q D) : Set (Requirement Q D) :=
  {r | ∃ a : DomainAtom Q D, r = (.input a, false) ∧ a.symbol ∈ assumptions.assumeAllFalse ∧ ¬ g.Introduced a}

theorem unassumed_number {r : Requirement Q D} (hr : r ∈ unassumed assumptions g) (n : ℕ) : r.1 ≠ g.atomOf n := by
  obtain ⟨a, rfl, -, hnot⟩ := hr
  exact fun heq => hnot ⟨n, atomOf_eq_input.mp heq.symm⟩

end Unassumed

section Matching

variable {assumptions : MXAssumptions Q D} {G : Grounding Q D} {g : GroundTranslator Q D} {lits : List ℤ}
  {M : DomainAtom Q D → Bool}

-- the same atoms are assumed false and true, and each of them is assumed false with its predicate
structure Matching (assumptions : MXAssumptions Q D) (g : GroundTranslator Q D) : Prop where
  same : ∀ a, a ∈ assumptions.assumeFalse ↔ a ∈ assumptions.assumeTrue
  covered : ∀ a ∈ assumptions.assumeFalse, g.Covered assumptions.assumeAllFalse a

-- an atom of a predicate that is assumed all false has an assumption or is certainly false
def Complete (assumptions : MXAssumptions Q D) (g : GroundTranslator Q D) : Prop :=
  ∀ a : DomainAtom Q D, a.symbol ∈ assumptions.assumeAllFalse →
    g.Covered assumptions.assumeAllFalse a ∨ g.isFalse a

def HasModel (G : Grounding Q D) : Prop := ∃ M ν, Solution G.holds G.translator ∅ M ν

abbrev Passed (assumptions : MXAssumptions Q D) (G : Grounding Q D) (lits : List ℤ) (g : GroundTranslator Q D) : Prop :=
  TranslatesAll (fun b => b.symbol ∈ assumptions.assumeAllFalse ∧ b.args ∈ G.translator.query b.symbol)
    (fun b n l => G.translator.Covered assumptions.assumeAllFalse b ∧ l = -n ∨ b ∈ assumptions.assumeFalse ∧ l = n)
    G.translator lits g

theorem Passed.mem_createList (h : Passed assumptions G lits g) (hmatching : Matching assumptions G.translator)
    {r : Requirement Q D} :
    r ∈ requirementOf g '' (createList lits) ↔ ∃ a, r.1 = .input a ∧
      (G.translator.Covered assumptions.assumeAllFalse a ∧ r.2 = false ∨ a ∈ assumptions.assumeFalse ∧ r.2 = true) := by
  have hliteral : ∀ {a : DomainAtom Q D} {n : ℕ}, (a, n) ∈ g.tuple2atom →
      requirementOf g (createLiteral (-n)) = (.input a, false) ∧ requirementOf g (createLiteral n) = (.input a, true) := by
    intro a n hn
    have hpos := (g.atoms _ hn).1
    rw [requirementOf_createLiteral, requirementOf_createLiteral, Int.natAbs_neg, Int.natAbs_natCast,
      atomOf_eq_input.mpr hn]
    exact ⟨congrArg _ (decide_eq_false (by simp)), congrArg _ (decide_eq_true (by simpa using hpos))⟩
  simp only [createList, List.coe_toFinset, List.mem_map, Set.mem_image, Set.mem_ofPred_eq]
  constructor
  · rintro ⟨-, ⟨l, hl, rfl⟩, rfl⟩
    obtain ⟨a, n, hn, ⟨hcovered, rfl⟩ | ⟨hmem, rfl⟩⟩ := (h.literals l).mp hl
    · rw [(hliteral hn).1]
      exact ⟨a, rfl, Or.inl ⟨hcovered, rfl⟩⟩
    · rw [(hliteral hn).2]
      exact ⟨a, rfl, Or.inr ⟨hmem, rfl⟩⟩
  · have hnumber : ∀ {a}, G.translator.Covered assumptions.assumeAllFalse a → g.Introduced a := fun hcovered =>
      (h.introduced _).mpr (hcovered.2.imp_right fun hquery => ⟨hcovered.1, hquery⟩)
    obtain ⟨atom, value⟩ := r
    rintro ⟨a, rfl, ⟨hcovered, rfl⟩ | ⟨hmem, rfl⟩⟩
    · obtain ⟨n, hn⟩ := hnumber hcovered
      exact ⟨_, ⟨-n, (h.literals _).mpr ⟨a, n, hn, Or.inl ⟨hcovered, rfl⟩⟩, rfl⟩, (hliteral hn).1⟩
    · obtain ⟨n, hn⟩ := hnumber (hmatching.covered a hmem)
      exact ⟨_, ⟨n, (h.literals _).mpr ⟨a, n, hn, Or.inr ⟨hmem, rfl⟩⟩, rfl⟩, (hliteral hn).2⟩

theorem Passed.requirements (h : Passed assumptions G lits g) (hmatching : Matching assumptions G.translator) :
    assumptions.requirements = requirementOf g '' (createList lits) ∪ unassumed assumptions g := by
  ext ⟨atom, value⟩
  rw [Set.mem_union, h.mem_createList hmatching]
  constructor
  · rintro ⟨a, rfl, ⟨rfl, ha⟩ | ⟨rfl, ha⟩⟩
    · have hsymbol : a.symbol ∈ assumptions.assumeAllFalse := ha.elim (fun hmem => (hmatching.covered a hmem).1) id
      by_cases hnumber : g.Introduced a
      · have hcovered := (h.introduced a).mp hnumber
        exact Or.inl ⟨a, rfl, Or.inl ⟨⟨hsymbol, hcovered.imp_right And.right⟩, rfl⟩⟩
      · exact Or.inr ⟨a, rfl, hsymbol, hnumber⟩
    · exact Or.inl ⟨a, rfl, Or.inr ⟨(hmatching.same a).mpr ha, rfl⟩⟩
  · rintro (⟨a, rfl, ⟨hcovered, rfl⟩ | ⟨hmem, rfl⟩⟩ | ⟨a, heq, hsymbol, -⟩)
    · exact ⟨a, rfl, Or.inl ⟨rfl, Or.inr hcovered.1⟩⟩
    · exact ⟨a, rfl, Or.inr ⟨rfl, (hmatching.same a).mp hmem⟩⟩
    · obtain ⟨rfl, rfl⟩ := Prod.mk.inj heq
      exact ⟨a, rfl, Or.inl ⟨rfl, Or.inr hsymbol⟩⟩

theorem Passed.finds (h : Passed assumptions G lits g) (hmatching : Matching assumptions G.translator)
    (hcomplete : Complete assumptions G.translator ∨ ¬ HasModel G) (calls : List Call) :
    (∃ ν, Solution G.holds g (calls.foldl ModelIterator.call (createList lits)) M ν) ↔
      Expected G (calls.foldl (Call.require g) assumptions.requirements) M := by
  rw [h.requirements hmatching, ← calls_requirements fun r => unassumed_number]
  constructor
  · rintro ⟨ν, hν⟩
    have hbase := hν.restrict h.extending
    refine ⟨ν, hbase, fun r hr => ?_⟩
    rcases hr with hr | ⟨a, rfl, hsymbol, hnumber⟩
    · exact (meeting_image hν.atoms).mpr hν.assumed r hr
    · have hfalse := (hcomplete.resolve_right (not_not_intro ⟨M, ν, hbase⟩)) a hsymbol
      refine hbase.isFalse a (hfalse.resolve_left fun hcovered => hnumber ?_)
      exact (h.introduced a).mpr (hcovered.2.imp_right fun hquery => ⟨hsymbol, hquery⟩)
  · rintro ⟨ν, hν, hmeeting⟩
    refine ⟨_, { hν.extended h.extending with assumed := fun l hl => ?_ }⟩
    exact hmeeting (requirementOf g l) (Or.inl (Set.mem_image_of_mem _ hl))

theorem Passed.same {lits' : List ℤ} {g' : GroundTranslator Q D} (h : Passed assumptions G lits g)
    (h' : Passed assumptions G lits' g') (hmatching : Matching assumptions G.translator) (hextends : Extends g' g)
    (l : ℤ) : l ∈ lits ↔ l ∈ lits' := by
  rw [h.literals, h'.literals]
  constructor
  · rintro ⟨a, n, hn, hlit⟩
    have hcovered : G.translator.Covered assumptions.assumeAllFalse a :=
      hlit.elim And.left fun hmem => hmatching.covered a hmem.1
    obtain ⟨m, hm⟩ := (h'.introduced a).mpr (hcovered.2.imp_right fun hquery => ⟨hcovered.1, hquery⟩)
    obtain rfl := number_unique hn (hextends.kept _ hm)
    exact ⟨a, n, hm, hlit⟩
  · rintro ⟨a, n, hn, hlit⟩
    exact ⟨a, n, hextends.kept _ hn, hlit⟩

variable [DecidableEq Q] [DecidableEq D]

theorem Matching.ground_passed (h : Matching assumptions G.translator)
    (hground : ModelIterator.ground assumptions G.translator = some (lits, g)) : Passed assumptions G lits g := by
  have hpassed := ground_translates hground
  refine ⟨hpassed.extending, fun b => (hpassed.introduced b).trans ?_, hpassed.literals⟩
  have hcovered : b ∈ assumptions.assumeFalse → G.translator.Introduced b ∨
      b.symbol ∈ assumptions.assumeAllFalse ∧ b.args ∈ G.translator.query b.symbol :=
    fun hb => (h.covered b hb).2.imp_right fun hquery => ⟨(h.covered b hb).1, hquery⟩
  tauto

theorem Matching.toLitList_passed (h : Matching assumptions G.translator)
    (hlits : assumptions.toLitList G.translator = some (lits, g)) : Passed assumptions G lits g := by
  have hpassed := toLitList_translates hlits
  refine ⟨hpassed.extending, fun b => (hpassed.introduced b).trans ?_, fun l => (hpassed.literals l).trans ?_⟩
  · have hcovered : b ∈ assumptions.assumeFalse → G.translator.Introduced b ∨
        b.symbol ∈ assumptions.assumeAllFalse ∧ b.args ∈ G.translator.query b.symbol :=
      fun hb => (h.covered b hb).2.imp_right fun hquery => ⟨(h.covered b hb).1, hquery⟩
    have hsame := h.same b
    tauto
  · refine exists₂_congr fun b n => and_congr_right fun _ => ?_
    have hsame := h.same b
    have hcovered := h.covered b
    tauto

theorem matching_of_same (h : assumptions.toLitList G.translator = some (lits, g)) (hmeets : Meets assumptions G) :
    Matching assumptions G.translator := by
  obtain ⟨lits', g', hground, hextends⟩ := ground_of_toLitList h
  have hsame := hmeets.same lits g lits' g' h hground
  have hall := toLitList_translates h
  have hpart := ground_translates hground
  have hpos : ∀ {a n}, (a, n) ∈ g.tuple2atom → 0 < n := fun hn => (g.atoms _ hn).1
  refine ⟨fun a => ⟨fun ha => ?_, fun ha => ?_⟩, fun a ha => ?_⟩
  · obtain ⟨n, hn⟩ := (hpart.introduced a).mpr (Or.inr (Or.inr ha))
    have hn' := hextends.kept _ hn
    obtain ⟨b, m, hm, (⟨-, heq⟩ | ⟨-, heq⟩) | ⟨hb, heq⟩⟩ :=
      (hall.literals n).mp ((hsame n).mpr ((hpart.literals n).mpr ⟨a, n, hn, Or.inr ⟨ha, rfl⟩⟩))
    · exact absurd heq (by have := hpos hn'; omega)
    · exact absurd heq (by have := hpos hn'; omega)
    · obtain rfl : n = m := by omega
      exact atom_unique hn' hm ▸ hb
  · obtain ⟨n, hn⟩ := (hall.introduced a).mpr (Or.inr (Or.inr ha))
    obtain ⟨b, m, hm, ⟨-, heq⟩ | ⟨hb, heq⟩⟩ :=
      (hpart.literals n).mp ((hsame n).mp ((hall.literals n).mpr ⟨a, n, hn, Or.inr ⟨ha, rfl⟩⟩))
    · exact absurd heq (by have := hpos hn; omega)
    · obtain rfl : n = m := by omega
      exact atom_unique hn (hextends.kept _ hm) ▸ hb
  · obtain ⟨n, hn⟩ := (hall.introduced a).mpr (Or.inr (Or.inl (Or.inr ha)))
    obtain ⟨b, m, hm, ⟨hb, heq⟩ | ⟨-, heq⟩⟩ :=
      (hpart.literals (-n)).mp ((hsame (-n)).mp ((hall.literals (-n)).mpr ⟨a, n, hn, Or.inl (Or.inr ⟨ha, rfl⟩)⟩))
    · obtain rfl : n = m := by omega
      exact atom_unique hn (hextends.kept _ hm) ▸ hb
    · exact absurd heq (by have := hpos hn; omega)

theorem complete_of_meets (h : Passed assumptions G lits g)
    (hground : ModelIterator.ground assumptions G.translator = some (lits, g))
    (hmatching : Matching assumptions G.translator) (hmeets : Meets assumptions G) :
    Complete assumptions G.translator ∨ ¬ HasModel G := by
  by_contra hnot
  rw [not_or, not_not, Complete, not_forall] at hnot
  obtain ⟨⟨a, ha⟩, M, ν, hbase⟩ := hnot
  rw [Classical.not_imp, not_or] at ha
  obtain ⟨hsymbol, huncovered, hvalue⟩ := ha
  have hnew : ¬ g.Introduced a := fun hnumber =>
    huncovered ⟨hsymbol, ((h.introduced a).mp hnumber).imp_right And.right⟩
  have hbase' : Solution G.holds G.translator ∅ (Function.update M a true) ν := by
    refine { hbase with isTrue := fun b hb => ?_, isFalse := fun b hb => ?_, atoms := fun e he => ?_ }
    · rcases eq_or_ne b a with rfl | hne
      · exact Function.update_self ..
      · exact (Function.update_of_ne hne ..).trans (hbase.isTrue b hb)
    · have hne : b ≠ a := fun heq => hvalue (heq ▸ hb)
      exact (Function.update_of_ne hne ..).trans (hbase.isFalse b hb)
    · have hne : e.1 ≠ a := fun heq => hnew ⟨e.2, heq ▸ h.extending.kept e he⟩
      exact (hbase.atoms e he).trans (Function.update_of_ne hne ..).symm
  have hne : ∀ l ∈ lits, l ≠ 0 := by
    intro l hl
    obtain ⟨b, n, hn, hlit⟩ := (h.literals l).mp hl
    have hpos := (g.atoms _ hn).1
    omega
  have hempty : ((lits.pmap Subtype.mk hne).map Call.removeAssumption).foldl ModelIterator.call (createList lits) = ∅ := by
    rw [foldl_removeAssumption, List.map_pmap, List.pmap_eq_map, createList, Finset.sdiff_self]
  have hiterate := hmeets.iterate lits g hground ((lits.pmap Subtype.mk hne).map Call.removeAssumption)
    (Function.update M a true)
  rw [h.requirements hmatching, ← calls_requirements fun r => unassumed_number, hempty] at hiterate
  obtain ⟨ν', -, hmeeting⟩ := hiterate.mp ⟨_, hbase'.extended h.extending⟩
  have hfalse : Function.update M a true a = false := hmeeting (.input a, false) (Or.inr ⟨a, rfl, hsymbol, hnew⟩)
  rw [Function.update_self] at hfalse
  exact nomatch hfalse

-- an atom that is certainly true and certainly false ends the run before the search
theorem meets_iff : Meets assumptions G ↔
    (∃ a, assumptions.Assumed G.translator a ∧ G.translator.Inconsistent a) ∨
      Matching assumptions G.translator ∧ (Complete assumptions G.translator ∨ ¬ HasModel G) := by
  rw [← toLitList_eq_none]
  constructor
  · intro hmeets
    cases h : assumptions.toLitList G.translator with
    | none => exact Or.inl rfl
    | some r =>
      have hmatching := @matching_of_same _ _ _ _ r.2 r.1 _ _ h hmeets
      obtain ⟨lits', g', hground, -⟩ := @ground_of_toLitList _ _ _ r.2 _ _ _ r.1 h
      exact Or.inr ⟨hmatching, complete_of_meets (hmatching.ground_passed hground) hground hmatching hmeets⟩
  · rintro (hnone | ⟨hmatching, hcomplete⟩)
    · obtain ⟨a, -, htrue, hfalse⟩ := toLitList_eq_none.mp hnone
      have hno : ∀ {g assumptions M ν}, Extends G.translator g → ¬ Solution G.holds g assumptions M ν := by
        intro g assumptions M ν hg hν
        have hbase := hν.restrict hg
        exact nomatch (hbase.isTrue a htrue).symm.trans (hbase.isFalse a hfalse)
      refine ⟨fun _ _ _ _ hsome => absurd (hnone.symm.trans hsome) nofun, fun M => ?_, fun lits g hground calls M => ?_⟩
      · refine iff_of_false ?_ ?_
        · rintro ⟨_, _, _, hsome, -⟩
          exact absurd (hnone.symm.trans hsome) nofun
        · rintro ⟨ν, hν, -⟩
          exact hno (Extends.refl _) hν
      · refine iff_of_false ?_ ?_
        · rintro ⟨ν, hν⟩
          exact hno (ground_translates hground).extending hν
        · rintro ⟨ν, hν, -⟩
          exact hno (Extends.refl _) hν
    · refine ⟨fun lits g lits' g' hlits hground l => ?_, fun M => ?_, fun lits g hground calls M => ?_⟩
      · obtain ⟨lits'', g'', hground', hextends⟩ := ground_of_toLitList hlits
        obtain ⟨rfl, rfl⟩ := Prod.mk.inj (Option.some.inj (hground.symm.trans hground'))
        exact (hmatching.toLitList_passed hlits).same (hmatching.ground_passed hground) hmatching hextends l
      · constructor
        · rintro ⟨lits, g, ν, hlits, hν⟩
          exact ((hmatching.toLitList_passed hlits).finds hmatching hcomplete []).mp ⟨ν, hν⟩
        · intro hM
          cases hlits : assumptions.toLitList G.translator with
          | none =>
            obtain ⟨a, -, htrue, hfalse⟩ := toLitList_eq_none.mp hlits
            obtain ⟨ν, hν, -⟩ := hM
            exact nomatch (hν.isTrue a htrue).symm.trans (hν.isFalse a hfalse)
          | some r =>
            obtain ⟨ν, hν⟩ := ((@Matching.toLitList_passed _ _ _ _ r.2 r.1 _ _ hmatching hlits).finds hmatching hcomplete
              []).mpr hM
            exact ⟨r.1, r.2, ν, hlits, hν⟩
      · exact (hmatching.ground_passed hground).finds hmatching hcomplete calls

end Matching

-- an atom of the grounding that is assumed false
def oneAtom : GroundTranslator Unit Unit where
  isTrue := fun _ => false
  isFalse := fun _ => false
  query := fun _ => []
  tuple2atom := [(⟨(), []⟩, 1)]
  knownlits := []
  nextnumber := 2
  unitclauses := []
  positive := by decide
  atoms := by decide
  one_atom := by decide
  known := by decide

def oneAtomGrounding : Grounding Unit Unit := ⟨oneAtom, fun _ => True, fun _ _ _ => Iff.rfl, by decide⟩

theorem assumeFalse_not_meets : ¬ Meets ⟨[⟨(), []⟩], [], []⟩ oneAtomGrounding := by
  intro h
  have hsame := h.same [-1] _ [1] _ rfl rfl 1
  exact absurd hsame (by decide)

end ModelExpansion
