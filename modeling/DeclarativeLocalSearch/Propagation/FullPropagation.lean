import DeclarativeLocalSearch.Structure.TwoValuedEnough

set_option linter.unusedSectionVars false

namespace FullPropagation

open TwoValued

variable {P F D : Type} [DecidableEq P] [DecidableEq F] [DecidableEq D]

-- the numbers of the atoms
structure GroundTranslator (P F D : Type) where
  translateNonReduced : Atom P F D → ℕ
  inputAtom : ℕ → Option (Atom P F D)
  positive : ∀ a, 0 < translateNonReduced a
  inputAtom_translate : ∀ a, inputAtom (translateNonReduced a) = some a

section Literals

variable (voc : Vocabulary P F D) (translator : GroundTranslator P F D)

def atoms : List (Atom P F D) :=
  (voc.preds.flatMap fun p => (voc.predUniverse p).map (.pred p)) ++
    voc.funcs.flatMap fun f => (voc.domain f).flatMap fun d => (voc.imageSort f).map (.graph f d)

def literal (s : Interpretation P F D) (a : Atom P F D) : Option ℤ :=
  match s.value a with
  | .true => some (translator.translateNonReduced a)
  | .false => some (-translator.translateNonReduced a)
  | .unknown => none

def getLiteralSet (s : Interpretation P F D) : Finset ℤ := ((atoms voc).filterMap (literal translator s)).toFinset

def intersectLiterals (l : Finset ℤ) (s : Interpretation P F D) : Finset ℤ :=
  l \ (getLiteralSet voc translator s).image fun ll => -ll

-- none is an inconsistent structure
def makeAtLeast (a : Atom P F D) (v : TruthValue) (s : Interpretation P F D) : Option (Interpretation P F D) :=
  if s.value a = v then some s else if s.value a = .unknown then some (s.set a v) else none

def addToStructure (s : Interpretation P F D) (l : ℤ) : Option (Interpretation P F D) :=
  match translator.inputAtom l.natAbs with
  | some a => makeAtLeast a (if l < 0 then .false else .true) s
  | none => some s

end Literals

section Iterator

structure IteratorState (P F D : Type) where
  clauses : List (List ℤ)
  assumptions : List ℤ
  returned : List (Interpretation P F D)

-- the search of the solver, which may or may not exclude the models it has returned
structure ModelIterator (P F D : Type) where
  findNext : IteratorState P F D → Option (Interpretation P F D)
  excludes : Bool

def ModelIterator.calculate (miter : ModelIterator P F D) (σ : IteratorState P F D) :
    Option (Interpretation P F D) × IteratorState P F D :=
  match miter.findNext σ with
  | some model => (some model, if miter.excludes then { σ with returned := model :: σ.returned } else σ)
  | none => (none, σ)

end Iterator

section Propagate

variable (voc : Vocabulary P F D) (translator : GroundTranslator P F D) (miter : ModelIterator P F D)

def settle : ℕ → Finset ℤ → Finset ℤ → IteratorState P F D → Option (Finset ℤ)
  | fuel, underapproximation, overapproximation, σ =>
    if h : overapproximation.Nonempty then
      match fuel with
      | 0 => none
      | fuel + 1 =>
        let a := overapproximation.min' h
        let (model, σ) := miter.calculate { σ with assumptions := -a :: σ.assumptions }
        let σ := { σ with assumptions := σ.assumptions.erase (-a) }
        match model with
        | none => settle fuel (insert a underapproximation) (overapproximation.erase a) σ
        | some model =>
          settle fuel underapproximation (intersectLiterals voc translator overapproximation model) σ
    else some underapproximation

def propagate (fuel : ℕ) (s : Interpretation P F D) : Option (List (Interpretation P F D)) :=
  match miter.calculate ⟨[], [], []⟩ with
  | (none, _) => some []
  | (some model, σ) =>
    let underapproximation := getLiteralSet voc translator s
    let overapproximation := getLiteralSet voc translator model \ underapproximation
    (settle voc translator miter fuel underapproximation overapproximation σ).map fun underapproximation =>
      ((underapproximation.sort (· ≤ ·)).foldlM (addToStructure translator) s).toList.map (clean voc)

-- an element that is not kept is overwritten by the last one
def retain (keep : ℤ → Bool) (before : List ℤ) : List ℤ → List ℤ
  | [] => before
  | l :: after =>
    if keep l then retain keep (before ++ [l]) after
    else if h : after = [] then before
    else retain keep before (after.getLast h :: after.dropLast)
termination_by after => after.length
decreasing_by
  · exact Nat.lt_succ_self _
  · have hpos := List.length_pos_of_ne_nil h
    simp only [List.length_cons, List.length_dropLast]
    omega

def intersect : ℕ → List ℤ → Interpretation P F D → IteratorState P F D → Option (List ℤ)
  | 0, _, _, _ => none
  | fuel + 1, intersectionnegation, model, σ =>
    let structLits := getLiteralSet voc translator model
    let intersectionnegation := retain (fun l => decide (-l ∈ structLits)) [] intersectionnegation
    match miter.calculate { σ with clauses := intersectionnegation :: σ.clauses } with
    | (none, _) => some intersectionnegation
    | (some model, σ) => intersect fuel intersectionnegation model σ

-- the assertions are failures
def propagateNoAssumps (fuel : ℕ) (s : Interpretation P F D) : Option (List (Interpretation P F D)) :=
  match miter.calculate ⟨[], [], []⟩ with
  | (none, _) => none
  | (some model, σ) => do
    let firstmodel := getLiteralSet voc translator model
    let intersectionnegation ← intersect voc translator miter fuel ((firstmodel.sort (· ≤ ·)).map fun l => -l) model σ
    let safe ← (intersectionnegation.map fun l => -l).foldlM (addToStructure translator) s
    some [clean voc safe]

end Propagate

section Literals

variable {voc : Vocabulary P F D} {translator : GroundTranslator P F D} {s s' M : Interpretation P F D}
  {a : Atom P F D} {l : ℤ}

theorem mem_atoms : a ∈ atoms voc ↔ InUniverse voc a := by
  cases a with
  | pred p t => simp [atoms, InUniverse]
  | graph f d e => simp [atoms, InUniverse]

theorem translate_injective {b : Atom P F D} (h : translator.translateNonReduced a = translator.translateNonReduced b) :
    a = b := by
  have ha := translator.inputAtom_translate a
  rw [h, translator.inputAtom_translate b] at ha
  exact (Option.some.inj ha).symm

theorem mem_getLiteralSet :
    l ∈ getLiteralSet voc translator s ↔ ∃ a, InUniverse voc a ∧ literal translator s a = some l := by
  simp only [getLiteralSet, List.mem_toFinset, List.mem_filterMap, mem_atoms]

theorem literal_eq_some : literal translator s a = some l ↔
    s.value a = .true ∧ l = translator.translateNonReduced a ∨
      s.value a = .false ∧ l = -translator.translateNonReduced a := by
  rw [literal]
  cases s.value a <;> simp [eq_comm]

theorem pos_mem (ha : InUniverse voc a) :
    (translator.translateNonReduced a : ℤ) ∈ getLiteralSet voc translator s ↔ s.value a = .true := by
  simp only [mem_getLiteralSet, literal_eq_some]
  constructor
  · rintro ⟨b, -, ⟨hv, hb⟩ | ⟨-, hb⟩⟩
    · rw [translate_injective (Int.natCast_inj.mp hb)]
      exact hv
    · have := translator.positive a
      omega
  · exact fun hv => ⟨a, ha, Or.inl ⟨hv, rfl⟩⟩

theorem neg_mem (ha : InUniverse voc a) :
    -(translator.translateNonReduced a : ℤ) ∈ getLiteralSet voc translator s ↔ s.value a = .false := by
  simp only [mem_getLiteralSet, literal_eq_some]
  constructor
  · rintro ⟨b, -, ⟨-, hb⟩ | ⟨hv, hb⟩⟩
    · have := translator.positive a
      omega
    · rw [translate_injective (Int.natCast_inj.mp (neg_inj.mp hb))]
      exact hv
  · exact fun hv => ⟨a, ha, Or.inr ⟨hv, rfl⟩⟩

-- a literal overset an atom of the vocabulary
def IsLiteral (voc : Vocabulary P F D) (translator : GroundTranslator P F D) (l : ℤ) : Prop :=
  ∃ a, InUniverse voc a ∧ (l = translator.translateNonReduced a ∨ l = -translator.translateNonReduced a)

theorem isLiteral_of_mem (h : l ∈ getLiteralSet voc translator s) : IsLiteral voc translator l := by
  obtain ⟨a, ha, hl⟩ := mem_getLiteralSet.mp h
  exact ⟨a, ha, (literal_eq_some.mp hl).imp And.right And.right⟩

theorem neg_mem_iff (hM : IsTwoValued voc M) (hl : IsLiteral voc translator l) :
    -l ∈ getLiteralSet voc translator M ↔ l ∉ getLiteralSet voc translator M := by
  obtain ⟨a, ha, rfl | rfl⟩ := hl
  · rw [neg_mem ha, pos_mem ha]
    have := hM.decided a ha
    cases h : M.value a <;> simp_all
  · rw [neg_neg, pos_mem ha, neg_mem ha]
    have := hM.decided a ha
    cases h : M.value a <;> simp_all

theorem getLiteralSet_congr (h : Same voc s s') : getLiteralSet voc translator s = getLiteralSet voc translator s' := by
  ext l
  simp only [mem_getLiteralSet, literal_eq_some]
  exact exists_congr fun a => and_congr_right fun ha => by rw [h a ha]

theorem mem_intersectLiterals (hM : IsTwoValued voc M) {set : Finset ℤ} (hset : ∀ l ∈ set, IsLiteral voc translator l) :
    l ∈ intersectLiterals voc translator set M ↔ l ∈ set ∧ l ∈ getLiteralSet voc translator M := by
  rw [intersectLiterals, Finset.mem_sdiff, Finset.mem_image]
  refine and_congr_right fun hl => ?_
  have hneg : (∃ ll ∈ getLiteralSet voc translator M, -ll = l) ↔ -l ∈ getLiteralSet voc translator M :=
    ⟨fun ⟨ll, hll, h⟩ => h ▸ (neg_neg ll).symm ▸ hll, fun h => ⟨-l, h, neg_neg l⟩⟩
  rw [hneg, neg_mem_iff hM (hset l hl), not_not]

end Literals

section Add

variable {voc : Vocabulary P F D} {translator : GroundTranslator P F D} {s M : Interpretation P F D}

-- what a step of adding literals of an extension does
structure Adds (voc : Vocabulary P F D) (M s s' : Interpretation P F D) : Prop where
  extension : Extends voc M s'
  refines : Extends voc s' s
  functable : s'.functable = s.functable

theorem Adds.trans {s' s'' : Interpretation P F D} (h : Adds voc M s s') (h' : Adds voc M s' s'') : Adds voc M s s'' :=
  ⟨h'.extension, h'.refines.trans h.refines, h'.functable.trans h.functable⟩

theorem makeAtLeast_adds {a : Atom P F D} {v : TruthValue} (hM : Extends voc M s) (hv : M.value a = v)
    (ha : InUniverse voc a) : ∃ s', makeAtLeast a v s = some s' ∧ Adds voc M s s' ∧ s'.value a = v := by
  rw [makeAtLeast]
  split_ifs with h h'
  · exact ⟨s, rfl, ⟨hM, Extends.refl, rfl⟩, h⟩
  · refine ⟨_, rfl, ⟨fun b hb hne => ?_, extends_set h', rfl⟩, set_same⟩
    by_cases heq : b = a
    · rw [heq, set_same, hv]
    · rw [set_other heq] at hne ⊢
      exact hM b hb hne
  · exact absurd ((hM a ha h').symm.trans hv) h

theorem getLiteralSet_subset {s' : Interpretation P F D} (h : Extends voc s' s) :
    getLiteralSet voc translator s ⊆ getLiteralSet voc translator s' := by
  intro l hl
  obtain ⟨a, ha, hlit⟩ := mem_getLiteralSet.mp hl
  refine mem_getLiteralSet.mpr ⟨a, ha, literal_eq_some.mpr ?_⟩
  exact (literal_eq_some.mp hlit).imp (And.imp_left (h.true ha)) (And.imp_left (h.false ha))

theorem addToStructure_adds {l : ℤ} (hM : Extends voc M s) (hl : l ∈ getLiteralSet voc translator M) :
    ∃ s', addToStructure translator s l = some s' ∧ Adds voc M s s' ∧ l ∈ getLiteralSet voc translator s' := by
  obtain ⟨a, ha, hlit⟩ := mem_getLiteralSet.mp hl
  have hpositive := translator.positive a
  rcases literal_eq_some.mp hlit with ⟨hv, rfl⟩ | ⟨hv, rfl⟩
  · obtain ⟨s', hs', hadds, hvalue⟩ := makeAtLeast_adds hM hv ha
    have hnot : ¬ (translator.translateNonReduced a : ℤ) < 0 := by omega
    refine ⟨s', ?_, hadds, (pos_mem ha).mpr hvalue⟩
    simp only [addToStructure, Int.natAbs_natCast, translator.inputAtom_translate, if_neg hnot, hs']
  · obtain ⟨s', hs', hadds, hvalue⟩ := makeAtLeast_adds hM hv ha
    have hneg : -(translator.translateNonReduced a : ℤ) < 0 := by omega
    refine ⟨s', ?_, hadds, (neg_mem ha).mpr hvalue⟩
    simp only [addToStructure, Int.natAbs_neg, Int.natAbs_natCast, translator.inputAtom_translate, if_pos hneg, hs']

theorem addAll_adds {ls : List ℤ} (hM : Extends voc M s) (hls : ∀ l ∈ ls, l ∈ getLiteralSet voc translator M) :
    ∃ safe, ls.foldlM (addToStructure translator) s = some safe ∧ Adds voc M s safe ∧
      ∀ l ∈ ls, l ∈ getLiteralSet voc translator safe := by
  induction ls generalizing s with
  | nil => exact ⟨s, rfl, ⟨hM, Extends.refl, rfl⟩, nofun⟩
  | cons l ls ih =>
    obtain ⟨hl, hls⟩ := List.forall_mem_cons.mp hls
    obtain ⟨s', hs', hadds, hmem⟩ := addToStructure_adds hM hl
    obtain ⟨safe, hsafe, hadds', hmems⟩ := ih hadds.extension hls
    refine ⟨safe, ?_, hadds.trans hadds', List.forall_mem_cons.mpr ⟨getLiteralSet_subset hadds'.refines hmem, hmems⟩⟩
    rw [List.foldlM_cons, hs']
    exact hsafe

end Add

section Retain

variable {keep : ℤ → Bool} {before after : List ℤ}

theorem retain_perm (keep : ℤ → Bool) (before after : List ℤ) :
    (retain keep before after).Perm (before ++ after.filter keep) := by
  fun_induction retain keep before after with
  | case1 before => simp
  | case2 before l after hl ih => simpa [List.filter_cons, hl] using ih
  | case3 before l hl => simp [hl]
  | case4 before l after hl h ih =>
    refine ih.trans ?_
    have hperm : (after.getLast h :: after.dropLast).Perm after := by
      have happend : ([after.getLast h] ++ after.dropLast).Perm (after.dropLast ++ [after.getLast h]) :=
        List.perm_append_comm
      rwa [List.dropLast_append_getLast h] at happend
    rw [List.filter_cons_of_neg hl]
    exact (hperm.filter keep).append_left before

end Retain

section Correct

variable (voc : Vocabulary P F D) (translator : GroundTranslator P F D) (satisfies : Interpretation P F D → Prop)
  (s : Interpretation P F D)

-- the models of the theory that extend the structure
structure IsModel (M : Interpretation P F D) : Prop where
  extension : Extension voc s M
  satisfies : satisfies M

structure Admits (σ : IteratorState P F D) (M : Interpretation P F D) : Prop where
  model : IsModel voc satisfies s M
  clauses : ∀ c ∈ σ.clauses, ∃ l ∈ c, l ∈ getLiteralSet voc translator M
  assumptions : ∀ l ∈ σ.assumptions, l ∈ getLiteralSet voc translator M
  different : ∀ M' ∈ σ.returned, ¬ Same voc M M'

-- the iterator returns an admitted model, and nothing only when there is none
structure Correct (miter : ModelIterator P F D) : Prop where
  sound : ∀ σ M, miter.findNext σ = some M → Admits voc translator satisfies s σ M
  complete : ∀ σ, miter.findNext σ = none → ∀ M, ¬ Admits voc translator satisfies s σ M

-- a literal that is true in all models
def InAll (l : ℤ) : Prop := ∀ M, IsModel voc satisfies s M → l ∈ getLiteralSet voc translator M

-- the values on which all models agree
structure Exact (r : Interpretation P F D) : Prop where
  refines : Extends voc r s
  true_iff : ∀ a, InUniverse voc a → (r.value a = .true ↔ ∀ M, IsModel voc satisfies s M → M.value a = .true)
  false_iff : ∀ a, InUniverse voc a → (r.value a = .false ↔ ∀ M, IsModel voc satisfies s M → M.value a = .false)

-- what the remaining candidates and the literals found have to do with the models
structure Settling (under overset : Finset ℤ) (returned : List (Interpretation P F D)) : Prop where
  sound : ∀ l ∈ under, InAll voc translator satisfies s l
  complete : ∀ l, InAll voc translator satisfies s l → l ∈ under ∨ l ∈ overset
  literals : ∀ l ∈ overset, IsLiteral voc translator l
  returned : ∀ M ∈ returned, ∀ l ∈ overset, l ∈ getLiteralSet voc translator M

-- the same for the clause that every further model has to satisfy; the last model has not been looked at
structure Intersecting (intersectionnegation : List ℤ) (last : Interpretation P F D) (clauses : List (List ℤ))
    (returned : List (Interpretation P F D)) : Prop where
  model : IsModel voc satisfies s last
  complete : ∀ l, InAll voc translator satisfies s (-l) → l ∈ intersectionnegation
  literals : ∀ l ∈ intersectionnegation, IsLiteral voc translator (-l)
  clauses : ∀ c ∈ clauses, intersectionnegation ⊆ c
  returned : ∀ M ∈ returned, M = last ∨ ∀ l ∈ intersectionnegation, -l ∈ getLiteralSet voc translator M

variable {voc translator satisfies s} {miter : ModelIterator P F D} {σ : IteratorState P F D} {M : Interpretation P F D}

theorem calculate_cases (hmiter : Correct voc translator satisfies s miter) :
    (miter.calculate σ = (none, σ) ∧ ∀ M, ¬ Admits voc translator satisfies s σ M) ∨
    ∃ M returned, miter.calculate σ = (some M, { σ with returned := returned }) ∧
      Admits voc translator satisfies s σ M ∧ ∀ M' ∈ returned, M' = M ∨ M' ∈ σ.returned := by
  rw [ModelIterator.calculate]
  cases h : miter.findNext σ with
  | none => exact Or.inl ⟨rfl, hmiter.complete σ h⟩
  | some M =>
    refine Or.inr ⟨M, if miter.excludes then M :: σ.returned else σ.returned, ?_, hmiter.sound σ M h, fun M' hM' => ?_⟩
    · dsimp only
      split_ifs <;> rfl
    · split_ifs at hM'
      · exact List.mem_cons.mp hM'
      · exact Or.inr hM'

variable {under overset : Finset ℤ} {returned : List (Interpretation P F D)}

theorem settle_succ (fuel : ℕ) (h : overset.Nonempty) : settle voc translator miter (fuel + 1) under overset ⟨[], [], returned⟩ =
    match miter.calculate ⟨[], [-overset.min' h], returned⟩ with
    | (none, σ) => settle voc translator miter fuel (insert (overset.min' h) under) (overset.erase (overset.min' h))
      { σ with assumptions := σ.assumptions.erase (-overset.min' h) }
    | (some M, σ) => settle voc translator miter fuel under (intersectLiterals voc translator overset M)
      { σ with assumptions := σ.assumptions.erase (-overset.min' h) } := by
  rw [settle, dif_pos h]
  dsimp only
  rcases miter.calculate ⟨[], [-overset.min' h], returned⟩ with ⟨_ | M, σ⟩ <;> rfl

theorem Settling.unsat (h : Settling voc translator satisfies s under overset returned) {a : ℤ} (ha : a ∈ overset)
    (hunsat : ∀ M, ¬ Admits voc translator satisfies s ⟨[], [-a], returned⟩ M) :
    Settling voc translator satisfies s (insert a under) (overset.erase a) returned where
  sound := by
    refine fun l hl => (Finset.mem_insert.mp hl).elim (fun hla M hM => ?_) (h.sound l)
    subst hla
    by_contra hnot
    refine hunsat M ⟨hM, nofun, ?_, fun M' hM' hsame => ?_⟩
    · exact List.forall_mem_singleton.mpr ((neg_mem_iff hM.extension.twoValued (h.literals l ha)).mpr hnot)
    · rw [getLiteralSet_congr hsame] at hnot
      exact hnot (h.returned M' hM' l ha)
  complete l hl := by
    rw [Finset.mem_insert, Finset.mem_erase]
    by_cases hla : l = a
    · exact Or.inl (Or.inl hla)
    · exact (h.complete l hl).imp Or.inr fun hover => ⟨hla, hover⟩
  literals l hl := h.literals l (Finset.mem_of_mem_erase hl)
  returned M hM l hl := h.returned M hM l (Finset.mem_of_mem_erase hl)

theorem Settling.sat (h : Settling voc translator satisfies s under overset returned) (hM : IsModel voc satisfies s M)
    {returned' : List (Interpretation P F D)} (hreturned : ∀ M' ∈ returned', M' = M ∨ M' ∈ returned) :
    Settling voc translator satisfies s under (intersectLiterals voc translator overset M) returned' where
  sound := h.sound
  complete l hl := (h.complete l hl).imp_right fun hover =>
    (mem_intersectLiterals hM.extension.twoValued h.literals).mpr ⟨hover, hl M hM⟩
  literals l hl := h.literals l ((mem_intersectLiterals hM.extension.twoValued h.literals).mp hl).1
  returned M' hM' l hl := by
    obtain ⟨hover, hlM⟩ := (mem_intersectLiterals hM.extension.twoValued h.literals).mp hl
    rcases hreturned M' hM' with rfl | hM'
    · exact hlM
    · exact h.returned M' hM' l hover

theorem settle_spec (hmiter : Correct voc translator satisfies s miter)
    (h : Settling voc translator satisfies s under overset returned) {fuel : ℕ} (hfuel : overset.card ≤ fuel) :
    ∃ r, settle voc translator miter fuel under overset ⟨[], [], returned⟩ = some r ∧
      ∀ l, l ∈ r ↔ InAll voc translator satisfies s l := by
  induction fuel generalizing under overset returned with
  | zero =>
    obtain rfl : overset = ∅ := Finset.card_eq_zero.mp (Nat.le_zero.mp hfuel)
    refine ⟨under, by rw [settle]; rfl, fun l => ⟨h.sound l, fun hl => ?_⟩⟩
    exact (h.complete l hl).resolve_right (Finset.notMem_empty l)
  | succ fuel ih =>
    by_cases hover : overset.Nonempty
    · have hmem := overset.min'_mem hover
      rw [settle_succ fuel hover]
      rcases calculate_cases hmiter (σ := ⟨[], [-overset.min' hover], returned⟩) with
        ⟨hcalculate, hunsat⟩ | ⟨M, returned', hcalculate, hadmits, hreturned⟩
      · simp only [hcalculate, List.erase_cons_head]
        exact ih (h.unsat hmem hunsat) (by rw [Finset.card_erase_of_mem hmem]; omega)
      · simp only [hcalculate, List.erase_cons_head]
        refine ih (h.sat hadmits.model hreturned) (Nat.le_of_lt_succ (Nat.lt_of_lt_of_le (Finset.card_lt_card ?_) hfuel))
        have htwo := hadmits.model.extension.twoValued
        refine (Finset.ssubset_iff_of_subset fun l hl => ((mem_intersectLiterals htwo h.literals).mp hl).1).mpr
          ⟨_, hmem, fun hl => ?_⟩
        have hneg := hadmits.assumptions _ (List.mem_singleton_self _)
        exact (neg_mem_iff htwo (h.literals _ hmem)).mp hneg ((mem_intersectLiterals htwo h.literals).mp hl).2
    · obtain rfl : overset = ∅ := Finset.not_nonempty_iff_eq_empty.mp hover
      refine ⟨under, by rw [settle]; rfl, fun l => ⟨h.sound l, fun hl => ?_⟩⟩
      exact (h.complete l hl).resolve_right (Finset.notMem_empty l)

variable {intersectionnegation : List ℤ} {clauses : List (List ℤ)}

theorem mem_retain {keep : ℤ → Bool} {ls : List ℤ} {l : ℤ} : l ∈ retain keep [] ls ↔ l ∈ ls ∧ keep l = true := by
  rw [(retain_perm keep [] ls).mem_iff, List.nil_append, List.mem_filter]

theorem Intersecting.unsat (h : Intersecting voc translator satisfies s intersectionnegation M clauses returned)
    {retained : List ℤ} (hmem : ∀ l, l ∈ retained ↔ l ∈ intersectionnegation ∧ -l ∈ getLiteralSet voc translator M)
    (hunsat : ∀ M', ¬ Admits voc translator satisfies s ⟨retained :: clauses, [], returned⟩ M') (l : ℤ) :
    l ∈ retained ↔ InAll voc translator satisfies s (-l) := by
  constructor
  · intro hl M' hM'
    obtain ⟨hneg, hlast⟩ := (hmem l).mp hl
    have hliteral := h.literals l hneg
    by_contra hnot
    have hpos : l ∈ getLiteralSet voc translator M' := by
      rw [← neg_mem_iff hM'.extension.twoValued hliteral, neg_neg] at hnot
      exact hnot
    refine hunsat M' ⟨hM', List.forall_mem_cons.mpr ⟨⟨l, hl, hpos⟩, fun c hc => ⟨l, h.clauses c hc hneg, hpos⟩⟩, nofun,
      fun M'' hM'' hsame => ?_⟩
    rw [getLiteralSet_congr hsame] at hnot
    rcases h.returned M'' hM'' with rfl | hreturned
    · exact hnot hlast
    · exact hnot (hreturned l hneg)
  · exact fun hl => (hmem l).mpr ⟨h.complete l hl, hl M h.model⟩

theorem Intersecting.sat (h : Intersecting voc translator satisfies s intersectionnegation M clauses returned)
    {retained : List ℤ} (hmem : ∀ l, l ∈ retained ↔ l ∈ intersectionnegation ∧ -l ∈ getLiteralSet voc translator M)
    {M' : Interpretation P F D} (hM' : IsModel voc satisfies s M') {returned' : List (Interpretation P F D)}
    (hreturned : ∀ M'' ∈ returned', M'' = M' ∨ M'' ∈ returned) :
    Intersecting voc translator satisfies s retained M' (retained :: clauses) returned' where
  model := hM'
  complete l hl := (hmem l).mpr ⟨h.complete l hl, hl M h.model⟩
  literals l hl := h.literals l ((hmem l).mp hl).1
  clauses := List.forall_mem_cons.mpr
    ⟨List.Subset.refl _, fun c hc l hl => h.clauses c hc ((hmem l).mp hl).1⟩
  returned M'' hM'' := by
    refine (hreturned M'' hM'').imp_right fun hM'' l hl => ?_
    rcases h.returned M'' hM'' with rfl | hall
    · exact ((hmem l).mp hl).2
    · exact hall l ((hmem l).mp hl).1

theorem intersect_spec (hmiter : Correct voc translator satisfies s miter)
    (h : Intersecting voc translator satisfies s intersectionnegation M clauses returned) {fuel : ℕ}
    (hfuel : (intersectionnegation.filter fun l => decide (-l ∈ getLiteralSet voc translator M)).length < fuel) :
    ∃ r, intersect voc translator miter fuel intersectionnegation M ⟨clauses, [], returned⟩ = some r ∧
      ∀ l, l ∈ r ↔ InAll voc translator satisfies s (-l) := by
  induction fuel generalizing intersectionnegation M clauses returned with
  | zero => exact absurd hfuel (Nat.not_lt_zero _)
  | succ fuel ih =>
    have hmem : ∀ l, l ∈ retain (fun l => decide (-l ∈ getLiteralSet voc translator M)) [] intersectionnegation ↔
        l ∈ intersectionnegation ∧ -l ∈ getLiteralSet voc translator M := fun l => by
      rw [mem_retain, decide_eq_true_iff]
    have hlength := (retain_perm (fun l => decide (-l ∈ getLiteralSet voc translator M)) [] intersectionnegation).length_eq
    rw [List.nil_append] at hlength
    rw [intersect]
    generalize retain (fun l => decide (-l ∈ getLiteralSet voc translator M)) [] intersectionnegation = retained at hmem hlength ⊢
    rcases calculate_cases hmiter (σ := ⟨retained :: clauses, [], returned⟩) with
      ⟨hcalculate, hunsat⟩ | ⟨M', returned', hcalculate, hadmits, hreturned⟩
    · simp only [hcalculate]
      exact ⟨retained, rfl, h.unsat hmem hunsat⟩
    · simp only [hcalculate]
      refine ih (h.sat hmem hadmits.model hreturned) ?_
      obtain ⟨l, hl, hlM'⟩ := hadmits.clauses retained List.mem_cons_self
      have hliteral := h.literals l ((hmem l).mp hl).1
      have hdropped : -l ∉ getLiteralSet voc translator M' := by
        rwa [← neg_mem_iff hadmits.model.extension.twoValued hliteral, neg_neg]
      have hshorter : (retained.filter fun l => decide (-l ∈ getLiteralSet voc translator M')).length < retained.length :=
        List.length_filter_lt_length_iff_exists.mpr ⟨l, hl, fun hkeep => hdropped (of_decide_eq_true hkeep)⟩
      omega

theorem exact_of_added (hs : WellFormed voc s) (hexists : ∃ M, IsModel voc satisfies s M) {ls : List ℤ}
    (hls : ∀ l ∈ ls, InAll voc translator satisfies s l)
    (hall : ∀ l, InAll voc translator satisfies s l → l ∈ ls) :
    ∃ safe, ls.foldlM (addToStructure translator) s = some safe ∧ Exact voc satisfies s (clean voc safe) := by
  obtain ⟨M, hM⟩ := hexists
  obtain ⟨safe, hsafe, hadds, hmem⟩ := addAll_adds hM.extension.extends_ fun l hl => hls l hl M hM
  have hfunctional : Functional voc safe := fun f hf d hd e he e' he' h h' =>
    hM.extension.twoValued.functional f hf d hd e he e' he' (hadds.extension.true ⟨hf, hd, he⟩ h)
      (hadds.extension.true ⟨hf, hd, he'⟩ h')
  have htables : Tables voc safe := by
    intro f hf htable
    obtain ⟨hdecided, hassigned⟩ := hs.tables f hf (hadds.functable ▸ htable)
    exact ⟨hdecided.of_extends hadds.refines hf, fun d hd => (hassigned d hd).of_extends hadds.refines hf hd⟩
  have hcleans := clean_cleans hfunctional htables
  have hmodel : ∀ M', IsModel voc satisfies s M' → Extends voc M' (clean voc safe) := by
    intro M' hM'
    obtain ⟨safe', hsafe', hadds', -⟩ := addAll_adds hM'.extension.extends_ fun l hl => hls l hl M' hM'
    obtain rfl : safe = safe' := Option.some.inj (hsafe.symm.trans hsafe')
    exact (hcleans.keeps M' ⟨hM'.extension.twoValued, hadds'.extension⟩).extends_
  refine ⟨safe, hsafe, hcleans.refines.trans hadds.refines, fun a ha => ⟨fun h M' hM' => (hmodel M' hM').true ha h, ?_⟩,
    fun a ha => ⟨fun h M' hM' => (hmodel M' hM').false ha h, ?_⟩⟩
  · intro h
    have hin := hmem _ (hall _ fun M' hM' => (pos_mem ha).mpr (h M' hM'))
    exact hcleans.refines.true ha ((pos_mem ha).mp hin)
  · intro h
    have hin := hmem _ (hall _ fun M' hM' => (neg_mem ha).mpr (h M' hM'))
    exact hcleans.refines.false ha ((neg_mem ha).mp hin)

theorem Exact.same {r r' : Interpretation P F D} (h : Exact voc satisfies s r) (h' : Exact voc satisfies s r') :
    Same voc r r' := by
  intro a ha
  have htrue := (h.true_iff a ha).trans (h'.true_iff a ha).symm
  have hfalse := (h.false_iff a ha).trans (h'.false_iff a ha).symm
  cases hr : r.value a <;> cases hr' : r'.value a <;> simp_all

theorem card_getLiteralSet_le : (getLiteralSet voc translator s).card ≤ (atoms voc).length :=
  (List.toFinset_card_le _).trans (List.length_filterMap_le _ _)

theorem propagate_exact (hs : WellFormed voc s) (hmiter : Correct voc translator satisfies s miter)
    (hexists : ∃ M, IsModel voc satisfies s M) {fuel : ℕ} (hfuel : (atoms voc).length ≤ fuel) :
    ∃ r, propagate voc translator miter fuel s = some [r] ∧ Exact voc satisfies s r := by
  rcases calculate_cases hmiter (σ := ⟨[], [], []⟩) with ⟨-, hunsat⟩ | ⟨M, returned, hcalculate, hadmits, hreturned⟩
  · obtain ⟨M, hM⟩ := hexists
    exact absurd ⟨hM, nofun, nofun, nofun⟩ (hunsat M)
  · have hstart : Settling voc translator satisfies s (getLiteralSet voc translator s)
        (getLiteralSet voc translator M \ getLiteralSet voc translator s) returned := by
      refine ⟨fun l hl M' hM' => getLiteralSet_subset hM'.extension.extends_ hl, fun l hl => ?_, fun l hl => ?_, ?_⟩
      · by_cases hlit : l ∈ getLiteralSet voc translator s
        · exact Or.inl hlit
        · exact Or.inr (Finset.mem_sdiff.mpr ⟨hl M hadmits.model, hlit⟩)
      · exact isLiteral_of_mem (Finset.mem_sdiff.mp hl).1
      · intro M' hM' l hl
        obtain rfl : M' = M := (hreturned M' hM').resolve_right List.not_mem_nil
        exact (Finset.mem_sdiff.mp hl).1
    have hcard : (getLiteralSet voc translator M \ getLiteralSet voc translator s).card ≤ fuel :=
      (Finset.card_le_card Finset.sdiff_subset).trans (card_getLiteralSet_le.trans hfuel)
    obtain ⟨under, hsettle, hunder⟩ := settle_spec hmiter hstart hcard
    have hsort : ∀ l, l ∈ under.sort (· ≤ ·) ↔ InAll voc translator satisfies s l := fun l =>
      (Finset.mem_sort _).trans (hunder l)
    obtain ⟨safe, hsafe, hexact⟩ := exact_of_added hs hexists (fun l => (hsort l).mp) fun l => (hsort l).mpr
    refine ⟨clean voc safe, ?_, hexact⟩
    simp only [propagate, hcalculate, hsettle, Option.map_some, hsafe, Option.toList_some, List.map_cons, List.map_nil]

theorem propagateNoAssumps_exact (hs : WellFormed voc s) (hmiter : Correct voc translator satisfies s miter)
    (hexists : ∃ M, IsModel voc satisfies s M) {fuel : ℕ} (hfuel : (atoms voc).length < fuel) :
    ∃ r, propagateNoAssumps voc translator miter fuel s = some [r] ∧ Exact voc satisfies s r := by
  rcases calculate_cases hmiter (σ := ⟨[], [], []⟩) with ⟨-, hunsat⟩ | ⟨M, returned, hcalculate, hadmits, hreturned⟩
  · obtain ⟨M, hM⟩ := hexists
    exact absurd ⟨hM, by simp, by simp, by simp⟩ (hunsat M)
  · have hneg : ∀ {set : Finset ℤ} {l : ℤ}, l ∈ (set.sort (· ≤ ·)).map (fun l => -l) ↔ -l ∈ set := by
      intro set l
      rw [List.mem_map]
      constructor
      · rintro ⟨l', hl', h⟩
        rwa [← h, neg_neg, ← Finset.mem_sort (· ≤ ·)]
      · exact fun h => ⟨-l, (Finset.mem_sort _).mpr h, neg_neg l⟩
    have hstart : Intersecting voc translator satisfies s
        (((getLiteralSet voc translator M).sort (· ≤ ·)).map fun l => -l) M [] returned := by
      refine ⟨hadmits.model, fun l hl => hneg.mpr (hl M hadmits.model), fun l hl => isLiteral_of_mem (hneg.mp hl),
        by simp, ?_⟩
      exact fun M' hM' => Or.inl ((hreturned M' hM').resolve_right List.not_mem_nil)
    have hlength : ((((getLiteralSet voc translator M).sort (· ≤ ·)).map fun l => -l).filter
        fun l => decide (-l ∈ getLiteralSet voc translator M)).length < fuel := by
      refine Nat.lt_of_le_of_lt ((List.length_filter_le _ _).trans ?_) hfuel
      rw [List.length_map, Finset.length_sort]
      exact card_getLiteralSet_le
    obtain ⟨negations, hintersect, hnegations⟩ := intersect_spec hmiter hstart hlength
    have hmap : ∀ l, l ∈ negations.map (fun l => -l) ↔ InAll voc translator satisfies s l := by
      intro l
      rw [List.mem_map]
      constructor
      · rintro ⟨l', hl', rfl⟩
        exact (hnegations l').mp hl'
      · intro h
        refine ⟨-l, (hnegations _).mpr ?_, neg_neg l⟩
        rwa [neg_neg]
    obtain ⟨safe, hsafe, hexact⟩ := exact_of_added hs hexists (fun l => (hmap l).mp) fun l => (hmap l).mpr
    refine ⟨clean voc safe, ?_, hexact⟩
    simp only [propagateNoAssumps, hcalculate, hintersect, hsafe, Option.bind_eq_bind, Option.bind_some]

-- both variants give the values on which all models agree
theorem full_propagation (hs : WellFormed voc s) (hmiter : Correct voc translator satisfies s miter)
    (hexists : ∃ M, IsModel voc satisfies s M) {fuel : ℕ} (hfuel : (atoms voc).length < fuel) :
    ∃ r r', propagate voc translator miter fuel s = some [r] ∧ propagateNoAssumps voc translator miter fuel s = some [r'] ∧
      Exact voc satisfies s r ∧ Exact voc satisfies s r' ∧ Same voc r r' := by
  obtain ⟨r, hr, hexact⟩ := propagate_exact hs hmiter hexists hfuel.le
  obtain ⟨r', hr', hexact'⟩ := propagateNoAssumps_exact hs hmiter hexists hfuel
  exact ⟨r, r', hr, hr', hexact, hexact', hexact.same hexact'⟩

end Correct

section Proposition

-- one proposition, which the theory makes true
def proposition : Vocabulary Unit Empty Empty where
  preds := [()]
  funcs := []
  isPartial := nofun
  predUniverse _ := [[]]
  domain := nofun
  imageSort := nofun
  preds_nodup := List.nodup_singleton _
  funcs_nodup := List.nodup_nil
  predUniverse_nodup _ := List.nodup_singleton _
  domain_nodup := nofun
  imageSort_nodup := nofun

def propositionNumber : GroundTranslator Unit Empty Empty where
  translateNonReduced _ := 1
  inputAtom _ := some (.pred () [])
  positive _ := Nat.one_pos
  inputAtom_translate a := by
    cases a with
    | pred p t =>
      cases t with
      | nil => rfl
      | cons d t => exact d.elim
    | graph f _ _ => exact f.elim

def propositionValue (v : TruthValue) : Interpretation Unit Empty Empty where
  value _ := v
  functable := nofun
  approxTwoValued _ := false

def propositionIterator : ModelIterator Unit Empty Empty where
  findNext σ :=
    if (∀ c ∈ σ.clauses, (1 : ℤ) ∈ c) ∧ (∀ l ∈ σ.assumptions, l = 1) ∧
        ∀ M ∈ σ.returned, M.value (.pred () []) ≠ .true then
      some (propositionValue .true)
    else none
  excludes := true

theorem inUniverse_proposition {a : Atom Unit Empty Empty} (h : InUniverse proposition a) : a = .pred () [] := by
  cases a with
  | pred p t => exact congrArg (Atom.pred p) (List.mem_singleton.mp h.2)
  | graph f _ _ => exact f.elim

theorem propositionValue_model : IsModel proposition (fun M => M.value (.pred () []) = .true) (propositionValue .unknown)
    (propositionValue .true) :=
  ⟨⟨⟨fun _ _ => nofun, nofun, nofun⟩, fun _ _ h => absurd rfl h⟩, rfl⟩

theorem mem_literals_proposition {M : Interpretation Unit Empty Empty} (hM : M.value (.pred () []) = .true) {l : ℤ} :
    l ∈ getLiteralSet proposition propositionNumber M ↔ l = 1 := by
  rw [mem_getLiteralSet]
  constructor
  · rintro ⟨a, ha, hl⟩
    obtain rfl := inUniverse_proposition ha
    rw [literal, hM] at hl
    exact (Option.some.inj hl).symm
  · rintro rfl
    exact ⟨.pred () [], ⟨List.mem_singleton_self _, List.mem_singleton_self _⟩, by rw [literal, hM]; rfl⟩

theorem propositionIterator_correct : Correct proposition propositionNumber
    (fun M => M.value (.pred () []) = .true) (propositionValue .unknown) propositionIterator where
  sound σ M h := by
    simp only [propositionIterator] at h
    split_ifs at h with hadmitted
    cases h
    obtain ⟨hclauses, hassumptions, hreturned⟩ := hadmitted
    refine ⟨propositionValue_model, fun c hc => ⟨1, hclauses c hc, ?_⟩, fun l hl => ?_, fun M' hM' hsame => ?_⟩
    · exact (mem_literals_proposition rfl).mpr rfl
    · exact (mem_literals_proposition rfl).mpr (hassumptions l hl)
    · exact hreturned M' hM' (hsame (.pred () []) ⟨List.mem_singleton_self _, List.mem_singleton_self _⟩).symm
  complete σ h M hM := by
    simp only [propositionIterator] at h
    split_ifs at h with hadmitted
    refine hadmitted ⟨fun c hc => ?_, fun l hl => ?_, fun M' hM' htrue => hM.different M' hM' fun a ha => ?_⟩
    · obtain ⟨l, hl, hlit⟩ := hM.clauses c hc
      exact (mem_literals_proposition hM.model.satisfies).mp hlit ▸ hl
    · exact (mem_literals_proposition hM.model.satisfies).mp (hM.assumptions l hl)
    · obtain rfl := inUniverse_proposition ha
      exact hM.model.satisfies.trans htrue.symm

theorem full_propagation_proposition :
    ∃ r r', propagate proposition propositionNumber propositionIterator 2 (propositionValue .unknown) = some [r] ∧
      propagateNoAssumps proposition propositionNumber propositionIterator 2 (propositionValue .unknown) = some [r'] ∧
      Exact proposition (fun M => M.value (.pred () []) = .true) (propositionValue .unknown) r ∧
      Exact proposition (fun M => M.value (.pred () []) = .true) (propositionValue .unknown) r' ∧ Same proposition r r' :=
  full_propagation ⟨nofun, nofun, nofun⟩ propositionIterator_correct ⟨_, propositionValue_model⟩ (by decide)

end Proposition

end FullPropagation
