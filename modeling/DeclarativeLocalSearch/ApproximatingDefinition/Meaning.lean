import DeclarativeLocalSearch.ApproximatingDefinition.GenerateApproximatingDefinition

set_option linter.unusedSectionVars false

namespace ApproximatingDefinition

open Theory (SIGN Variable PFSymbol firstFree lt_firstFree)

variable {S P F D O : Type} [DecidableEq S] [DecidableEq P] [DecidableEq F]

-- a three-valued structure; a builtin symbol is two-valued in it
structure Structure (S P F D : Type) (builtin : PFSymbol S P F → Bool) where
  sort : S → D → Prop
  ct : PFSymbol S P F → List D → Prop
  cf : PFSymbol S P F → List D → Prop
  eq_builtin : ∀ s, builtin (.eq s) = true
  ct_eq : ∀ s ds, ct (.eq s) ds ↔ ∃ d, ds = [d, d]
  cf_builtin : ∀ q ds, builtin q = true → (cf q ds ↔ ¬ ct q ds)

-- a two-valued structure over the same sorts
structure Model (S P F D O : Type) where
  holds : PFSymbol S P F → List D → Prop
  other : O → List D → Prop

def Model.interpretation (M : Model S P F D O) (sort : S → D → Prop) : Interpretation S (PFSymbol S P F) D O :=
  ⟨sort, M.holds, M.holds, M.other⟩

section WellFounded

variable {builtin : PFSymbol S P F → Bool} (A : Structure S P F D builtin)

-- the atoms of the approximating vocabulary that are derived, with those that are given
def Structure.value (X : Set (ApproxSymbol S P F × List D)) : ApproxSymbol S P F → List D → Prop
  | .inputCt q, ds => A.ct q ds
  | .inputCf q, ds => A.cf q ds
  | .original q, ds => A.ct q ds
  | q, ds => (q, ds) ∈ X

def Structure.interpretation (X Y : Set (ApproxSymbol S P F × List D)) :
    Interpretation S (ApproxSymbol S P F) D Empty :=
  ⟨A.sort, A.value X, A.value Y, fun o _ => o.elim⟩

-- the rule derives the atom from an instance of its body
def Structure.derives (r : Rule S P F D) (X Y : Set (ApproxSymbol S P F × List D)) (a : ApproxSymbol S P F × List D) :
    Prop :=
  ∃ e : Variable S → D, (∀ v ∈ r.quantVars, A.sort v.sort (e v)) ∧ a = (r.head.symbol, r.head.args.map (Arg.value e)) ∧
    r.body.holds (A.interpretation X Y) e

theorem Structure.value_mono {X X' : Set (ApproxSymbol S P F × List D)} (h : X ⊆ X') (q : ApproxSymbol S P F)
    (ds : List D) (hq : A.value X q ds) : A.value X' q ds := by
  cases q with
  | inputCt q => exact hq
  | inputCf q => exact hq
  | original q => exact hq
  | ct q => exact h hq
  | cf q => exact h hq
  | formulaCt place => exact h hq
  | formulaCf place => exact h hq

def Structure.approximator (rules : List (Rule S P F D)) : Approximator (ApproxSymbol S P F × List D) where
  derive X Y := {a | ∃ r ∈ rules, A.derives r X Y a}
  mono := by
    rintro X X' Y h a ⟨r, hr, e, he, ha, hbody⟩
    exact ⟨r, hr, e, he, ha, Formula.holds_mono (I := A.interpretation X Y) (J := A.interpretation X' Y) rfl rfl (A.value_mono h)
      (fun _ _ hq => hq) r.body e hbody⟩
  anti := by
    rintro X Y Y' h a ⟨r, hr, e, he, ha, hbody⟩
    exact ⟨r, hr, e, he, ha, Formula.holds_mono (I := A.interpretation X Y') (J := A.interpretation X Y) rfl rfl (fun _ _ hq => hq)
      (A.value_mono h) r.body e hbody⟩

end WellFounded

section Meaning

-- the formula at a place, innermost index first
def subformulaAt (sentences : List (Sentence S P F D O)) : List ℕ → Option (Sentence S P F D O)
  | [] => none
  | [i] => sentences[i]?
  | i :: j :: place => (subformulaAt sentences (j :: place)).bind fun f => f.children[i]?

variable {builtin : PFSymbol S P F → Bool} (A : Structure S P F D builtin) (sentences : List (Sentence S P F D O))
  (M : Model S P F D O)

-- what the atoms of the approximating vocabulary say about a model
def means : ApproxSymbol S P F → List D → Prop
  | .ct q, ds => M.holds q ds
  | .cf q, ds => ¬ M.holds q ds
  | .inputCt q, ds => M.holds q ds
  | .inputCf q, ds => ¬ M.holds q ds
  | .original q, ds => M.holds q ds
  | .formulaCt place, ds => ∀ f, subformulaAt sentences place = some f → ∀ e, f.freeVars.dedup.map e = ds →
      f.holds (M.interpretation A.sort) e
  | .formulaCf place, ds => ∀ f, subformulaAt sentences place = some f → ∀ e, f.freeVars.dedup.map e = ds →
      ¬ f.holds (M.interpretation A.sort) e

-- a model of the sentences that extends the structure
structure ModelOf : Prop where
  ct : ∀ q ds, A.ct q ds → M.holds q ds
  cf : ∀ q ds, A.cf q ds → ¬ M.holds q ds
  holds : ∀ f ∈ sentences, ∀ e, (∀ v ∈ f.freeVars, A.sort v.sort (e v)) → f.holds (M.interpretation A.sort) e

-- the atoms that are true of the model
def truths : Set (ApproxSymbol S P F × List D) := {a | means A sentences M a.1 a.2}

-- whatever is possible, the rule leads from atoms that are true of the model to an atom that is
def Sound (r : Rule S P F D) : Prop :=
  ∀ Y a, A.derives r (truths A sentences M) Y a → a ∈ truths A sentences M

end Meaning

section Mappings

variable {data : ApproxDefGeneratorData S P F} {A : Structure S P F D data.builtin}
  {sentences : List (Sentence S P F D O)} {M : Model S P F D O} {place : List ℕ} {f : Sentence S P F D O}
  {e : Variable S → D} {v : TruthPropagation} {Y : Set (ApproxSymbol S P F × List D)}

def TruthPropagation.sat : TruthPropagation → Prop → Prop
  | .true, p => p
  | .false, p => ¬ p

def TruthPropagation.opposite : TruthPropagation → TruthPropagation
  | .true => .false
  | .false => .true

-- the atom that says that the formula has the truth value
def ApproxDefGeneratorData.formula2 (data : ApproxDefGeneratorData S P F) :
    TruthPropagation → ApproxDefGeneratorData.Mapping S P F D O
  | .true => data.formula2ct
  | .false => data.formula2cf

-- the atoms of a builtin symbol, for which no rule is made
def ApproxDefGeneratorData.builtinAtom (data : ApproxDefGeneratorData S P F) : Sentence S P F D O → Bool
  | .pred _ q _ => data.builtin q
  | _ => false

theorem ModelOf.builtin (hM : ModelOf A sentences M) {q : PFSymbol S P F} (hq : data.builtin q = true) {ds : List D} :
    A.ct q ds ↔ M.holds q ds :=
  ⟨hM.ct q ds, fun h => not_not.mp fun hct => hM.cf q ds ((A.cf_builtin q ds hq).mpr hct) h⟩

theorem general_means (hplace : subformulaAt sentences place = some f) :
    (((ApproxDefGeneratorData.createGeneralPredForm place f).1.atom.holds
      (A.interpretation (truths A sentences M) Y) e ↔ f.holds (M.interpretation A.sort) e) ∧
    ((ApproxDefGeneratorData.createGeneralPredForm place f).2.atom.holds
      (A.interpretation (truths A sentences M) Y) e ↔ ¬ f.holds (M.interpretation A.sort) e)) := by
  have hargs : (f.freeVars.dedup.map (Arg.var (D := D))).map (Arg.value e) = f.freeVars.dedup.map e := by
    rw [List.map_map]
    rfl
  have hagree : ∀ e', f.freeVars.dedup.map e' = f.freeVars.dedup.map e →
      (f.holds (M.interpretation A.sort) e' ↔ f.holds (M.interpretation A.sort) e) := fun e' he' =>
    Formula.agree f e' e fun v hv => List.map_inj_left.mp he' v (List.mem_dedup.mpr hv)
  simp only [ApproxDefGeneratorData.createGeneralPredForm, PredForm.atom, Formula.holds, hargs,
    Structure.interpretation, Structure.value, truths, Set.mem_ofPred_eq, means]
  refine ⟨⟨fun h => h f hplace e rfl, fun h f' hf' e' he' => ?_⟩, fun h => h f hplace e rfl, fun h f' hf' e' he' => ?_⟩
  · obtain rfl := Option.some.inj (hplace.symm.trans hf')
    exact (hagree e' he').mpr h
  · obtain rfl := Option.some.inj (hplace.symm.trans hf')
    exact mt (hagree e' he').mp h

theorem formula2_means (hM : ModelOf A sentences M) (hplace : subformulaAt sentences place = some f) :
    (data.formula2 v place f).atom.holds (A.interpretation (truths A sentences M) Y) e ↔
      v.sat (f.holds (M.interpretation A.sort) e) := by
  cases f with
  | pred sign q args =>
    cases hq : data.builtin q with
    | false =>
      cases sign <;> cases v <;>
        simp [ApproxDefGeneratorData.formula2, ApproxDefGeneratorData.formula2ct, ApproxDefGeneratorData.formula2cf,
          ApproxDefGeneratorData.ctcfpair, hq, PredForm.atom, Formula.holds, Structure.interpretation,
          Structure.value, truths, means, TruthPropagation.sat, Model.interpretation]
    | true =>
      have hmodel := @ModelOf.builtin _ _ _ _ _ _ _ _ _ _ _ _ hM _ hq (args.map (Arg.value e))
      cases sign <;> cases v <;>
        simp [ApproxDefGeneratorData.formula2, ApproxDefGeneratorData.formula2ct, ApproxDefGeneratorData.formula2cf,
          ApproxDefGeneratorData.ctcfpair, hq, PredForm.atom, SIGN.negate, Formula.holds, Structure.interpretation,
          Structure.value, TruthPropagation.sat, Model.interpretation, hmodel]
  | bool conj subs =>
    obtain ⟨hct, hcf⟩ := general_means (A := A) (M := M) (e := e) (Y := Y) hplace
    cases v
    · exact hct
    · exact hcf
  | quant univ vars sub =>
    obtain ⟨hct, hcf⟩ := general_means (A := A) (M := M) (e := e) (Y := Y) hplace
    cases v
    · exact hct
    · exact hcf
  | other form vars =>
    obtain ⟨hct, hcf⟩ := general_means (A := A) (M := M) (e := e) (Y := Y) hplace
    cases v
    · exact hct
    · exact hcf

theorem isBuiltin_formula2 : data.isBuiltin (data.formula2 v place f).symbol = data.builtinAtom f := by
  cases f with
  | pred sign q args =>
    cases hq : data.builtin q <;> cases sign <;> cases v <;>
      simp [ApproxDefGeneratorData.formula2, ApproxDefGeneratorData.formula2ct, ApproxDefGeneratorData.formula2cf,
        ApproxDefGeneratorData.ctcfpair, ApproxDefGeneratorData.isBuiltin, ApproxDefGeneratorData.builtinAtom, hq]
  | bool conj subs => cases v <;> rfl
  | quant univ vars sub => cases v <;> rfl
  | other form vars => cases v <;> rfl

theorem formula2_sign (h : data.builtinAtom f = false) : (data.formula2 v place f).sign = .pos := by
  cases f with
  | pred sign q args =>
    have hq : data.builtin q = false := h
    cases sign <;> cases v <;>
      simp [ApproxDefGeneratorData.formula2, ApproxDefGeneratorData.formula2ct, ApproxDefGeneratorData.formula2cf,
        ApproxDefGeneratorData.ctcfpair, hq]
  | bool conj subs => cases v <;> rfl
  | quant univ vars sub => cases v <;> rfl
  | other form vars => cases v <;> rfl

theorem formula2_new (h : data.builtinAtom f = false) (X : Set (ApproxSymbol S P F × List D)) (ds : List D) :
    A.value X (data.formula2 v place f).symbol ds ↔ ((data.formula2 v place f).symbol, ds) ∈ X := by
  cases f with
  | pred sign q args =>
    have hq : data.builtin q = false := h
    cases sign <;> cases v <;>
      simp [ApproxDefGeneratorData.formula2, ApproxDefGeneratorData.formula2ct, ApproxDefGeneratorData.formula2cf,
        ApproxDefGeneratorData.ctcfpair, hq, Structure.value]
  | bool conj subs => cases v <;> rfl
  | quant univ vars sub => cases v <;> rfl
  | other form vars => cases v <;> rfl

theorem formula2_vars : ∀ w, w ∈ (data.formula2 v place f).args.flatMap Arg.freeVars ↔ w ∈ f.freeVars := by
  intro w
  have hgeneral : ∀ l : List (Variable S), w ∈ (l.dedup.map (Arg.var (D := D))).flatMap Arg.freeVars ↔ w ∈ l := by
    intro l
    rw [List.flatMap_map]
    simp [Arg.freeVars]
  cases f with
  | pred sign q args =>
    cases hq : data.builtin q <;> cases sign <;> cases v <;>
      simp [ApproxDefGeneratorData.formula2, ApproxDefGeneratorData.formula2ct, ApproxDefGeneratorData.formula2cf,
        ApproxDefGeneratorData.ctcfpair, hq, Formula.freeVars]
  | bool conj subs => cases v <;> exact hgeneral _
  | quant univ vars sub => cases v <;> exact hgeneral _
  | other form vars => cases v <;> exact hgeneral _

theorem mem_add {head : PredForm S P F D} {body : Body S P F D} {r : Rule S P F D} (h : r ∈ data.add head body) :
    r = ⟨head, body⟩ ∧ data.isBuiltin head.symbol = false := by
  unfold ApproxDefGeneratorData.add at h
  split_ifs at h with hcond
  · exact absurd h List.not_mem_nil
  · rw [Bool.or_eq_true, not_or] at hcond
    exact ⟨List.mem_singleton.mp h, eq_false_of_ne_true hcond.1⟩

-- a rule for an atom of a formula is sound when the body gives the formula its truth value
theorem sound_head {body : Body S P F D} (hM : ModelOf A sentences M) (hplace : subformulaAt sentences place = some f)
    (hbuiltin : data.builtinAtom f = false)
    (h : ∀ Y, ∀ e : Variable S → D, (∀ w ∈ f.freeVars, A.sort w.sort (e w)) →
      body.holds (A.interpretation (truths A sentences M) Y) e → v.sat (f.holds (M.interpretation A.sort) e)) :
    Sound A sentences M ⟨data.formula2 v place f, body⟩ := by
  rintro Y a ⟨e, he, rfl, hbody⟩
  have hatom := (formula2_means (Y := Y) hM hplace).mpr (h Y e (fun w hw => he w (formula2_vars w |>.mpr hw)) hbody)
  rw [PredForm.atom, formula2_sign hbuiltin] at hatom
  exact (formula2_new hbuiltin _ _).mp hatom

theorem sound_formula {body : Body S P F D} {r : Rule S P F D} (hM : ModelOf A sentences M)
    (hplace : subformulaAt sentences place = some f) (hr : r ∈ data.add (data.formula2 v place f) body)
    (h : data.builtinAtom f = false → ∀ Y, ∀ e : Variable S → D, (∀ w ∈ f.freeVars, A.sort w.sort (e w)) →
      body.holds (A.interpretation (truths A sentences M) Y) e → v.sat (f.holds (M.interpretation A.sort) e)) :
    Sound A sentences M r := by
  obtain ⟨rfl, hbuiltin⟩ := mem_add hr
  rw [isBuiltin_formula2] at hbuiltin
  exact sound_head hM hplace hbuiltin (h hbuiltin)

end Mappings

end ApproximatingDefinition
