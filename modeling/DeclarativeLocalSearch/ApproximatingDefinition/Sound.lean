import DeclarativeLocalSearch.ApproximatingDefinition.Meaning

set_option linter.unusedSectionVars false

namespace ApproximatingDefinition

open Theory (SIGN Variable PFSymbol firstFree lt_firstFree)

variable {S P F D O : Type} [DecidableEq S] [DecidableEq P] [DecidableEq F]

section Rules

variable {data : ApproxDefGeneratorData S P F} {A : Structure S P F D data.builtin}
  {sentences : List (Sentence S P F D O)} {M : Model S P F D O} {place : List ℕ} {conj univ : Bool}
  {subs : List (Sentence S P F D O)} {sub : Sentence S P F D O} {vars : List (Variable S)} {r : Rule S P F D}
  {v : TruthPropagation}

-- the place of a formula that occurs
def Occurs (sentences : List (Sentence S P F D O)) (place : List ℕ) (f : Sentence S P F D O) : Prop :=
  subformulaAt sentences place = some f

theorem Occurs.child {f : Sentence S P F D O} (h : Occurs sentences place f) {i : ℕ} (hi : f.children[i]? = some sub) :
    Occurs sentences (i :: place) sub := by
  cases place with
  | nil => exact absurd h nofun
  | cons j place =>
    unfold Occurs at h ⊢
    rw [subformulaAt, h]
    exact hi

theorem Occurs.conjunct (h : Occurs sentences place (.bool conj subs)) {i : ℕ} (hi : (sub, i) ∈ subs.zipIdx) :
    Occurs sentences (i :: place) sub :=
  h.child (List.mk_mem_zipIdx_iff_getElem?.mp hi)

theorem Occurs.quantified (h : Occurs sentences place (.quant univ vars sub)) : Occurs sentences (0 :: place) sub :=
  h.child rfl

theorem Occurs.of_children {p : Sentence S P F D O → Prop} (hsentence : ∀ f ∈ sentences, p f)
    (hchild : ∀ f, p f → ∀ g ∈ f.children, p g) :
    ∀ place (f : Sentence S P F D O), Occurs sentences place f → p f := by
  intro place
  induction place with
  | nil => exact fun f h => absurd h nofun
  | cons i place ih =>
    intro f h
    cases place with
    | nil => exact hsentence f (List.mem_of_getElem? h)
    | cons j place =>
      obtain ⟨g, hg, hf⟩ := Option.bind_eq_some_iff.mp h
      exact hchild g (ih g hg) f (List.mem_of_getElem? hf)

-- the variables whose sort has to have an element, as they do not occur
def Covered (sort : S → D → Prop) (vars : List (Variable S)) (sub : Sentence S P F D O) : Prop :=
  ∀ w ∈ vars, w ∈ sub.freeVars ∨ ∃ d, sort w.sort d

theorem Covered.variant {sort : S → D → Prop} (h : Covered sort vars sub) {e : Variable S → D}
    (he : ∀ w ∈ sub.freeVars, sort w.sort (e w)) :
    ∃ e', Variant sort vars e e' ∧ ∀ w ∈ sub.freeVars, e' w = e w := by
  classical
  have hvalue : ∀ w, ∃ d, (w ∈ vars → sort w.sort d) ∧ ((w ∈ sub.freeVars ∨ w ∉ vars) → d = e w) := by
    intro w
    by_cases hfree : w ∈ sub.freeVars
    · exact ⟨e w, fun _ => he w hfree, fun _ => rfl⟩
    · by_cases hvars : w ∈ vars
      · obtain ⟨d, hd⟩ := (h w hvars).resolve_left hfree
        exact ⟨d, fun _ => hd, fun hor => absurd hor (not_or.mpr ⟨hfree, not_not.mpr hvars⟩)⟩
      · exact ⟨e w, fun hmem => absurd hmem hvars, fun _ => rfl⟩
  choose g hsort hsame using hvalue
  exact ⟨g, ⟨fun w hw => hsame w (Or.inr hw), fun w hw => hsort w hw⟩, fun w hw => hsame w (Or.inl hw)⟩

theorem basic_sound (hM : ModelOf A sentences M) : ∀ r ∈ data.getBasicDefinition sentences, Sound A sentences M r := by
  intro r hr
  obtain ⟨⟨f, i⟩, hf, hr⟩ := List.mem_flatMap.mp hr
  have hplace : Occurs sentences [i] f := List.mk_mem_zipIdx_iff_getElem?.mp hf
  have hmem : f ∈ sentences := List.fst_mem_of_mem_zipIdx hf
  dsimp only at hr
  split_ifs at hr with hbuiltin
  · exact absurd hr List.not_mem_nil
  · obtain rfl := List.mem_singleton.mp hr
    have hnew : data.builtinAtom f = false := by
      rw [← @isBuiltin_formula2 _ _ _ _ _ _ _ _ data [i] f .true]
      exact eq_false_of_ne_true hbuiltin
    exact sound_head (v := .true) hM hplace hnew fun _ e he _ => hM.holds f hmem e he

theorem input_sound (hM : ModelOf A sentences M) {q : PFSymbol S P F} {terms : List (Arg S D)} :
    Sound A sentences M ⟨⟨.pos, .ct q, terms⟩, .pred .pos (.inputCt q) terms⟩ ∧
      Sound A sentences M ⟨⟨.pos, .cf q, terms⟩, .pred .pos (.inputCf q) terms⟩ := by
  constructor
  · rintro Y a ⟨e, he, rfl, hbody⟩
    exact hM.ct _ _ hbody
  · rintro Y a ⟨e, he, rfl, hbody⟩
    exact hM.cf _ _ hbody

theorem handlePredForm_sound (hM : ModelOf A sentences M) {baseformulasAlreadyAdded : Bool} {sign : SIGN}
    {q : PFSymbol S P F} {args : List (Arg S D)} {handled : List (PFSymbol S P F)} :
    ∀ r ∈ (data.handlePredForm baseformulasAlreadyAdded place sign q args handled).1, Sound A sentences M r := by
  intro r hr
  by_cases hbuiltin : data.builtin q = true
  · simp [ApproxDefGeneratorData.handlePredForm, hbuiltin] at hr
  · have hq : data.builtin q = false := eq_false_of_ne_true hbuiltin
    unfold ApproxDefGeneratorData.handlePredForm at hr
    split_ifs at hr with hskip hhandled hneg
    · exact absurd hr List.not_mem_nil
    · exact absurd hr List.not_mem_nil
    · subst hneg
      simp only [ApproxDefGeneratorData.formula2ct, ApproxDefGeneratorData.formula2cf,
        ApproxDefGeneratorData.ctcfpair, hq, if_true, if_false, Bool.false_eq_true, Prod.swap] at hr
      rcases List.mem_append.mp hr with hr | hr
      · rw [(mem_add hr).1]
        exact (input_sound hM).2
      · rw [(mem_add hr).1]
        exact (input_sound hM).1
    · simp only [ApproxDefGeneratorData.formula2ct, ApproxDefGeneratorData.formula2cf,
        ApproxDefGeneratorData.ctcfpair, hq, hneg, if_false, Bool.false_eq_true] at hr
      rcases List.mem_append.mp hr with hr | hr
      · rw [(mem_add hr).1]
        exact (input_sound hM).1
      · rw [(mem_add hr).1]
        exact (input_sound hM).2

-- a formula whose rules lead to atoms that are true of the models
def Harmless (data : ApproxDefGeneratorData S P F) (sort : S → D → Prop) : Sentence S P F D O → Prop
  | .bool true subs =>
    (data.derivations .false .down = true → data.ruleTypes .cheap = true →
      subs.length ≤ 1 ∨ ∀ sub ∈ subs, data.builtinAtom sub = true) ∧
    (data.derivations .true .up = true → data.ruleTypes .cheap = true → subs.length ≤ 1)
  | .bool false subs => data.derivations .true .up = true → data.ruleTypes .cheap = true → subs ≠ []
  | .quant true vars sub => data.builtinAtom sub = false → data.ruleTypes .cheap = true →
    (data.derivations .false .down = true → ∀ w ∈ vars, w ∉ sub.freeVars) ∧
    (data.derivations .true .down = true → Covered sort vars sub)
  | .quant false vars sub => data.builtinAtom sub = false → data.ruleTypes .forall_ = true →
    data.derivations .false .down = true → Covered sort vars sub
  | _ => True

section TopDown

variable {Y : Set (ApproxSymbol S P F × List D)} {e : Variable S → D}

theorem holds_atoms (hM : ModelOf A sentences M) (hplace : Occurs sentences place (.bool conj subs))
    {l : List (Sentence S P F D O × ℕ)} (hl : ∀ s ∈ l, s ∈ subs.zipIdx) :
    (Formula.bool true (l.map fun (other, j) => (data.formula2 v (j :: place) other).atom)).holds
      (A.interpretation (truths A sentences M) Y) e ↔
    ∀ s ∈ l, v.sat (s.1.holds (M.interpretation A.sort) e) := by
  rw [Formula.holds_bool, if_pos rfl, List.forall_mem_map]
  exact forall₂_congr fun s hs => formula2_means hM (hplace.conjunct (hl s hs))

-- the variables of the other conjuncts only are quantified
theorem exists_outside {f : Body S P F D} {g sub : Sentence S P F D O}
    (h : (if g.freeVars.dedup.filter (· ∉ sub.freeVars) = [] then f
      else .quant false (g.freeVars.dedup.filter (· ∉ sub.freeVars)) f).holds
        (A.interpretation (truths A sentences M) Y) e) :
    ∃ e', f.holds (A.interpretation (truths A sentences M) Y) e' ∧ ∀ w ∈ sub.freeVars, e' w = e w := by
  split_ifs at h with hnone
  · exact ⟨e, h, fun _ _ => rfl⟩
  · rw [Formula.holds] at h
    obtain ⟨e', he', h⟩ := h
    exact ⟨e', h, fun w hw => he'.1 w fun hmem => by simp [hw] at hmem⟩

theorem sat_agree {f : Sentence S P F D O} {e' : Variable S → D} (h : ∀ w ∈ f.freeVars, e' w = e w) :
    v.sat (f.holds (M.interpretation A.sort) e') ↔ v.sat (f.holds (M.interpretation A.sort) e) := by
  cases v
  · exact Formula.agree f e' e h
  · exact not_congr (Formula.agree f e' e h)

theorem conjunct_sat (hcond : v = .true ∨ subs.length ≤ 1) (hsub : sub ∈ subs)
    (h : v.sat ((Formula.bool true subs).holds (M.interpretation A.sort) e)) :
    v.sat (sub.holds (M.interpretation A.sort) e) := by
  rw [Formula.holds_bool, if_pos rfl] at h
  cases v with
  | true => exact h sub hsub
  | false =>
    have hone := hcond.resolve_left nofun
    have hall : ∀ f ∈ subs, f = sub := fun f hf => by
      obtain ⟨g, rfl⟩ : ∃ g, subs = [g] := List.length_eq_one_iff.mp
        (le_antisymm hone (List.length_pos_of_mem hsub))
      rw [List.mem_singleton.mp hf, List.mem_singleton.mp hsub]
    exact fun hholds => h fun f hf => by rwa [hall f hf]

theorem disjunct_sat {i : ℕ} (hsub : (sub, i) ∈ subs.zipIdx)
    (h : v.sat ((Formula.bool false subs).holds (M.interpretation A.sort) e))
    (hothers : ∀ s ∈ subs.zipIdx, s.2 ≠ i → v.opposite.sat (s.1.holds (M.interpretation A.sort) e)) :
    v.sat (sub.holds (M.interpretation A.sort) e) := by
  rw [Formula.holds_bool, if_neg Bool.false_ne_true] at h
  cases v with
  | true =>
    obtain ⟨f, hf, hholds⟩ := h
    obtain ⟨j, hj⟩ := List.getElem?_of_mem hf
    have hmem : (f, j) ∈ subs.zipIdx := List.mk_mem_zipIdx_iff_getElem?.mpr hj
    have hij : j = i := by
      by_contra hne
      exact hothers (f, j) hmem hne hholds
    subst hij
    rw [List.mk_mem_zipIdx_iff_getElem?, hj] at hsub
    obtain rfl := Option.some.inj hsub
    exact hholds
  | false => exact fun hholds => h ⟨sub, List.fst_mem_of_mem_zipIdx hsub, hholds⟩

theorem topDownBool_sound (hM : ModelOf A sentences M) (hplace : Occurs sentences place (.bool conj subs))
    (hharmless : Harmless data A.sort (.bool conj subs)) (hv : data.derivations v .down = true) :
    ∀ r ∈ data.generateTopDownBool (data.formula2 v.opposite) (data.formula2 v) place conj subs,
      Sound A sentences M r := by
  intro r hr
  unfold ApproxDefGeneratorData.generateTopDownBool at hr
  by_cases hcheap : data.ruleTypes .cheap = true
  · rw [if_pos hcheap] at hr
    obtain ⟨⟨sub, i⟩, hsub, hr⟩ := List.mem_flatMap.mp hr
    have hmem : sub ∈ subs := List.fst_mem_of_mem_zipIdx hsub
    refine sound_formula hM (hplace.conjunct hsub) hr fun hbuiltin Y e _ hbody => ?_
    obtain ⟨e', hbody, hsame⟩ := exists_outside hbody
    rw [← sat_agree hsame]
    cases conj with
    | true =>
      refine conjunct_sat ?_ hmem ((formula2_means hM hplace).mp hbody)
      cases v with
      | true => exact Or.inl rfl
      | false =>
        refine Or.inr ((hharmless.1 hv hcheap).resolve_right fun hall => ?_)
        rw [hall sub hmem] at hbuiltin
        exact absurd hbuiltin nofun
    | false =>
      rw [if_neg Bool.false_ne_true, Formula.holds_bool, if_pos rfl, List.forall_mem_cons] at hbody
      have hothers := (holds_atoms hM hplace fun s hs => (List.mem_filter.mp hs).1).mp
        (Formula.holds_bool.mpr (by rw [if_pos rfl]; exact hbody.2))
      exact disjunct_sat hsub ((formula2_means hM hplace).mp hbody.1) fun s hs hne =>
        hothers s (List.mem_filter.mpr ⟨hs, by simpa using hne⟩)
  · rw [if_neg hcheap] at hr
    exact absurd hr List.not_mem_nil

theorem univ_sat (hfree : v = .false → ∀ w ∈ vars, w ∉ sub.freeVars) (hcovered : v = .true → Covered A.sort vars sub)
    (he : ∀ w ∈ sub.freeVars, A.sort w.sort (e w))
    (h : v.sat ((Formula.quant true vars sub).holds (M.interpretation A.sort) e)) :
    v.sat (sub.holds (M.interpretation A.sort) e) := by
  rw [Formula.holds] at h
  cases v with
  | true =>
    obtain ⟨e', he', hsame⟩ := (hcovered rfl).variant he
    exact (Formula.agree sub e' e hsame).mp (h e' he')
  | false =>
    refine fun hsub => h fun e' he' => (Formula.agree sub e' e fun w hw => ?_).mpr hsub
    exact he'.1 w fun hmem => hfree rfl w hmem hw

theorem formula2_args {f : Sentence S P F D O} {w : TruthPropagation} :
    (data.formula2 v place f).args = (data.formula2 w place f).args := by
  cases f with
  | pred sign q args =>
    cases hq : data.builtin q <;> cases sign <;> cases v <;> cases w <;>
      simp [ApproxDefGeneratorData.formula2, ApproxDefGeneratorData.formula2ct, ApproxDefGeneratorData.formula2cf,
        ApproxDefGeneratorData.ctcfpair, hq]
  | bool conj subs => cases v <;> cases w <;> rfl
  | quant univ vars sub => cases v <;> cases w <;> rfl
  | other form vars => cases v <;> cases w <;> rfl

-- the fresh variables take the values of one assignment, the others those of another
theorem fresh_values (bound : ℕ) {e e₁ : Variable S → D}
    (h₁ : Variant A.sort vars e e₁) :
    ∃ e₂, Variant A.sort (vars.map fun w => ⟨bound + w.id, w.sort⟩) e e₂ ∧
      (∀ w ∈ vars, e₂ ⟨bound + w.id, w.sort⟩ = e₁ w) ∧ ∀ w, w.id < bound → e₂ w = e w := by
  refine ⟨fun w => if w ∈ vars.map (fun w => (⟨bound + w.id, w.sort⟩ : Variable S)) then e₁ ⟨w.id - bound, w.sort⟩
    else e w, ⟨fun w hw => if_neg hw, fun w hw => ?_⟩, fun w hw => ?_, fun w hw => if_neg fun hmem => ?_⟩
  · dsimp only
    rw [if_pos hw]
    obtain ⟨u, hu, rfl⟩ := List.mem_map.mp hw
    simpa using h₁.2 u hu
  · dsimp only
    rw [if_pos (List.mem_map_of_mem hw)]
    simp
  · obtain ⟨u, -, rfl⟩ := List.mem_map.mp hmem
    exact absurd hw (Nat.not_lt.mpr (Nat.le_add_right _ _))

theorem exists_sat (hcovered : v = .false → Covered A.sort vars sub)
    (he : ∀ w ∈ sub.freeVars, A.sort w.sort (e w))
    (h : v.sat ((Formula.quant false vars sub).holds (M.interpretation A.sort) e))
    (hothers : ∀ e₁, Variant A.sort vars e e₁ →
      (∀ w ∈ vars, e₁ w = e w) ∨ v.opposite.sat (sub.holds (M.interpretation A.sort) e₁)) :
    v.sat (sub.holds (M.interpretation A.sort) e) := by
  rw [Formula.holds] at h
  cases v with
  | true =>
    obtain ⟨e₁, h₁, hsub⟩ := h
    have hsame := (hothers e₁ h₁).resolve_right (not_not.mpr hsub)
    refine (Formula.agree sub e₁ e fun w _ => ?_).mp hsub
    by_cases hmem : w ∈ vars
    · exact hsame w hmem
    · exact h₁.1 w hmem
  | false =>
    obtain ⟨e', he', hsame⟩ := (hcovered rfl).variant he
    exact fun hsub => h ⟨e', he', (Formula.agree sub e' e hsame).mpr hsub⟩

theorem topDownQuant_sound (hM : ModelOf A sentences M) (hplace : Occurs sentences place (.quant univ vars sub))
    (hharmless : Harmless data A.sort (.quant univ vars sub)) (hv : data.derivations v .down = true) :
    ∀ r ∈ data.generateTopDownQuant (data.formula2 v.opposite) (data.formula2 v) place univ vars sub,
      Sound A sentences M r := by
  intro r hr
  unfold ApproxDefGeneratorData.generateTopDownQuant at hr
  cases univ with
  | true =>
    by_cases hcheap : data.ruleTypes .cheap = true
    · rw [if_pos rfl, if_pos hcheap] at hr
      refine sound_formula hM hplace.quantified hr fun hbuiltin Y e he hbody => ?_
      refine univ_sat (fun hfalse => ?_) (fun htrue => ?_) he ((formula2_means hM hplace).mp hbody)
      · subst hfalse
        exact (hharmless hbuiltin hcheap).1 hv
      · subst htrue
        exact (hharmless hbuiltin hcheap).2 hv
    · rw [if_pos rfl, if_neg hcheap] at hr
      exact absurd hr List.not_mem_nil
  | false =>
    by_cases hforall : data.ruleTypes .forall_ = true
    · rw [if_neg Bool.false_ne_true, if_pos hforall] at hr
      refine sound_formula hM hplace.quantified hr fun hbuiltin Y e he hbody => ?_
      rw [Formula.holds_bool, if_pos rfl, List.forall_mem_cons, List.forall_mem_singleton] at hbody
      refine exists_sat (fun hfalse => ?_) he ((formula2_means hM hplace).mp hbody.2) fun e₁ h₁ => ?_
      · subst hfalse
        exact hharmless hbuiltin hforall hv
      · obtain ⟨e₂, h₂, hnew, hold⟩ := fresh_values (A := A) (firstFree (vars ++ sub.freeVars)) h₁
        have hall := hbody.1
        rw [Formula.holds] at hall
        have hor := hall e₂ h₂
        rw [Formula.holds_bool, if_neg Bool.false_ne_true] at hor
        have hvars : ∀ w ∈ vars, e₂ w = e w := fun w hw =>
          hold w (lt_firstFree (List.mem_append.mpr (Or.inl hw)))
        obtain ⟨f, hf, hor⟩ := hor
        rcases List.mem_cons.mp hf with rfl | hf
        · refine Or.inl fun w hw => ?_
          rw [Formula.holds_bool, if_pos rfl] at hor
          have heq := hor _ (List.mem_map_of_mem hw)
          obtain ⟨d, hd⟩ := (A.ct_eq _ _).mp heq
          simp only [List.map_cons, List.map_nil, Arg.value, List.cons.injEq, and_true] at hd
          rw [← hnew w hw, hd.1, ← hd.2, hvars w hw]
        · obtain rfl := List.mem_singleton.mp hf
          refine Or.inr ((formula2_means (Y := Y) hM hplace.quantified).mp ?_)
          rw [PredForm.atom, formula2_sign hbuiltin, formula2_args (w := v)]
          rw [Formula.holds] at hor ⊢
          rw [List.map_map] at hor
          convert hor using 1
          refine List.map_congr_left fun t ht => ?_
          cases t with
          | dom s d => rfl
          | var u =>
            have hu : u ∈ sub.freeVars :=
              (formula2_vars u).mp (List.mem_flatMap.mpr ⟨.var u, ht, List.mem_singleton.mpr rfl⟩)
            by_cases hmem : u ∈ vars
            · simp only [Function.comp_apply, if_pos hmem, Arg.value, hnew u hmem]
            · simp only [Function.comp_apply, if_neg hmem, Arg.value, h₁.1 u hmem,
                hold u (lt_firstFree (List.mem_append.mpr (Or.inr hu)))]
    · rw [if_neg Bool.false_ne_true, if_neg hforall] at hr
      exact absurd hr List.not_mem_nil

end TopDown

section BottomUp

variable {Y : Set (ApproxSymbol S P F × List D)} {e : Variable S → D}

theorem conjunction_sat (hcond : v = .false ∨ subs.length ≤ 1) (hsub : sub ∈ subs)
    (h : v.sat (sub.holds (M.interpretation A.sort) e)) :
    v.sat ((Formula.bool true subs).holds (M.interpretation A.sort) e) := by
  rw [Formula.holds_bool, if_pos rfl]
  cases v with
  | true =>
    have hone := hcond.resolve_left nofun
    obtain ⟨g, rfl⟩ : ∃ g, subs = [g] := List.length_eq_one_iff.mp
      (le_antisymm hone (List.length_pos_of_mem hsub))
    rw [List.mem_singleton.mp hsub] at h
    exact List.forall_mem_singleton.mpr h
  | false => exact fun hall => h (hall sub hsub)

theorem disjunction_sat (hcond : v = .true → subs ≠ [])
    (h : ∀ s ∈ subs.zipIdx, v.sat (s.1.holds (M.interpretation A.sort) e)) :
    v.sat ((Formula.bool false subs).holds (M.interpretation A.sort) e) := by
  have hall : ∀ f ∈ subs, v.sat (f.holds (M.interpretation A.sort) e) := fun f hf => by
    obtain ⟨i, hi⟩ := List.getElem?_of_mem hf
    exact h (f, i) (List.mk_mem_zipIdx_iff_getElem?.mpr hi)
  rw [Formula.holds_bool, if_neg Bool.false_ne_true]
  cases v with
  | true =>
    obtain ⟨f, hf⟩ := List.exists_mem_of_ne_nil subs (hcond rfl)
    exact ⟨f, hf, hall f hf⟩
  | false =>
    rintro ⟨f, hf, hholds⟩
    exact hall f hf hholds

theorem bottomUpBool_sound (hM : ModelOf A sentences M) (hplace : Occurs sentences place (.bool conj subs))
    (hharmless : Harmless data A.sort (.bool conj subs)) (hv : data.derivations v .up = true) :
    ∀ r ∈ data.generateBottomUpApproximation (data.formula2 v) place conj subs, Sound A sentences M r := by
  intro r hr
  unfold ApproxDefGeneratorData.generateBottomUpApproximation at hr
  by_cases hcheap : data.ruleTypes .cheap = true
  · rw [if_pos hcheap] at hr
    cases conj with
    | true =>
      rw [if_pos rfl] at hr
      obtain ⟨⟨sub, i⟩, hsub, hr⟩ := List.mem_flatMap.mp hr
      refine sound_formula hM hplace hr fun _ Y e _ hbody => ?_
      refine conjunction_sat ?_ (List.fst_mem_of_mem_zipIdx hsub)
        ((formula2_means hM (hplace.conjunct hsub)).mp hbody)
      cases v with
      | true => exact Or.inr (hharmless.2 hv hcheap)
      | false => exact Or.inl rfl
    | false =>
      rw [if_neg Bool.false_ne_true] at hr
      refine sound_formula hM hplace hr fun _ Y e _ hbody => ?_
      refine disjunction_sat (fun htrue => ?_) ((holds_atoms hM hplace fun s hs => hs).mp hbody)
      subst htrue
      exact hharmless hv hcheap
  · rw [if_neg hcheap] at hr
    exact absurd hr List.not_mem_nil

-- the dual quantification of what says that the subformula is false
theorem bottomUpQuant_sound (hM : ModelOf A sentences M) (hplace : Occurs sentences place (.quant univ vars sub)) :
    ∀ r ∈ data.add (data.formula2 .false place (.quant univ vars sub))
      (.quant (! univ) vars (data.formula2 .false (0 :: place) sub).atom), Sound A sentences M r := by
  intro r hr
  refine sound_formula hM hplace hr fun _ Y e _ hbody hholds => ?_
  cases univ with
  | true =>
    rw [Bool.not_true, Formula.holds] at hbody
    rw [Formula.holds] at hholds
    obtain ⟨e', he', hfalse⟩ := hbody
    exact (formula2_means hM hplace.quantified).mp hfalse (hholds e' he')
  | false =>
    rw [Bool.not_false, Formula.holds] at hbody
    rw [Formula.holds] at hholds
    obtain ⟨e', he', htrue⟩ := hholds
    exact (formula2_means hM hplace.quantified).mp (hbody e' he') htrue

end BottomUp

section Visit

variable {generate : List ℕ → Sentence S P F D O → List (Rule S P F D)} {baseformulasAlreadyAdded : Bool}

theorem topDown_sound (hM : ModelOf A sentences M) {f : Sentence S P F D O} (hplace : Occurs sentences place f)
    (hharmless : Harmless data A.sort f) : ∀ r ∈ data.topDown place f, Sound A sentences M r := by
  intro r hr
  have hgenerate : ∀ {w : TruthPropagation}, data.derivations w .down = true →
      ∀ r ∈ data.generateTopDownApproximation (data.formula2 w.opposite) (data.formula2 w) place f,
        Sound A sentences M r := fun hw r hr => by
    cases f with
    | bool conj subs => exact topDownBool_sound hM hplace hharmless hw r hr
    | quant univ vars sub => exact topDownQuant_sound hM hplace hharmless hw r hr
    | pred sign q args => exact absurd hr List.not_mem_nil
    | other form vars => exact absurd hr List.not_mem_nil
  unfold ApproxDefGeneratorData.topDown at hr
  rcases List.mem_append.mp hr with hr | hr
  · split_ifs at hr with hdown
    · exact hgenerate (w := .false) hdown r hr
    · exact absurd hr List.not_mem_nil
  · split_ifs at hr with hdown
    · exact hgenerate (w := .true) hdown r hr
    · exact absurd hr List.not_mem_nil

theorem bottomUp_sound (hM : ModelOf A sentences M) {f : Sentence S P F D O} (hplace : Occurs sentences place f)
    (hharmless : Harmless data A.sort f) : ∀ r ∈ data.bottomUp place f, Sound A sentences M r := by
  intro r hr
  cases f with
  | bool conj subs =>
    rcases List.mem_append.mp hr with hr | hr
    · split_ifs at hr with hup
      · exact bottomUpBool_sound (v := .false) hM hplace hharmless hup r hr
      · exact absurd hr List.not_mem_nil
    · split_ifs at hr with hup
      · exact bottomUpBool_sound (v := .true) hM hplace hharmless hup r hr
      · exact absurd hr List.not_mem_nil
  | quant univ vars sub =>
    rw [ApproxDefGeneratorData.bottomUp] at hr
    split_ifs at hr with hup
    · exact bottomUpQuant_sound hM hplace r hr
    · exact absurd hr List.not_mem_nil
  | pred sign q args => exact absurd hr List.not_mem_nil
  | other form vars => exact absurd hr List.not_mem_nil

theorem visitAll_rules {p : Rule S P F D → Prop} {subs : List (Sentence S P F D O)} :
    ∀ k handled, (∀ i sub handled, subs[i]? = some sub →
      ∀ r ∈ (data.visit generate baseformulasAlreadyAdded ((k + i) :: place) sub handled).1, p r) →
    ∀ r ∈ (data.visitAll generate baseformulasAlreadyAdded place k subs handled).1, p r := by
  induction subs with
  | nil =>
    intro k handled _ r hr
    exact absurd hr List.not_mem_nil
  | cons f fs ih =>
    intro k handled h r hr
    rw [ApproxDefGeneratorData.visitAll] at hr
    rcases List.mem_append.mp hr with hr | hr
    · exact h 0 f handled rfl r hr
    · refine ih (k + 1) _ (fun i sub handled hi => ?_) r hr
      rw [Nat.add_right_comm, Nat.add_assoc]
      exact h (i + 1) sub handled hi

-- what holds of the rules of every formula that occurs holds of those of the traversal
theorem visit_rules {p : Rule S P F D → Prop}
    (hpred : ∀ place sign q args handled,
      ∀ r ∈ (data.handlePredForm (D := D) baseformulasAlreadyAdded place sign q args handled).1, p r)
    (hgenerate : ∀ place f, Occurs sentences place f → ∀ r ∈ generate place f, p r) (f : Sentence S P F D O) :
    ∀ place handled, Occurs sentences place f →
      ∀ r ∈ (data.visit generate baseformulasAlreadyAdded place f handled).1, p r := by
  induction f using Formula.induct with
  | pred sign q args =>
    intro place handled _ r hr
    rw [ApproxDefGeneratorData.visit] at hr
    exact hpred place sign q args handled r hr
  | bool conj subs ih =>
    intro place handled hplace r hr
    rw [ApproxDefGeneratorData.visit] at hr
    rcases List.mem_append.mp hr with hr | hr
    · refine visitAll_rules 0 handled (fun i sub handled hi => ?_) r hr
      rw [Nat.zero_add]
      exact ih sub (List.mem_of_getElem? hi) (i :: place) handled (hplace.child hi)
    · exact hgenerate place _ hplace r hr
  | quant univ vars f ih =>
    intro place handled hplace r hr
    rw [ApproxDefGeneratorData.visit] at hr
    rcases List.mem_append.mp hr with hr | hr
    · exact ih (0 :: place) handled hplace.quantified r hr
    · exact hgenerate place _ hplace r hr
  | other form vars =>
    intro place handled _ r hr
    rw [ApproxDefGeneratorData.visit] at hr
    exact absurd hr List.not_mem_nil

theorem visitSentences_rules {p : Rule S P F D → Prop} {handled : List (PFSymbol S P F)}
    (hpred : ∀ place sign q args handled,
      ∀ r ∈ (data.handlePredForm (D := D) baseformulasAlreadyAdded place sign q args handled).1, p r)
    (hgenerate : ∀ place f, Occurs sentences place f → ∀ r ∈ generate place f, p r) :
    ∀ r ∈ (data.visitAll generate baseformulasAlreadyAdded [] 0 sentences handled).1, p r :=
  visitAll_rules 0 handled fun i f handled hi => by
    rw [Nat.zero_add]
    exact visit_rules hpred hgenerate f [i] handled hi

end Visit

theorem definition_sound (hM : ModelOf A sentences M)
    (hharmless : ∀ place f, Occurs sentences place f → Harmless data A.sort f) :
    ∀ r ∈ data.getDefinition sentences, Sound A sentences M r := by
  intro r hr
  have hdown : ∀ handled, ∀ r ∈ (data.visitAll data.topDown false [] 0 sentences handled).1, Sound A sentences M r :=
    fun _ => visitSentences_rules (fun _ _ _ _ _ => handlePredForm_sound hM) fun place f hplace =>
      topDown_sound hM hplace (hharmless place f hplace)
  have hup : ∀ b handled, ∀ r ∈ (data.visitAll data.bottomUp b [] 0 sentences handled).1, Sound A sentences M r :=
    fun _ _ => visitSentences_rules (fun _ _ _ _ _ => handlePredForm_sound hM) fun place f hplace =>
      bottomUp_sound hM hplace (hharmless place f hplace)
  unfold ApproxDefGeneratorData.getDefinition at hr
  cases hd : data.hasDerivation .down <;> cases hu : data.hasDerivation .up
  all_goals
    simp only [hd, hu, if_true, if_false, Bool.false_eq_true, List.append_nil, List.mem_append] at hr
  · exact basic_sound hM r hr
  · exact hr.elim (basic_sound hM r) (hup _ _ r)
  · exact hr.elim (basic_sound hM r) (hdown _ r)
  · exact hr.elim (fun hr => hr.elim (basic_sound hM r) (hdown _ r)) (hup _ _ r)

variable (data A) in
theorem derives_certain {rules : List (Rule S P F D)} {a : ApproxSymbol S P F × List D} (hr : r ∈ rules)
    (h : A.derives r (A.approximator rules).certain (A.approximator rules).possible a) :
    a ∈ (A.approximator rules).certain := by
  rw [← Approximator.derive_certain]
  exact ⟨r, hr, h⟩

-- what the well-founded model of the definition derives is so in every model
theorem certain_means (data : ApproxDefGeneratorData S P F) (A : Structure S P F D data.builtin)
    (sentences : List (Sentence S P F D O)) (hharmless : ∀ place f, Occurs sentences place f → Harmless data A.sort f)
    (M : Model S P F D O) (hM : ModelOf A sentences M) :
    ∀ a ∈ (A.approximator (data.getDefinition sentences)).certain, means A sentences M a.1 a.2 := by
  have hsubset : (A.approximator (data.getDefinition sentences)).certain ⊆ truths A sentences M := by
    refine Approximator.certain_subset _ fun Y a ha => ?_
    obtain ⟨r, hr, ha⟩ := ha
    exact definition_sound hM hharmless r hr Y a ha
  exact fun a ha => hsubset ha

end Rules

section OneSort

-- three predicates without arguments
inductive Letter where
  | p
  | q
  | r
  deriving DecidableEq

abbrev Letter.atom (l : Letter) : Sentence Unit Letter Empty Unit Empty := .pred .pos (.predicate l) []

def equality : PFSymbol Unit Letter Empty → Bool
  | .eq _ => true
  | _ => false

-- the given predicate is false
def withoutPredicate (l : Letter) : Structure Unit Letter Empty Unit equality where
  sort _ _ := True
  ct
    | .eq _, ds => ∃ d, ds = [d, d]
    | _, _ => False
  cf
    | .eq _, ds => ¬ ∃ d, ds = [d, d]
    | .predicate l', _ => l' = l
    | _, _ => False
  eq_builtin _ := rfl
  ct_eq _ _ := Iff.rfl
  cf_builtin := by
    rintro (_ | _ | _ | _ | _ | _) ds h
    · rfl
    all_goals exact absurd h nofun

def modelWithout (l : Letter) : Model Unit Letter Empty Unit Empty where
  holds
    | .eq _, ds => ∃ d, ds = [d, d]
    | .predicate l', _ => l' ≠ l
    | _, _ => False
  other o _ := o.elim

def falseDerivations : ApproxDefGeneratorData Unit Letter Empty where
  builtin := equality
  freesymbols _ := false
  derivations v _ := v = .false
  ruleTypes _ := true

def trueDerivations : ApproxDefGeneratorData Unit Letter Empty where
  builtin := equality
  freesymbols _ := false
  derivations v direction := v = .true && direction = .down || v = .false && direction = .up
  ruleTypes _ := true

theorem withoutPredicate_ct {l : Letter} {q : PFSymbol Unit Letter Empty} {ds : List Unit}
    (h : (withoutPredicate l).ct q ds) : (modelWithout l).holds q ds := by
  cases q with
  | eq _ => exact h
  | _ => exact h.elim

theorem withoutPredicate_cf {l : Letter} {q : PFSymbol Unit Letter Empty} {ds : List Unit}
    (h : (withoutPredicate l).cf q ds) : ¬ (modelWithout l).holds q ds := by
  cases q with
  | eq _ => exact h
  | predicate l' => exact not_not.mpr h
  | _ => exact h.elim

-- a disjunction with a disjunct that is false
theorem certain_means_disjunction :
    (ApproxSymbol.ct (.predicate Letter.r), []) ∈ ((withoutPredicate .p).approximator
      (trueDerivations.getDefinition [.bool false [Letter.p.atom, Letter.r.atom]])).certain ∧
    means (withoutPredicate .p) [.bool false [Letter.p.atom, Letter.r.atom]] (modelWithout .p)
      (.ct (.predicate Letter.r)) [] := by
  have hsentence := derives_certain trueDerivations (withoutPredicate .p) (a := (.formulaCt [0], []))
    (List.mem_of_getElem? (i := 0) (l := trueDerivations.getDefinition [.bool false [Letter.p.atom, Letter.r.atom]]) rfl)
    ⟨fun _ => (), (fun _ hv => by cases hv), rfl, trivial⟩
  have hp := derives_certain trueDerivations (withoutPredicate .p) (a := (.cf (.predicate .p), []))
    (List.mem_of_getElem? (i := 2) (l := trueDerivations.getDefinition [.bool false [Letter.p.atom, Letter.r.atom]]) rfl)
    ⟨fun _ => (), (fun _ hv => by cases hv), rfl, rfl⟩
  have hr := derives_certain trueDerivations (withoutPredicate .p) (a := (.ct (.predicate .r), []))
    (List.mem_of_getElem? (i := 6) (l := trueDerivations.getDefinition [.bool false [Letter.p.atom, Letter.r.atom]]) rfl)
    ⟨fun _ => (), (fun _ hv => by cases hv), rfl, hsentence, hp, trivial⟩
  refine ⟨hr, certain_means trueDerivations (withoutPredicate .p) _ ?_ (modelWithout .p)
    ⟨fun _ _ => withoutPredicate_ct, fun _ _ => withoutPredicate_cf, ?_⟩ _ hr⟩
  · refine fun place f hplace => (Occurs.of_children (p := fun f => Harmless trueDerivations (fun _ _ => True) f ∧
      ∀ g ∈ f.children, g = Letter.p.atom ∨ g = Letter.r.atom) ?_ ?_ place f hplace).1
    · rw [List.forall_mem_singleton]
      exact ⟨(fun h => by cases h), by simp [Formula.children]⟩
    · rintro f ⟨-, hchildren⟩ g hg
      rcases hchildren g hg with rfl | rfl
      · exact ⟨trivial, fun _ h => by cases h⟩
      · exact ⟨trivial, fun _ h => by cases h⟩
  · rw [List.forall_mem_singleton]
    exact fun e _ => Or.inr (Or.inl fun h => by cases h)

-- a conjunction is false because of one conjunct, and the other one is derived to be false
theorem conjunct_derived_false : ¬ ∀ (data : ApproxDefGeneratorData Unit Letter Empty)
    (A : Structure Unit Letter Empty Unit data.builtin) (sentences : List (Sentence Unit Letter Empty Unit Empty))
    (M : Model Unit Letter Empty Unit Empty), ModelOf A sentences M →
    ∀ a ∈ (A.approximator (data.getDefinition sentences)).certain, means A sentences M a.1 a.2 := by
  intro h
  let sentence : Sentence Unit Letter Empty Unit Empty :=
    .bool false [.bool true [Letter.p.atom, Letter.q.atom], Letter.r.atom]
  have hp := derives_certain falseDerivations (withoutPredicate .p) (a := (.cf (.predicate .p), []))
    (List.mem_of_getElem? (i := 2) (l := falseDerivations.getDefinition [sentence]) rfl)
    ⟨fun _ => (), (fun _ hv => by cases hv), rfl, rfl⟩
  have hconjunction := derives_certain falseDerivations (withoutPredicate .p) (a := (.formulaCf [0, 0], []))
    (List.mem_of_getElem? (i := 11) (l := falseDerivations.getDefinition [sentence]) rfl)
    ⟨fun _ => (), (fun _ hv => by cases hv), rfl, hp⟩
  have hq := derives_certain falseDerivations (withoutPredicate .p) (a := (.cf (.predicate .q), []))
    (List.mem_of_getElem? (i := 6) (l := falseDerivations.getDefinition [sentence]) rfl)
    ⟨fun _ => (), (fun _ hv => by cases hv), rfl, hconjunction⟩
  refine h falseDerivations (withoutPredicate .p) [sentence] (modelWithout .p)
    ⟨fun _ _ => withoutPredicate_ct, fun _ _ => withoutPredicate_cf, ?_⟩ _ hq fun h => by cases h
  rw [List.forall_mem_singleton]
  exact fun e _ => Or.inr (Or.inl fun h => by cases h)

end OneSort

end ApproximatingDefinition
