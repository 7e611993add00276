import DeclarativeLocalSearch.Theory.PushQuantifications

set_option linter.unusedSectionVars false

namespace Theory

variable {S P F D : Type} [DecidableEq S] {I : Structure S P F D} {used : S → Prop}

namespace Flatten

theorem spliced_becomes {n : ℕ} {conj : Bool} {f : Formula S P F D}
    (h : (Formula.kind I).Fit used n f) :
    (Formula.kind I).Becomes used n f n (.bool .pos conj (spliced conj f)) := by
  unfold spliced
  split
  · split_ifs with heq
    · rw [heq]
      exact Kind.Becomes.refl h
    · exact single_bool h
  · exact single_bool h

theorem mergeQuant_becomes {n : ℕ} {q : QUANT} {vars : List (Variable S)} {f : Formula S P F D}
    (h : (Formula.kind I).Fit used n (.quant .pos q vars f)) :
    (Formula.kind I).Becomes used n (.quant .pos q vars f) n (mergeQuant .pos q vars f) := by
  unfold mergeQuant
  split
  · split_ifs with heq
    · subst heq
      exact quant_merge (fun v => List.mem_union_iff) h
    · exact Kind.Becomes.refl h
  · exact Kind.Becomes.refl h

theorem sound : (visitor : TheoryMutatingVisitor S P F D).Sound I used where
  bool h := bool_flatMap fun f hf => spliced_becomes (fit_bool_iff.mp h f hf)
  quant h hf := (quant_congr h hf).trans (mergeQuant_becomes (quant_congr h hf).fit)

end Flatten

theorem flatten_becomes {n : ℕ} {f : Formula S P F D} (h : (Formula.kind I).Fit used n f) :
    (Formula.kind I).Becomes used n f (flatten f n).2 (flatten f n).1 := Flatten.sound.visit h

theorem sharesVars_iff {f : Formula S P F D} {vars : List (Variable S)} :
    sharesVars f vars = true ↔ ∃ v ∈ vars, v ∈ f.freeVars := by
  simp [sharesVars, and_comm]

theorem not_sharesVars_iff {f : Formula S P F D} {vars : List (Variable S)} :
    sharesVars f vars = false ↔ ∀ v ∈ vars, v ∉ f.freeVars := by
  rw [← Bool.not_eq_true, sharesVars_iff]
  simp only [not_exists, not_and]

namespace PushQuantifications

variable {n : ℕ} {q : QUANT} {conj : Bool}

theorem group_becomes {fs : List (Formula S P F D)}
    (h : (Formula.kind I).Fit used n (.bool .pos conj fs)) :
    (Formula.kind I).Becomes used n (.bool .pos conj fs) n (group conj fs) := by
  unfold group
  split
  · exact bool_single h
  · exact Kind.Becomes.refl h

theorem filter_congr_of_imp {α : Type} {p p' : α → Bool} {l l' : List α} (hp : ∀ a, p a = true → p' a = true)
    (h : l.filter p' = l'.filter p') : l.filter p = l'.filter p := by
  have hsub : ∀ l : List α, (l.filter p').filter p = l.filter p := fun l => by
    rw [List.filter_filter]
    refine List.filter_congr fun a _ => ?_
    cases hpa : p a with
    | false => rfl
    | true => rw [hp a hpa, Bool.and_self]
  rw [← hsub l, h, hsub]

theorem mem_filter_or {α : Type} {p : α → Bool} {l m : List α} (a : α) :
    a ∈ l ++ m ↔ a ∈ l.filter (fun a => !p a) ++ (l.filter p ++ m) := by
  cases h : p a <;> simp [h]

theorem splitOverSameQuant_congr {vs : List (Variable S)} {fs gs : List (Formula S P F D)}
    (h : fs.filter (sharesVars · vs) = gs.filter (sharesVars · vs)) :
    splitOverSameQuant vs fs = splitOverSameQuant vs gs := by
  induction vs with
  | nil => rfl
  | cons v vs ih =>
    have hhead : ∀ f : Formula S P F D, (v ∈ f.freeVars && !sharesVars f vs) = true →
        sharesVars f (v :: vs) = true := fun f hf =>
      sharesVars_iff.mpr ⟨v, List.mem_cons_self, by simpa using (Bool.and_eq_true_iff.mp hf).1⟩
    have htail : ∀ f : Formula S P F D, sharesVars f vs = true → sharesVars f (v :: vs) = true := by
      intro f hf
      obtain ⟨w, hw, hfree⟩ := sharesVars_iff.mp hf
      exact sharesVars_iff.mpr ⟨w, List.mem_cons_of_mem v hw, hfree⟩
    rw [splitOverSameQuant, splitOverSameQuant, filter_congr_of_imp hhead h,
      ih (filter_congr_of_imp htail h)]

theorem splitOverSameQuant_filter (vs : List (Variable S)) (fs : List (Formula S P F D)) :
    splitOverSameQuant vs (fs.filter (sharesVars · vs)) = splitOverSameQuant vs fs :=
  splitOverSameQuant_congr (by simp only [List.filter_filter, Bool.and_self])

theorem split_becomes (hne : ∀ s, used s → ∃ d, I.sort s d) {vs : List (Variable S)} (hnodup : vs.Nodup)
    {fs : List (Formula S P F D)} (hfs : ∀ f ∈ fs, sharesVars f vs = true)
    {prevform : Option (Formula S P F D)}
    (h : (Formula.kind I).Fit used n (.quant .pos q vs (.bool .pos conj (fs ++ prevform.toList)))) :
    (Formula.kind I).Becomes used n (.quant .pos q vs (.bool .pos conj (fs ++ prevform.toList))) n
      (.bool .pos conj ((splitOverSameQuant vs fs).foldr (addVariable conj q) prevform).toList) := by
  induction vs generalizing fs with
  | nil =>
    have hnil : fs = [] := List.eq_nil_iff_forall_not_mem.mpr fun f hf => by simpa [sharesVars] using hfs f hf
    subst hnil
    exact quant_nil h
  | cons v vs ih =>
    obtain ⟨hv, hnodup⟩ := List.nodup_cons.mp hnodup
    have hsorts : ∀ w ∈ vs, ∃ d, I.sort w.sort d := fun w hw =>
      hne _ ((fit_quant_iff.mp h).2 w (List.mem_cons_of_mem v hw)).2.2
    have hhere : fs.filter (fun f => v ∈ f.freeVars && !sharesVars f vs) =
        fs.filter fun f => !sharesVars f vs := by
      refine List.filter_congr fun f hf => ?_
      cases hshare : sharesVars f vs with
      | true => simp
      | false =>
        obtain ⟨w, hw, hfree⟩ := sharesVars_iff.mp (hfs f hf)
        rcases List.mem_cons.mp hw with rfl | hw
        · simp [hfree]
        · exact absurd hfree (not_sharesVars_iff.mp hshare w hw)
    rw [splitOverSameQuant, List.foldr_cons, hhere, addVariable, ← splitOverSameQuant_filter vs fs]
    have hordered := quant_congr h (bool_members _ (fit_quant_iff.mp h).1 (mem_filter_or (p := (sharesVars · vs))))
    have hsplit := quant_split [v] vs (fun w => by simp)
      (fun w hw => List.mem_singleton.mp hw ▸ hv) hordered.fit
    have hout := quant_extract (fit_quant_iff.mp hsplit.fit).1 hsorts fun f hf => not_sharesVars_iff.mp (by
      simpa using (List.mem_filter.mp hf).2)
    have hdeeper := ih hnodup (fun f hf => (List.mem_filter.mp hf).2)
      (fit_bool_iff.mp hout.fit _ (List.mem_append_right _ (List.mem_singleton_self _)))
    have hin := hout.trans (bool_congr_last hout.fit hdeeper)
    have hjoined := hin.trans (bool_unnest hin.fit)
    have hgrouped := hjoined.trans (group_becomes hjoined.fit)
    have hquant := (hordered.trans hsplit).trans (quant_congr hsplit.fit hgrouped)
    exact hquant.trans (single_bool hquant.fit)

theorem formulalevels_congr {levels : List (Level S)} {fs gs : List (Formula S P F D)}
    (h : fs.filter (inLevels levels) = gs.filter (inLevels levels)) :
    formulalevels levels fs = formulalevels levels gs := by
  induction levels with
  | nil => rfl
  | cons level levels ih =>
    have hhead : ∀ f : Formula S P F D, (sharesVars f level.2 && !inLevels levels f) = true →
        inLevels (level :: levels) f = true := fun f hf => by
      rw [inLevels, List.any_cons, (Bool.and_eq_true_iff.mp hf).1, Bool.true_or]
    have htail : ∀ f : Formula S P F D, inLevels levels f = true → inLevels (level :: levels) f = true :=
      fun f hf => by rw [inLevels, List.any_cons, ← inLevels, hf, Bool.or_true]
    rw [formulalevels, formulalevels, filter_congr_of_imp hhead h, ih (filter_congr_of_imp htail h)]

theorem formulalevels_filter (levels : List (Level S)) (fs : List (Formula S P F D)) :
    formulalevels levels (fs.filter (inLevels levels)) = formulalevels levels fs :=
  formulalevels_congr (by simp only [List.filter_filter, Bool.and_self])

variable (order : SetOrder S)

theorem addLevel_becomes (hne : ∀ s, used s → ∃ d, I.sort s d) {vars : List (Variable S)}
    {fs : List (Formula S P F D)} (hfs : ∀ f ∈ fs, sharesVars f vars = true)
    {prevform : Option (Formula S P F D)}
    (h : (Formula.kind I).Fit used n (.quant .pos q vars (.bool .pos conj (fs ++ prevform.toList)))) :
    (Formula.kind I).Becomes used n (.quant .pos q vars (.bool .pos conj (fs ++ prevform.toList))) n
      (.bool .pos conj (addLevel order conj ((q, vars), fs) prevform).toList) := by
  have hshare : ∀ f ∈ fs, sharesVars f (order.elements vars) = true := by
    intro f hf
    obtain ⟨v, hv, hfree⟩ := sharesVars_iff.mp (hfs f hf)
    exact sharesVars_iff.mpr ⟨v, (order.mem_elements vars v).mpr hv, hfree⟩
  have hnone : fs.filter (fun f => !sharesVars f (order.elements vars)) = [] :=
    List.filter_eq_nil_iff.mpr fun f hf => by simp [hshare f hf]
  have hordered := quant_members _ h (order.mem_elements vars)
  rw [addLevel, if_pos hnone]
  exact hordered.trans (split_becomes hne (order.nodup vars) hshare hordered.fit)

def prefixed (levels : List (Level S)) (f : Formula S P F D) : Formula S P F D :=
  levels.foldr (fun level f => .quant .pos level.1 level.2 f) f

theorem fit_of_prefixed {levels : List (Level S)} {f : Formula S P F D}
    (h : (Formula.kind I).Fit used n (prefixed levels f)) : (Formula.kind I).Fit used n f := by
  induction levels with
  | nil => exact h
  | cons level levels ih => exact ih (fit_quant_iff.mp h).1

theorem prefixed_congr {levels : List (Level S)} {f f' : Formula S P F D}
    (h : (Formula.kind I).Fit used n (prefixed levels f))
    (hf : (Formula.kind I).Becomes used n f n f') :
    (Formula.kind I).Becomes used n (prefixed levels f) n (prefixed levels f') := by
  induction levels with
  | nil => exact hf
  | cons level levels ih => exact quant_congr h (ih (fit_quant_iff.mp h).1)

theorem prefixed_extract (hne : ∀ s, used s → ∃ d, I.sort s d) {levels : List (Level S)}
    {fs gs : List (Formula S P F D)} (hfs : ∀ f ∈ fs, inLevels levels f = false)
    (h : (Formula.kind I).Fit used n (prefixed levels (.bool .pos conj (fs ++ gs)))) :
    (Formula.kind I).Becomes used n (prefixed levels (.bool .pos conj (fs ++ gs))) n
      (.bool .pos conj (fs ++ [prefixed levels (.bool .pos conj gs)])) := by
  induction levels with
  | nil => exact bool_nest h
  | cons level levels ih =>
    have hor : ∀ f ∈ fs, sharesVars f level.2 = false ∧ inLevels levels f = false := fun f hf => by
      simpa [inLevels] using hfs f hf
    have hin := quant_congr h (ih (fun f hf => (hor f hf).2) (fit_quant_iff.mp h).1)
    have hout := hin.trans (quant_extract hin.fit
      (fun v hv => hne _ ((fit_quant_iff.mp h).2 v hv).2.2)
      fun f hf => not_sharesVars_iff.mp (hor f hf).1)
    have hlast := fit_bool_iff.mp hout.fit _ (List.mem_append_right _ (List.mem_singleton_self _))
    exact hout.trans (bool_congr_last hout.fit
      (quant_congr hlast (bool_single (fit_quant_iff.mp hlast).1)))

theorem levels_becomes (hne : ∀ s, used s → ∃ d, I.sort s d) {levels : List (Level S)}
    {fs : List (Formula S P F D)} (hfs : ∀ f ∈ fs, inLevels levels f = true)
    (h : (Formula.kind I).Fit used n (prefixed levels (.bool .pos conj fs))) :
    (Formula.kind I).Becomes used n (prefixed levels (.bool .pos conj fs)) n
      (.bool .pos conj ((formulalevels levels fs).foldr (addLevel order conj) none).toList) := by
  induction levels generalizing fs with
  | nil =>
    have hnil : fs = [] := List.eq_nil_iff_forall_not_mem.mpr fun f hf => by simpa [inLevels] using hfs f hf
    subst hnil
    exact Kind.Becomes.refl h
  | cons level levels ih =>
    have hcases : ∀ f ∈ fs, sharesVars f level.2 = true ∨ inLevels levels f = true := fun f hf => by
      simpa [inLevels] using hfs f hf
    have hhere : fs.filter (fun f => sharesVars f level.2 && !inLevels levels f) =
        fs.filter fun f => !inLevels levels f := by
      refine List.filter_congr fun f hf => ?_
      rcases hcases f hf with hshare | hdeep
      · rw [hshare, Bool.true_and]
      · rw [hdeep, Bool.not_true, Bool.and_false]
    rw [formulalevels, List.foldr_cons, hhere, ← formulalevels_filter levels fs]
    have hin := (fit_quant_iff.mp h).1
    have hordered := prefixed_congr hin (bool_members (fs.filter (fun f => !inLevels levels f) ++
      fs.filter (inLevels levels)) (fit_of_prefixed hin) fun f => by
        simpa using mem_filter_or (p := inLevels levels) (m := []) f)
    have hout := hordered.trans (prefixed_extract hne (fun f hf => by
      simpa using (List.mem_filter.mp hf).2) hordered.fit)
    have hdeeper := ih (fun f hf => (List.mem_filter.mp hf).2)
      (fit_bool_iff.mp hout.fit _ (List.mem_append_right _ (List.mem_singleton_self _)))
    have hlevels := hout.trans (bool_congr_last hout.fit hdeeper)
    have hjoined := quant_congr h (hlevels.trans (bool_unnest hlevels.fit))
    refine hjoined.trans (addLevel_becomes order hne (fun f hf => ?_) hjoined.fit)
    obtain ⟨hmem, hnot⟩ := List.mem_filter.mp hf
    exact (hcases f hmem).resolve_right (by simpa using hnot)

theorem pushed_becomes (hne : ∀ s, used s → ∃ d, I.sort s d) {levels : List (Level S)}
    {fs : List (Formula S P F D)}
    (h : (Formula.kind I).Fit used n (prefixed levels (.bool .pos conj fs))) :
    (Formula.kind I).Becomes used n (prefixed levels (.bool .pos conj fs)) n
      (pushed order levels conj fs) := by
  have hordered := prefixed_congr h (bool_members (fs.filter (fun f => !inLevels levels f) ++
    fs.filter (inLevels levels)) (fit_of_prefixed h) fun f => by
      simpa using mem_filter_or (p := inLevels levels) (m := []) f)
  have hout := hordered.trans (prefixed_extract hne (fun f hf => by
    simpa using (List.mem_filter.mp hf).2) hordered.fit)
  have hdeeper := levels_becomes order hne (fun f hf => (List.mem_filter.mp hf).2)
    (fit_bool_iff.mp hout.fit _ (List.mem_append_right _ (List.mem_singleton_self _)))
  have hlevels := hout.trans (bool_congr_last hout.fit hdeeper)
  rw [formulalevels_filter] at hlevels
  have hjoined := hlevels.trans (bool_unnest hlevels.fit)
  exact hjoined.trans (group_becomes hjoined.fit)

theorem prefixed_quantforms : (f : Formula S P F D) → f.prepared →
    prefixed (quantforms f).1 (quantforms f).2 = f
  | .quant sign q vars sub, ⟨hsign, _, h⟩ => by
    rw [quantforms, prefixed, List.foldr_cons, ← prefixed, prefixed_quantforms sub h, hsign]
  | .pred _ _ _, _ => rfl
  | .eqChain _ _ _ _, _ => rfl
  | .equiv _ _ _, _ => rfl
  | .bool _ _ _, _ => rfl
  | .agg _ _ _ _ _, _ => rfl

theorem sound (hne : ∀ s, used s → ∃ d, I.sort s d) :
    (visitor order : TheoryMutatingVisitor S P F D).Sound I used where
  bool h := Kind.Becomes.refl h
  quant {n n' q vars f f'} h hf := by
    dsimp only [visitor, visitQuant]
    split_ifs with hvars
    · subst hvars
      have hnil := quant_congr h hf
      exact hnil.trans (quant_nil hnil.fit)
    · split
      · rename_i levels conj subs heq
        split_ifs
        · have hprefixed := prefixed_quantforms (.quant .pos q vars f) h.prepared
          rw [heq] at hprefixed
          have hlater := Kind.Becomes.later h hf.le
          have hpush := pushed_becomes order hne (hprefixed ▸ hlater.fit)
          rw [hprefixed] at hpush
          exact (hlater.trans hpush).trans (flatten_becomes hpush.fit)
        · exact Kind.Becomes.later h hf.le
      · exact Kind.Becomes.later h hf.le

end PushQuantifications

end Theory
