import DeclarativeLocalSearch.Theory.Simplify

namespace Theory

namespace Simplify

open Structure

variable {S P F D : Type} [DecidableEq S] {I : Structure S P F D}

theorem holds_nil {sign : SIGN} {conj : Bool} {e : Variable S → D} :
    I.holds (.bool sign conj []) e ↔ isConjWithSign sign conj = true := by
  rw [holds_bool]
  cases sign <;> cases conj <;> simp [SIGN.apply, isConjWithSign]

theorem holds_of_isTrue {f : Formula S P F D} (h : isTrue f = true) (e : Variable S → D) :
    I.holds f e := by
  unfold isTrue at h
  split at h
  · exact holds_nil.mpr h
  · exact absurd h Bool.false_ne_true

theorem not_holds_of_isFalse {f : Formula S P F D} (h : isFalse f = true) (e : Variable S → D) :
    ¬ I.holds f e := by
  unfold isFalse at h
  split at h
  · rw [holds_nil]
    simpa using h
  · exact absurd h Bool.false_ne_true

theorem holds_getFormula {b : Bool} {e : Variable S → D} :
    I.holds (getFormula b) e ↔ b = true :=
  holds_nil

section Absorb

variable {sign : SIGN} {conj : Bool} {fs : List (Formula S P F D)}

theorem absorb_conj (e : Variable S → D) :
    I.holds (absorb .pos true fs) e ↔ I.holds (.bool .pos true fs) e := by
  rw [holds_bool, absorb]
  simp only [isConjWithSign, SIGN.apply, if_true, Bool.not_true, Bool.and_false, Bool.and_true,
    Bool.false_eq_true, if_false]
  split_ifs with h
  · obtain ⟨f, hf, hff⟩ := List.any_eq_true.mp h
    simp only [holds_getFormula, Bool.false_eq_true, false_iff]
    exact fun hall => not_holds_of_isFalse hff e (hall f hf)
  · rw [holds_bool]
    simp only [SIGN.apply, if_true, List.mem_filter, Bool.and_eq_true, Bool.not_eq_true', and_imp]
    refine forall₂_congr fun f hf => ⟨fun hh => ?_, fun hh _ _ => hh⟩
    by_cases ht : isTrue f = true
    · exact holds_of_isTrue ht e
    · exact hh (by simpa using ht) (by simpa using fun hff => h (List.any_eq_true.mpr ⟨f, hf, hff⟩))

theorem absorb_disj (e : Variable S → D) :
    I.holds (absorb .pos false fs) e ↔ I.holds (.bool .pos false fs) e := by
  rw [holds_bool, absorb]
  simp only [isConjWithSign, SIGN.apply, Bool.not_false, Bool.and_true, Bool.and_false,
    Bool.false_eq_true, if_false]
  split_ifs with h
  · obtain ⟨f, hf, hff⟩ := List.any_eq_true.mp h
    simp only [holds_getFormula, true_iff]
    exact ⟨f, hf, holds_of_isTrue hff e⟩
  · rw [holds_bool]
    simp only [SIGN.apply, Bool.false_eq_true, if_false, List.mem_filter, Bool.and_eq_true,
      Bool.not_eq_true']
    constructor
    · rintro ⟨f, ⟨hf, -⟩, hh⟩
      exact ⟨f, hf, hh⟩
    · rintro ⟨f, hf, hh⟩
      refine ⟨f, ⟨hf, ?_, ?_⟩, hh⟩
      · simpa using fun ht => h (List.any_eq_true.mpr ⟨f, hf, ht⟩)
      · simpa using fun hff => not_holds_of_isFalse hff e hh

omit [DecidableEq S] in
theorem absorb_plain (h : ∀ f ∈ fs, isTrue f = false ∧ isFalse f = false) :
    absorb sign conj fs = .bool sign conj fs := by
  have ht : fs.any isTrue = false := List.any_eq_false.mpr fun f hf => by simp [(h f hf).1]
  have hf : fs.any isFalse = false := List.any_eq_false.mpr fun f hf => by simp [(h f hf).2]
  rw [absorb, ht, hf, Bool.false_and, Bool.false_and, if_neg Bool.false_ne_true,
    if_neg Bool.false_ne_true, List.filter_eq_self.mpr fun f hf => by simp [h f hf]]

theorem absorb_holds (h : absorbSafe sign fs) (e : Variable S → D) :
    I.holds (absorb sign conj fs) e ↔ I.holds (.bool sign conj fs) e := by
  rcases h with rfl | h
  · cases conj
    · exact absorb_disj e
    · exact absorb_conj e
  · rw [absorb_plain h]

theorem absorbQuant_holds {q : QUANT} {vars : List (Variable S)} {f : Formula S P F D}
    (h : absorbQuantSafe sign q f) (e : Variable S → D) :
    I.holds (absorbQuant sign q vars f) e ↔ I.holds (.quant sign q vars f) e := by
  rw [absorbQuant]
  rcases h with rfl | ⟨h1, h2⟩
  · cases q
    · simp only [isUnivWithSign, decide_true, Bool.and_true, Bool.not_true, Bool.and_false,
        Bool.false_eq_true, if_false]
      split_ifs with ht
      · simp only [holds, SIGN.apply, holds_of_isTrue ht, implies_true]
      · rfl
    · simp only [isUnivWithSign, reduceCtorEq, decide_false, Bool.and_false, Bool.not_false,
        Bool.and_true, Bool.false_eq_true, if_false]
      split_ifs with hf
      · simp only [holds, SIGN.apply, not_holds_of_isFalse hf, exists_false]
      · rfl
  · rw [h1, h2, if_neg Bool.false_ne_true, if_neg Bool.false_ne_true]

end Absorb

mutual

theorem simplify_holds : (f : Formula S P F D) → simplifySafe f → (e : Variable S → D) →
    (I.holds (simplify f) e ↔ I.holds f e)
  | .bool _ _ [], _, _ => Iff.rfl
  | .bool sign conj (f :: fs), ⟨hf, hfs, hs⟩, e => by
    have hall : ∀ g ∈ f :: fs, (I.holds (simplify g) e ↔ I.holds g e) :=
      List.forall_mem_cons.mpr ⟨simplify_holds f hf e, simplifyAll_holds fs hfs e⟩
    rw [simplify, absorb_holds hs, simplifyAll_eq_map, ← List.map_cons]
    exact holds_bool_congr hall
  | .quant sign q vars f, ⟨hf, hs⟩, e => by
    rw [simplify, absorbQuant_holds hs]
    exact holds_quant_congr fun a => simplify_holds f hf _
  | .pred _ _ _, _, _ => Iff.rfl
  | .eqChain _ _ _ _, _, _ => Iff.rfl
  | .equiv _ _ _, _, _ => Iff.rfl
  | .agg _ _ _ _ _, _, _ => Iff.rfl

theorem simplifyAll_holds : (fs : List (Formula S P F D)) → simplifyAllSafe fs →
    (e : Variable S → D) → ∀ f ∈ fs, (I.holds (simplify f) e ↔ I.holds f e)
  | [], _, _ => fun _ hf => absurd hf List.not_mem_nil
  | f :: fs, ⟨hf, hfs⟩, e =>
    List.forall_mem_cons.mpr ⟨simplify_holds f hf e, simplifyAll_holds fs hfs e⟩

end

mutual

theorem freeVars_simplify : (f : Formula S P F D) → ∀ v ∈ (simplify f).freeVars, v ∈ f.freeVars
  | .bool _ _ [], _, hv => hv
  | .bool sign conj (f :: fs), v, hv => by
    have hall : ∀ g ∈ simplify f :: simplifyAll fs, v ∈ g.freeVars →
        v ∈ (Formula.bool sign conj (f :: fs)).freeVars := by
      refine List.forall_mem_cons.mpr ⟨fun h => ?_, fun g hg h => ?_⟩
      · exact List.mem_append_left _ (freeVars_simplify f v h)
      · exact List.mem_append_right _ (freeVars_simplifyAll fs v (mem_formulasFreeVars.mpr ⟨g, hg, h⟩))
    rw [simplify, absorb] at hv
    split_ifs at hv
    · exact absurd hv List.not_mem_nil
    · exact absurd hv List.not_mem_nil
    · obtain ⟨g, hg, h⟩ := mem_formulasFreeVars.mp hv
      exact hall g (List.mem_filter.mp hg).1 h
  | .quant sign q vars f, v, hv => by
    have hsub : isTrue (simplify f) = true ∨ isFalse (simplify f) = true →
        v ∉ (simplify f).freeVars := by
      intro h hmem
      unfold isTrue isFalse at h
      split at h
      · rename_i heq
        rw [heq] at hmem
        exact absurd hmem List.not_mem_nil
      · simp at h
    rw [simplify, absorbQuant] at hv
    split_ifs at hv with ht hf
    · exact absurd hv (hsub (Or.inl (Bool.and_eq_true_iff.mp ht).1))
    · exact absurd hv (hsub (Or.inr (Bool.and_eq_true_iff.mp hf).1))
    · obtain ⟨h, hvars⟩ := List.mem_filter.mp hv
      exact List.mem_filter.mpr ⟨freeVars_simplify f v h, hvars⟩
  | .pred _ _ _, _, hv => hv
  | .eqChain _ _ _ _, _, hv => hv
  | .equiv _ _ _, _, hv => hv
  | .agg _ _ _ _ _, _, hv => hv

theorem freeVars_simplifyAll : (fs : List (Formula S P F D)) →
    ∀ v ∈ formulasFreeVars (simplifyAll fs), v ∈ formulasFreeVars fs
  | [], _, hv => hv
  | f :: fs, v, hv => by
    rcases List.mem_append.mp hv with h | h
    · exact List.mem_append_left _ (freeVars_simplify f v h)
    · exact List.mem_append_right _ (freeVars_simplifyAll fs v h)

end

theorem freeVars_constant {f : Formula S P F D} (h : isTrue f = true ∨ isFalse f = true) :
    f.freeVars = [] := by
  unfold isTrue isFalse at h
  split at h
  · rfl
  · simp at h

section Visit

variable [DecidableEq F] [DecidableEq D] {voc : Vocabulary S F} {approxTwoValued : F → Bool}

mutual

theorem isIdentical_value {eq : Bool} : (x y : Term S P F D) → isIdentical voc eq x y = true →
    (e : Variable S → D) → I.value x e = I.value y e
  | .var v, .var w, h, e => by
    rw [isIdentical, decide_eq_true_iff] at h
    rw [h]
  | .func f xs, .func g ys, h, e => by
    rw [isIdentical] at h
    split_ifs at h with hfg
    have hf : f = g := not_not.mp fun hn => hfg (Or.inl hn)
    rw [value, value, hf, areIdentical_values xs ys h e]
  | .dom _ d, .dom _ d', h, e => by
    rw [isIdentical, decide_eq_true_iff] at h
    rw [value, value, h]

theorem areIdentical_values {eq : Bool} : (xs ys : List (Term S P F D)) →
    areIdentical voc eq xs ys = true → (e : Variable S → D) → I.values xs e = I.values ys e
  | [], [], _, _ => rfl
  | x :: xs, y :: ys, h, e => by
    obtain ⟨hx, hxs⟩ := Bool.and_eq_true_iff.mp h
    rw [values, values, isIdentical_value x y hx e, areIdentical_values xs ys hxs e]

end

omit [DecidableEq S] [DecidableEq F] [DecidableEq D] in
theorem applied_eq {s : S} {a b : Option D} :
    I.applied (.eq s) [a, b] ↔ ∃ d, a = some d ∧ b = some d := by
  constructor
  · rintro ⟨_, hds, d, rfl⟩
    obtain ⟨rfl, h⟩ := List.cons.inj hds
    exact ⟨d, rfl, (List.cons.inj h).1⟩
  · rintro ⟨d, rfl, rfl⟩
    exact ⟨[d, d], rfl, d, rfl⟩

theorem visitPred_holds {sign : SIGN} {symbol : PFSymbol S P F} {args : List (Term S P F D)}
    (h : visitPredSafe voc I sign symbol args) {e : Variable S → D}
    (he : SortedOn I (Formula.pred sign symbol args).freeVars e) :
    I.holds (visitPred voc sign symbol args) e ↔ I.holds (.pred sign symbol args) e := by
  unfold visitPred
  split
  · rename_i s left right
    split_ifs with hid
    · have hdef : I.value left e ≠ none := h hid e fun v hv => he v (List.mem_append_left _ hv)
      obtain ⟨d, hd⟩ := Option.ne_none_iff_exists'.mp hdef
      have heq : I.applied (.eq s) (I.values [left, right] e) := by
        rw [values, values, values, ← isIdentical_value left right hid e, hd, applied_eq]
        exact ⟨d, rfl, rfl⟩
      rw [holds_getFormula, holds]
      cases sign
      · simpa [SIGN.apply] using heq
      · simpa [SIGN.apply] using heq
    · rfl
  · rfl

omit [DecidableEq F] [DecidableEq D] in
theorem domainElements_values {ts : List (Term S P F D)} {ds : List D}
    (h : domainElements ts = some ds) (e : Variable S → D) : I.values ts e = ds.map some := by
  induction ts generalizing ds with
  | nil =>
    obtain rfl : [] = ds := Option.some.inj h
    rfl
  | cons t ts ih =>
    cases t with
    | dom s d =>
      obtain ⟨ds', hds', rfl⟩ := Option.map_eq_some_iff.mp h
      rw [values, value, ih hds', List.map_cons]
    | var v => exact absurd h (by simp [domainElements])
    | func f args => exact absurd h (by simp [domainElements])
    | agg g sets => exact absurd h (by simp [domainElements])

omit [DecidableEq F] [DecidableEq D] in
theorem evaluate_value (f : F) (args : List (Term S P F D)) (e : Variable S → D) :
    I.value (evaluate voc I approxTwoValued f args) e = I.value (.func f args) e := by
  unfold evaluate
  split_ifs
  · split
    · rename_i tuple htuple
      split
      · rename_i result hresult
        have hall : (tuple.map some).mapM id = some tuple := by
          rw [List.mapM_map]
          exact List.mapM_pure.trans (congrArg pure (List.map_id tuple))
        rw [value, value, domainElements_values htuple e, hall]
        exact hresult.symm
      · rfl
    · rfl
  · rfl

omit [DecidableEq F] [DecidableEq D] in
theorem holds_quant_nil {q : QUANT} {f : Formula S P F D} {e : Variable S → D} :
    I.holds (.quant .pos q [] f) e ↔ I.holds f e := by
  have same : ∀ a : I.Tuple [], I.extend e a = e := fun a =>
    funext fun _ => extend_of_not_mem List.not_mem_nil e a
  have a : I.Tuple [] := ⟨fun v => absurd v.2 List.not_mem_nil, fun v => absurd v.2 List.not_mem_nil⟩
  cases q
  · simp only [holds, SIGN.apply, same]
    exact ⟨fun h => h a, fun h _ => h⟩
  · simp only [holds, SIGN.apply, same]
    exact ⟨fun ⟨_, h⟩ => h, fun h => ⟨a, h⟩⟩

omit [DecidableEq F] [DecidableEq D] in
theorem removeVars_holds {sign : SIGN} {q : QUANT} {vars : List (Variable S)}
    {sub : Formula S P F D} (h : sign = .pos ∨ remainingVars I vars sub ≠ []) (e : Variable S → D) :
    I.holds (removeVars I sign q vars sub) e ↔ I.holds (.quant sign q vars sub) e := by
  have hrem : ∀ v ∈ remainingVars I vars sub, v ∈ vars := fun v hv => (List.mem_filter.mp hv).1
  have hgone : ∀ v ∈ vars, v ∉ remainingVars I vars sub →
      v ∉ sub.freeVars ∧ ∃ d, I.sort v.sort d := by
    intro v hv hnot
    have hno : ¬ (v ∈ sub.freeVars ∨ I.isEmpty v.sort = true) := fun hor =>
      hnot (List.mem_filter.mpr ⟨hv, by simpa using hor⟩)
    obtain ⟨hfree, hne⟩ := not_or.mp hno
    rw [I.isEmpty_iff, not_forall_not] at hne
    exact ⟨hfree, hne⟩
  rw [holds_quant_restrict hrem hgone e, removeVars]
  split_ifs with hnil hlen
  · obtain rfl : sign = .pos := h.resolve_right fun hn => hn hnil
    rw [hnil, holds_quant_nil]
  · refine holds_quant_freshen (fun v hv => ?_) (fun v hv => ?_) e
    · exact lt_firstFree (List.mem_append_left _ (hrem v hv))
    · exact lt_firstFree (List.mem_append_right _ (freeVars_subset.2.2 sub v hv))
  · exact holds_quant_restrict hrem hgone e

omit [DecidableEq F] [DecidableEq D] in
theorem SortedOn.extend {vars l : List (Variable S)} {e : Variable S → D}
    (he : SortedOn I (l.filter (· ∉ vars)) e) (a : I.Tuple vars) :
    SortedOn I l (I.extend e a) := by
  intro v hv
  by_cases hv' : v ∈ vars
  · rw [extend_of_mem hv']
    exact a.2 ⟨v, hv'⟩
  · rw [extend_of_not_mem hv']
    exact he v (List.mem_filter.mpr ⟨hv, by simpa using hv'⟩)

omit [DecidableEq S] [DecidableEq F] [DecidableEq D] in
theorem SortedOn.left {l r : List (Variable S)} {e : Variable S → D} (h : SortedOn I (l ++ r) e) :
    SortedOn I l e :=
  fun v hv => h v (List.mem_append_left _ hv)

omit [DecidableEq S] [DecidableEq F] [DecidableEq D] in
theorem SortedOn.right {l r : List (Variable S)} {e : Variable S → D} (h : SortedOn I (l ++ r) e) :
    SortedOn I r e :=
  fun v hv => h v (List.mem_append_right _ hv)

theorem visitAll_eq_map (fs : List (Formula S P F D)) :
    visitAll voc I approxTwoValued fs = fs.map (visit voc I approxTwoValued) := by
  induction fs with
  | nil => rw [visitAll, List.map_nil]
  | cons f fs ih => rw [visitAll, ih, List.map_cons]

mutual

theorem visitTerm_value : (t : Term S P F D) → visitTermSafe voc I approxTwoValued t →
    (e : Variable S → D) → SortedOn I t.freeVars e →
    I.value (visitTerm voc I approxTwoValued t) e = I.value t e
  | .var _, _, _, _ => by rw [visitTerm]
  | .func f args, h, e, he => by
    rw [visitTermSafe] at h
    rw [visitTerm, evaluate_value, value, value, visitTerms_values args h e he]
  | .dom _ _, _, _, _ => by rw [visitTerm]
  | .agg g sets, h, e, he => by
    rw [visitTermSafe] at h
    rw [visitTerm, value, value, visitSets_occurrences sets h e he]
termination_by t => sizeOf t

theorem visitTerms_values : (ts : List (Term S P F D)) → visitTermsSafe voc I approxTwoValued ts →
    (e : Variable S → D) → SortedOn I (termsFreeVars ts) e →
    I.values (visitTerms voc I approxTwoValued ts) e = I.values ts e
  | [], _, _, _ => by rw [visitTerms]
  | t :: ts, h, e, he => by
    rw [visitTermsSafe] at h
    rw [visitTerms, values, values, visitTerm_value t h.1 e he.left,
      visitTerms_values ts h.2 e he.right]
termination_by ts => sizeOf ts

theorem visitSet_occurrences : (s : QuantSetExpr S P F D) → visitSetSafe voc I approxTwoValued s →
    (e : Variable S → D) → SortedOn I s.freeVars e →
    I.setOccurrences (visitSet voc I approxTwoValued s) e = I.setOccurrences s e
  | .mk vars condition term, h, e, he => by
    rw [visitSetSafe] at h
    have heq : ∀ (a : I.Tuple vars) (d : Option D),
        (I.holds (visit voc I approxTwoValued condition) (I.extend e a) ∧
          I.value (visitTerm voc I approxTwoValued term) (I.extend e a) = d) ↔
        (I.holds condition (I.extend e a) ∧ I.value term (I.extend e a) = d) := fun a d => by
      have hea := SortedOn.extend he a
      rw [visit_holds condition h.1 _ hea.left, visitTerm_value term h.2 _ hea.right]
    funext d
    rw [visitSet]
    simp only [setOccurrences, heq]
termination_by s => sizeOf s

theorem visitSets_occurrences : (ss : List (QuantSetExpr S P F D)) →
    visitSetsSafe voc I approxTwoValued ss → (e : Variable S → D) →
    SortedOn I (setsFreeVars ss) e →
    I.occurrences (visitSets voc I approxTwoValued ss) e = I.occurrences ss e
  | [], _, _, _ => by rw [visitSets]
  | s :: ss, h, e, he => by
    rw [visitSetsSafe] at h
    rw [visitSets, occurrences, occurrences, visitSet_occurrences s h.1 e he.left,
      visitSets_occurrences ss h.2 e he.right]
termination_by ss => sizeOf ss

theorem visit_holds : (f : Formula S P F D) → visitSafe voc I approxTwoValued f →
    (e : Variable S → D) → SortedOn I f.freeVars e →
    (I.holds (visit voc I approxTwoValued f) e ↔ I.holds f e)
  | .pred sign symbol args, h, e, he => by
    rw [visitSafe] at h
    rw [visit]
    exact visitPred_holds h he
  | .eqChain sign conj comps terms, h, e, he => by
    rw [visitSafe] at h
    rw [visit, holds, holds, visitTerms_values terms h e he]
  | .equiv sign l r, h, e, he => by
    rw [visitSafe] at h
    rw [visit, holds, holds, visit_holds l h.1 e he.left, visit_holds r h.2 e he.right]
  | .bool sign conj subs, h, e, he => by
    rw [visitSafe] at h
    rw [visit, simplify_holds _ h.2, visitAll_eq_map]
    exact holds_bool_congr (visitAll_holds subs h.1 e he)
  | .quant sign q vars f, h, e, he => by
    rw [visitSafe] at h
    obtain ⟨hs, hsub, hrem⟩ := h
    rw [← simplify_holds _ hs, visit, simplify, absorbQuant]
    have hle := sizeOf_simplify_le f
    by_cases ht : (isTrue (simplify f) && isUnivWithSign sign q) = true
    · have hnil := freeVars_constant (Or.inl (Bool.and_eq_true_iff.mp ht).1)
      rw [if_pos (Bool.or_eq_true_iff.mpr (Or.inl ht)), if_pos ht]
      exact visit_holds _ hsub e fun v hv => absurd (hnil ▸ hv) List.not_mem_nil
    · by_cases hf : (isFalse (simplify f) && !isUnivWithSign sign q) = true
      · have hnil := freeVars_constant (Or.inr (Bool.and_eq_true_iff.mp hf).1)
        rw [if_pos (Bool.or_eq_true_iff.mpr (Or.inr hf)), if_neg ht, if_pos hf]
        exact visit_holds _ hsub e fun v hv => absurd (hnil ▸ hv) List.not_mem_nil
      · rw [if_neg (fun h => (Bool.or_eq_true_iff.mp h).elim ht hf), if_neg ht, if_neg hf,
          removeVars_holds (hrem.imp_right fun h => (h.resolve_left ht).resolve_left hf)]
        refine holds_quant_congr fun a => visit_holds _ hsub _ (SortedOn.extend (fun v hv => ?_) a)
        obtain ⟨hv, hvars⟩ := List.mem_filter.mp hv
        exact he v (List.mem_filter.mpr ⟨freeVars_simplify f v hv, hvars⟩)
  | .agg sign bound comp g sets, h, e, he => by
    rw [visitSafe] at h
    rw [visit, holds, holds, visitTerm_value bound h.1 e he.left,
      visitSets_occurrences sets h.2 e he.right]
termination_by f => sizeOf f
decreasing_by
  all_goals simp_wf
  all_goals omega

theorem visitAll_holds : (fs : List (Formula S P F D)) → visitAllSafe voc I approxTwoValued fs →
    (e : Variable S → D) → SortedOn I (formulasFreeVars fs) e →
    ∀ f ∈ fs, (I.holds (visit voc I approxTwoValued f) e ↔ I.holds f e)
  | [], _, _, _ => fun _ hf => absurd hf List.not_mem_nil
  | f :: fs, h, e, he => by
    rw [visitAllSafe] at h
    exact List.forall_mem_cons.mpr ⟨visit_holds f h.1 e he.left, visitAll_holds fs h.2 e he.right⟩
termination_by fs => sizeOf fs

end

def onePoint : Structure Unit Unit Unit Unit where
  sort _ _ := True
  isEmpty _ := false
  isEmpty_iff _ := by simp
  less _ _ := False
  predicate _ _ := True
  function _ _ := none
  aggregate _ _ := none

def partialVoc : Vocabulary Unit Unit where
  outsort _ := ()
  isPartial _ := true

def atomAt (v : Variable Unit) : Formula Unit Unit Unit Unit :=
  .pred .pos (.predicate ()) [.var v]

def negated : Formula Unit Unit Unit Unit :=
  .bool .neg true [atomAt ⟨1, ()⟩, .quant .neg .exist [⟨0, ()⟩] (atomAt ⟨0, ()⟩)]

end Visit

end Simplify

end Theory
