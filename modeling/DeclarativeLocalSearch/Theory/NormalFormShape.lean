import DeclarativeLocalSearch.Theory.NormalFormHolds

set_option linter.unusedSectionVars false

namespace Theory

open Quantified Structure

variable {S P Q F D : Type} [DecidableEq S]

section Clone

variable {p : Formula S P F D → Prop}

-- the shapes that look at the sort of a formula only
structure Kindwise (p : Formula S P F D → Prop) : Prop where
  pred : ∀ {sign symbol args args'}, p (.pred sign symbol args) → p (.pred sign symbol args')
  eqChain : ∀ {sign conj comps ts ts'}, p (.eqChain sign conj comps ts) → p (.eqChain sign conj comps ts')
  equiv : ∀ {sign l r l' r'}, p (.equiv sign l r) → p (.equiv sign l' r')
  bool : ∀ {sign conj fs fs'}, p (.bool sign conj fs) → p (.bool sign conj fs')
  quant : ∀ {sign q vars f vars' f'}, p (.quant sign q vars f) → p (.quant sign q vars' f')
  agg : ∀ {sign b c g ss b' ss'}, p (.agg sign b c g ss) → p (.agg sign b' c g ss')

theorem Kindwise.every_clone (h : Kindwise p) :
    (∀ t : Term S P F D, t.every p → ∀ ρ n, (t.clone ρ n).1.every p) ∧
    (∀ s : QuantSetExpr S P F D, s.every p → ∀ ρ n, (s.clone ρ n).1.every p) ∧
    ∀ f : Formula S P F D, f.every p → ∀ ρ n, (f.clone ρ n).1.every p := by
  have terms : ∀ {ts : List (Term S P F D)}, (∀ t ∈ ts, t.every p → ∀ ρ n, (t.clone ρ n).1.every p) →
      termsEvery p ts → ∀ ρ n, termsEvery p (cloneTerms ts ρ n).1 := by
    intro ts ih hts ρ n
    refine termsEvery_iff.mpr fun t' ht' => ?_
    obtain ⟨t, ht, m, rfl⟩ := FormulaVisitor.mem_visited (fun t n => t.clone ρ n)
      (fun ts n => cloneTerms ts ρ n) (fun _ => rfl) (fun _ _ _ => rfl) ht'
    exact ih t ht (termsEvery_iff.mp hts t ht) ρ m
  have sets : ∀ {ss : List (QuantSetExpr S P F D)},
      (∀ s ∈ ss, s.every p → ∀ ρ n, (s.clone ρ n).1.every p) →
      setsEvery p ss → ∀ ρ n, setsEvery p (cloneSets ss ρ n).1 := by
    intro ss ih hss ρ n
    refine setsEvery_iff.mpr fun s' hs' => ?_
    obtain ⟨s, hs, m, rfl⟩ := FormulaVisitor.mem_visited (fun s n => s.clone ρ n)
      (fun ss n => cloneSets ss ρ n) (fun _ => rfl) (fun _ _ _ => rfl) hs'
    exact ih s hs (setsEvery_iff.mp hss s hs) ρ m
  have formulas : ∀ {fs : List (Formula S P F D)},
      (∀ f ∈ fs, f.every p → ∀ ρ n, (f.clone ρ n).1.every p) →
      formulasEvery p fs → ∀ ρ n, formulasEvery p (cloneFormulas fs ρ n).1 := by
    intro fs ih hfs ρ n
    refine formulasEvery_iff.mpr fun f' hf' => ?_
    obtain ⟨f, hf, m, rfl⟩ := FormulaVisitor.mem_visited (fun f n => f.clone ρ n)
      (fun fs n => cloneFormulas fs ρ n) (fun _ => rfl) (fun _ _ _ => rfl) hf'
    exact ih f hf (formulasEvery_iff.mp hfs f hf) ρ m
  refine Formula.induct ?_ ?_ ?_ ?_ ?_ ?_ ?_ ?_ ?_ ?_ ?_
  · exact fun v _ ρ n => trivial
  · exact fun f args ih hargs ρ n => terms ih hargs ρ n
  · exact fun s d _ ρ n => trivial
  · exact fun g ss ih hss ρ n => sets ih hss ρ n
  · exact fun vars c t ihc iht hs ρ n => ⟨ihc hs.1 _ _, iht hs.2 _ _⟩
  · exact fun sign symbol args ih hf ρ n => ⟨h.pred hf.1, terms ih hf.2 ρ n⟩
  · exact fun sign conj comps ts ih hf ρ n => ⟨h.eqChain hf.1, terms ih hf.2 ρ n⟩
  · exact fun sign l r ihl ihr hf ρ n => ⟨h.equiv hf.1, ihl hf.2.1 ρ _, ihr hf.2.2 ρ _⟩
  · exact fun sign conj fs ih hf ρ n => ⟨h.bool hf.1, formulas ih hf.2 ρ n⟩
  · exact fun sign q vars f ih hf ρ n => ⟨h.quant hf.1, ih hf.2 _ _⟩
  · exact fun sign b comp g ss ihb ih hf ρ n => ⟨h.agg hf.1, ihb hf.2.1 ρ _, sets ih hf.2.2 ρ _⟩

theorem every_negate (h : ∀ f : Formula S P F D, p f → p f.negate) {f : Formula S P F D}
    (hf : f.every p) : f.negate.every p := by
  have hneg := h f (Formula.every_self hf)
  cases f <;> exact ⟨hneg, hf.2⟩

theorem Kindwise.unchained : Kindwise (Formula.unchained : Formula S P F D → Prop) where
  pred h := h
  eqChain h := h
  equiv h := h
  bool h := h
  quant h := h
  agg h := h

theorem Kindwise.basic : Kindwise (Formula.basic : Formula S P F D → Prop) where
  pred h := h
  eqChain h := h
  equiv h := h
  bool h := h
  quant h := h
  agg h := h

end Clone

section Passes

variable {V : SortedVocabulary S P F} {voc : Option (S → Bool)}

theorem splitComparisons_every (ts : List (Term S P F D)) (first : Bool) (comps : List CompType) (n : ℕ)
    (h : termsEvery Formula.unchained ts) :
    formulasEvery Formula.unchained (splitComparisons V voc first comps ts n).1 := by
  induction ts generalizing first comps n with
  | nil => cases comps <;> exact trivial
  | cons l ts ih =>
    cases comps with
    | nil => exact trivial
    | cons c cs =>
      cases ts with
      | nil => exact trivial
      | cons r ts =>
        refine ⟨⟨trivial, ?_, h.2.1, trivial⟩, ih _ _ _ h.2⟩
        cases first with
        | true => exact h.1
        | false => exact Kindwise.unchained.every_clone.1 l h.1 _ _

theorem splitComparisonChains_shapes :
    (splitComparisonChains V voc : FormulaVisitor S P F D).Shapes (fun _ => True) Formula.unchained where
  pred _ _ _ := trivial
  equiv _ _ hl hr := ⟨trivial, hl, hr⟩
  bool _ hfs := ⟨trivial, hfs⟩
  quant _ hf := ⟨trivial, hf⟩
  agg _ _ _ _ _ := trivial
  eqChain {sign conj comps ts} n _ hts := by
    have hsplit := @splitComparisons_every S P F D _ V voc ts true comps n hts
    simp only [splitComparisonChains]
    split
    · rename_i f hf
      rw [hf] at hsplit
      split_ifs
      · refine every_negate (fun f hf => ?_) hsplit.1
        cases f <;> exact hf
      · exact hsplit.1
    · exact ⟨trivial, hsplit⟩

theorem removeEquivalences_shapes :
    (removeEquivalences : FormulaVisitor S P F D).Shapes Formula.unchained Formula.basic where
  pred _ _ _ := trivial
  bool _ hfs := ⟨trivial, hfs⟩
  quant _ hf := ⟨trivial, hf⟩
  agg _ _ _ _ _ := trivial
  eqChain _ h _ := h.elim fun _ h => absurd h id
  equiv _ _ hl hr := by
    have hclone := Kindwise.basic (S := S) (P := P) (F := F) (D := D) |>.every_clone.2.2
    have hnegate : ∀ f : Formula S P F D, f.basic → f.negate.basic := fun f hf => by cases f <;> exact hf
    exact ⟨trivial,
      ⟨trivial, every_negate hnegate (hclone _ hl _ _), hclone _ hr _ _, trivial⟩,
      ⟨trivial, hclone _ hl _ _, every_negate hnegate (hclone _ hr _ _), trivial⟩, trivial⟩

theorem pushAtom_every (sign : SIGN) (symbol : PFSymbol S (Predicate Q) F)
    {args : List (Term S (Predicate Q) F D)} (h : termsEvery Formula.pushed args) :
    (pushAtom sign symbol args).every Formula.pushed := by
  unfold pushAtom
  split <;> exact ⟨trivial, h⟩

theorem pushNegations_every :
    (∀ t : Term S (Predicate Q) F D, t.every Formula.basic → t.pushNegations.every Formula.pushed) ∧
    (∀ s : QuantSetExpr S (Predicate Q) F D, s.every Formula.basic → s.pushNegations.every Formula.pushed) ∧
    ∀ f : Formula S (Predicate Q) F D, f.every Formula.basic →
      ∀ outer, (f.pushNegations outer).every Formula.pushed := by
  have terms : ∀ {ts : List (Term S (Predicate Q) F D)},
      (∀ t ∈ ts, t.every Formula.basic → t.pushNegations.every Formula.pushed) →
      termsEvery Formula.basic ts → termsEvery Formula.pushed (pushTerms ts) := by
    intro ts ih hts
    rw [pushTerms_eq_map]
    exact termsEvery_iff.mpr (List.forall_mem_map.mpr fun t ht => ih t ht (termsEvery_iff.mp hts t ht))
  have sets : ∀ {ss : List (QuantSetExpr S (Predicate Q) F D)},
      (∀ s ∈ ss, s.every Formula.basic → s.pushNegations.every Formula.pushed) →
      setsEvery Formula.basic ss → setsEvery Formula.pushed (pushSets ss) := by
    intro ss ih hss
    induction ss with
    | nil => exact trivial
    | cons s ss ihs =>
      obtain ⟨hs, hrest⟩ := List.forall_mem_cons.mp ih
      exact ⟨hs hss.1, ihs hrest hss.2⟩
  refine Formula.induct ?_ ?_ ?_ ?_ ?_ ?_ ?_ ?_ ?_ ?_ ?_
  · exact fun v _ => trivial
  · exact fun f args ih hargs => terms ih hargs
  · exact fun s d _ => trivial
  · exact fun g ss ih hss => sets ih hss
  · exact fun vars c t ihc iht hs => ⟨ihc hs.1 _, iht hs.2⟩
  · exact fun sign symbol args ih hf outer => pushAtom_every _ symbol (terms ih hf.2)
  · exact fun sign conj comps ts ih hf outer => absurd hf.1 id
  · exact fun sign l r ihl ihr hf outer => absurd hf.1 id
  · intro sign conj fs ih hf outer
    refine ⟨rfl, ?_⟩
    rw [pushFormulas_eq_map]
    exact formulasEvery_iff.mpr
      (List.forall_mem_map.mpr fun f hmem => ih f hmem (formulasEvery_iff.mp hf.2 f hmem) _)
  · exact fun sign q vars f ih hf outer => ⟨rfl, ih hf.2 _⟩
  · exact fun sign b comp g ss ihb ih hf outer => ⟨trivial, ihb hf.2.1, sets ih hf.2.2⟩

theorem spliced_normal (conj : Bool) {f : Formula S P F D} (h : f.every Formula.normal) :
    ∀ g ∈ Flatten.spliced conj f, g.every Formula.normal ∧ ∀ s gs, g ≠ .bool s conj gs := by
  have single : (∀ s gs, f ≠ .bool s conj gs) →
      ∀ g ∈ [f], g.every Formula.normal ∧ ∀ s gs, g ≠ .bool s conj gs := by
    intro hne g hg
    rw [List.mem_singleton.mp hg]
    exact ⟨h, hne⟩
  unfold Flatten.spliced
  split
  · rename_i conj' subs
    split_ifs with hconj
    · subst hconj
      exact fun g hg => ⟨formulasEvery_iff.mp h.2 g hg, fun s gs heq => h.1.2 s gs (heq ▸ hg)⟩
    · exact single fun s gs heq => hconj (Formula.bool.inj heq).2.1.symm
  · rename_i hnot
    refine single fun s gs heq => ?_
    subst heq
    exact hnot conj gs (congrArg (fun s => Formula.bool s conj gs) h.1.1)

theorem flattener_shapes : (flattener : FormulaVisitor S P F D).Shapes Formula.pushed Formula.normal where
  pred _ _ _ := trivial
  agg _ _ _ _ _ := trivial
  eqChain _ h _ := h.elim fun _ h => absurd h id
  equiv _ h _ _ := h.elim fun _ h => h.elim fun _ h => absurd h id
  bool {sign conj fs} h hfs := by
    have hspliced : ∀ g ∈ fs.flatMap (Flatten.spliced conj),
        g.every Formula.normal ∧ ∀ s gs, g ≠ .bool s conj gs := by
      intro g hg
      obtain ⟨f, hf, hg⟩ := List.mem_flatMap.mp hg
      exact spliced_normal conj (formulasEvery_iff.mp hfs f hf) g hg
    refine ⟨⟨h.elim fun _ h => h, fun s gs hmem => ?_⟩, formulasEvery_iff.mpr fun g hg => (hspliced g hg).1⟩
    exact (hspliced _ hmem).2 s gs rfl
  quant {sign k vars f} h hf := by
    have hsign : sign = .pos := h.elim fun _ h => h
    simp only [flattener]
    unfold Flatten.mergeQuant
    split
    · rename_i k' ws g
      split_ifs with hk
      · subst hk
        exact ⟨⟨hsign, hf.1.2⟩, hf.2⟩
      · exact ⟨⟨hsign, fun s us g' heq => hk (Formula.quant.inj heq).2.1.symm⟩, hf⟩
    · rename_i hnot
      refine ⟨⟨hsign, fun s ws g heq => ?_⟩, hf⟩
      subst heq
      exact hnot k ws g (congrArg (fun s => Formula.quant s k ws g) hf.1.1)

end Passes

section Pred

variable {V : FormulaVisitor S P F D} {I : Structure S P F D} {ok : PFSymbol S P F → List (Option D) → Prop}

theorem FormulaVisitor.Sound.execute_pred (h : V.Sound I ok) (sign : SIGN) (symbol : PFSymbol S P F)
    (args : List (Term S P F D)) : ∃ args', V.execute (.pred sign symbol args) = .pred sign symbol args' ∧
      ∀ e, I.values args' e = I.values args e ∧ (termsSafe I ok args' e ↔ termsSafe I ok args e) := by
  refine ⟨_, rfl, fun e => values_of_polar (congrFun (Kind.Keeps.meaning ?_) e)⟩
  refine (FormulaVisitor.keeps_list V.visitTerm V.visitTerms (fun _ => rfl) (fun _ _ _ => rfl)
    (fun t _ => h.keeps.1 t) _ ?_).2
  exact (binds_pred sign symbol).below (below_firstFree (.pred sign symbol args))

end Pred

section NormalForm

variable (V : SortedVocabulary S (Predicate Q) F) (voc : Option (S → Bool))

theorem every_true :
    (∀ t : Term S P F D, t.every fun _ => True) ∧ (∀ s : QuantSetExpr S P F D, s.every fun _ => True) ∧
    ∀ f : Formula S P F D, f.every fun _ => True := by
  refine Formula.induct ?_ ?_ ?_ ?_ ?_ ?_ ?_ ?_ ?_ ?_ ?_
  · exact fun v => trivial
  · exact fun f args ih => termsEvery_iff.mpr ih
  · exact fun s d => trivial
  · exact fun g ss ih => setsEvery_iff.mpr ih
  · exact fun vars c t ihc iht => ⟨ihc, iht⟩
  · exact fun sign symbol args ih => ⟨trivial, termsEvery_iff.mpr ih⟩
  · exact fun sign conj comps ts ih => ⟨trivial, termsEvery_iff.mpr ih⟩
  · exact fun sign l r ihl ihr => ⟨trivial, ihl, ihr⟩
  · exact fun sign conj fs ih => ⟨trivial, formulasEvery_iff.mpr ih⟩
  · exact fun sign q vars f ih => ⟨trivial, ih⟩
  · exact fun sign b comp g ss ihb ih => ⟨trivial, ihb, setsEvery_iff.mpr ih⟩

theorem normalForm_every (f : Formula S (Predicate Q) F D) : (normalForm V voc f).every Formula.normal := by
  have hsplit := (@splitComparisonChains_shapes S (Predicate Q) F D _ V voc).every.2.2 f (every_true.2.2 f)
    (firstFree f.vars)
  have hbasic := removeEquivalences_shapes.every.2.2 _ hsplit
    (firstFree ((splitComparisonChains V voc).execute f).vars)
  have hpushed := pushNegations_every.2.2 _ hbasic .pos
  rw [normalForm, flatten_eq.2.2]
  exact flattener_shapes.every.2.2 _ hpushed _

variable {I : DerivedStructure S Q F D}

theorem mayNegate_comparison (c : CompType) (sort : S) (values : List (Option D)) :
    I.interpretations.mayNegate (c.symbol sort : PFSymbol S (Predicate Q) F) values := by
  cases c <;> exact trivial

theorem normalForm_holds (f : Formula S (Predicate Q) F D) (e : Variable S → D)
    (h : f.safe I.toStructure I.interpretations.mayNegate .pos e) :
    I.holds (normalForm V voc f) e ↔ I.holds f e := by
  have hsound : (splitComparisonChains V voc).Sound I.toStructure I.interpretations.mayNegate :=
    splitComparisonChains_sound mayNegate_comparison
  have hsplit := hsound.execute f
  have hremove := hsplit.trans (removeEquivalences_sound.execute _)
  have hmeaning := congrFun hremove.meaning e
  have hholds := iff_of_eq (Prod.mk.inj hmeaning).1
  have hsafe := (iff_of_eq (congrFun (Prod.mk.inj hmeaning).2 .pos)).mpr h
  rw [normalForm, flatten_eq.2.2, ← hholds]
  have hflattener : flattener.Sound I.toStructure I.interpretations.mayNegate := flattener_sound
  have hflatten := hflattener.execute ((removeEquivalences.execute ((splitComparisonChains V voc).execute f)).pushNegations .pos)
  exact (iff_of_eq (Prod.mk.inj (congrFun hflatten.meaning e)).1).trans (pushNegations_holds.2.2 _ .pos e hsafe)

theorem normalForm_pred (sign : SIGN) (symbol : PFSymbol S (Predicate Q) F)
    (args : List (Term S (Predicate Q) F D)) (e : Variable S → D)
    (h : termsSafe I.toStructure I.interpretations.mayNegate args e) :
    (I.holds (normalForm V voc (.pred sign symbol args)) e ↔ I.holds (.pred sign symbol args) e) ↔
      (sign = .neg → I.interpretations.mayNegate symbol (I.values args e)) := by
  have hsound : (splitComparisonChains V voc).Sound I.toStructure I.interpretations.mayNegate :=
    splitComparisonChains_sound mayNegate_comparison
  have hequivalences : removeEquivalences.Sound I.toStructure I.interpretations.mayNegate := removeEquivalences_sound
  have hflattener : flattener.Sound I.toStructure I.interpretations.mayNegate := flattener_sound
  obtain ⟨split, hsplit, hsplitted⟩ := hsound.execute_pred sign symbol args
  obtain ⟨removed, hremove, hremoved⟩ := hequivalences.execute_pred sign symbol split
  have hvalues : I.values removed e = I.values args e := (hremoved e).1.trans (hsplitted e).1
  have hsafe := ((hremoved e).2.trans (hsplitted e).2).mpr h
  have hpush : I.values (pushTerms removed) e = I.values args e :=
    (values_push (fun t _ => pushNegations_holds.1 t) hsafe).trans hvalues
  have hflatten := hflattener.execute (pushAtom sign symbol (pushTerms removed))
  have hpushed : (Formula.pred sign symbol removed).pushNegations .pos =
      pushAtom sign symbol (pushTerms removed) := by
    cases sign <;> rfl
  have hholds : I.holds (.pred sign symbol (pushTerms removed)) e ↔ I.holds (.pred sign symbol args) e := by
    rw [holds, holds, hpush]
  rw [normalForm, hsplit, hremove, hpushed, flatten_eq.2.2, ← hholds, ← hpush, ← holds_pushAtom_iff I]
  exact iff_congr (iff_of_eq (Prod.mk.inj (congrFun hflatten.meaning e)).1) Iff.rfl

theorem normalForm_normal_and_holds (f : Formula S (Predicate Q) F D) :
    (normalForm V voc f).every Formula.normal ∧
      (∀ (I : DerivedStructure S Q F D) e, f.safe I.toStructure I.interpretations.mayNegate .pos e →
        (I.holds (normalForm V voc f) e ↔ I.holds f e)) ∧
      ∀ (I : DerivedStructure S Q F D) e sign symbol args, f = .pred sign symbol args →
        termsSafe I.toStructure I.interpretations.mayNegate args e →
          ((I.holds (normalForm V voc f) e ↔ I.holds f e) ↔
            (sign = .neg → I.interpretations.mayNegate symbol (I.values args e))) :=
  ⟨normalForm_every V voc f, fun _ e h => normalForm_holds V voc f e h,
    fun _ e sign symbol args hf h => hf ▸ normalForm_pred V voc sign symbol args e h⟩

-- the negation of what is certainly false of a symbol
theorem normalForm_negates_certainlyFalse : ¬ ∀ (V : SortedVocabulary Unit (Predicate Unit) Unit)
    (voc : Option (Unit → Bool)) (f : Formula Unit (Predicate Unit) Unit Unit),
    (normalForm V voc f).every Formula.normal ∧
      ∀ (I : DerivedStructure Unit Unit Unit Unit) e, (∀ g ds, (I.function g ds).isSome) →
        (I.holds (normalForm V voc f) e ↔ I.holds f e) := by
  intro h
  let V : SortedVocabulary Unit (Predicate Unit) Unit :=
    ⟨fun _ => [], fun _ => 0, fun _ _ hp => absurd hp List.not_mem_nil, fun _ => (), fun _ => (),
      fun _ _ => (), fun _ => none⟩
  let J : Interpretations Unit Unit :=
    ⟨fun _ _ => True, fun _ _ => False, fun _ _ => False, fun _ _ => True, fun _ _ _ => trivial,
      fun _ _ _ => trivial⟩
  let I : DerivedStructure Unit Unit Unit Unit :=
    { sort := fun _ _ => True
      isEmpty := fun _ => false
      isEmpty_iff := fun _ => iff_of_false Bool.false_ne_true fun h => h () trivial
      less := fun _ _ => False
      predicate := J.predicate
      function := fun _ _ => some ()
      aggregate := fun _ _ => none
      interpretations := J
      predicate_eq := rfl }
  have hatom := (normalForm_pred V none (I := I) .neg (.predicate (.derived (.symbol ()) .cf)) [] (fun _ => ())
    trivial).mp ((h V none (.pred .neg (.predicate (.derived (.symbol ()) .cf)) [])).2 I (fun _ => ())
      fun _ _ => rfl)
  exact (hatom rfl).1.elim (fun h => SymbolType.noConfusion h) fun h => SymbolType.noConfusion h

end NormalForm

end Theory
