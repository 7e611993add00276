import DeclarativeLocalSearch.Theory.NormalForm

set_option linter.unusedSectionVars false

namespace Theory

open Quantified Structure

variable {S P F D : Type} [DecidableEq S] {I : Structure S P F D}
  {ok : PFSymbol S P F → List (Option D) → Prop}

section Vars

theorem boundVars_subset :
    (∀ (t : Term S P F D), ∀ v ∈ t.boundVars, v ∈ t.vars) ∧
    (∀ (s : QuantSetExpr S P F D), ∀ v ∈ s.boundVars, v ∈ s.vars) ∧
    ∀ (f : Formula S P F D), ∀ v ∈ f.boundVars, v ∈ f.vars := by
  have terms : ∀ {ts : List (Term S P F D)}, (∀ t ∈ ts, ∀ v ∈ t.boundVars, v ∈ t.vars) →
      ∀ v ∈ termsBoundVars ts, v ∈ termsVars ts := by
    intro ts h v hv
    induction ts with
    | nil => exact hv
    | cons t ts ih =>
      obtain ⟨ht, hts⟩ := List.forall_mem_cons.mp h
      exact List.mem_append.mpr ((List.mem_append.mp hv).imp (ht v) (ih hts))
  have sets : ∀ {ss : List (QuantSetExpr S P F D)}, (∀ s ∈ ss, ∀ v ∈ s.boundVars, v ∈ s.vars) →
      ∀ v ∈ setsBoundVars ss, v ∈ setsVars ss := by
    intro ss h v hv
    induction ss with
    | nil => exact hv
    | cons s ss ih =>
      obtain ⟨hs, hss⟩ := List.forall_mem_cons.mp h
      exact List.mem_append.mpr ((List.mem_append.mp hv).imp (hs v) (ih hss))
  have formulas : ∀ {fs : List (Formula S P F D)}, (∀ f ∈ fs, ∀ v ∈ f.boundVars, v ∈ f.vars) →
      ∀ v ∈ formulasBoundVars fs, v ∈ formulasVars fs := by
    intro fs h v hv
    induction fs with
    | nil => exact hv
    | cons f fs ih =>
      obtain ⟨hf, hfs⟩ := List.forall_mem_cons.mp h
      exact List.mem_append.mpr ((List.mem_append.mp hv).imp (hf v) (ih hfs))
  refine Formula.induct ?_ ?_ ?_ ?_ ?_ ?_ ?_ ?_ ?_ ?_ ?_
  · exact fun _ _ h => absurd h List.not_mem_nil
  · exact fun _ _ ih => terms ih
  · exact fun _ _ _ h => h
  · exact fun _ _ ih => sets ih
  · intro vars c t ihc iht v hv
    rw [QuantSetExpr.vars, List.append_assoc]
    refine List.mem_append.mpr ((List.mem_append.mp hv).imp_right fun hv => ?_)
    exact List.mem_append.mpr ((List.mem_append.mp hv).imp (ihc v) (iht v))
  · exact fun _ _ _ ih => terms ih
  · exact fun _ _ _ _ ih => terms ih
  · exact fun _ _ _ ihl ihr v hv => List.mem_append.mpr ((List.mem_append.mp hv).imp (ihl v) (ihr v))
  · exact fun _ _ _ ih => formulas ih
  · exact fun _ _ _ _ ih v hv => List.mem_append.mpr ((List.mem_append.mp hv).imp_right (ih v))
  · exact fun _ _ _ _ _ ihb ih v hv =>
      List.mem_append.mpr ((List.mem_append.mp hv).imp (ihb v) (sets ih v))

theorem below_firstFree (f : Formula S P F D) : (Formula.polar I ok).Below (firstFree f.vars) f :=
  ⟨fun v hv => lt_firstFree (freeVars_subset.2.2 f v hv),
    fun v hv => lt_firstFree (boundVars_subset.2.2 f v hv)⟩

theorem FormulaVisitor.Sound.execute {V : FormulaVisitor S P F D} (h : V.Sound I ok)
    (f : Formula S P F D) : (Formula.polar I ok).Keeps f (V.execute f) :=
  (h.keeps.2.2 f _ (below_firstFree f)).2

end Vars

section Negate

theorem SIGN.apply_negate (sign : SIGN) (p : Prop) : sign.negate.apply p ↔ ¬ sign.apply p := by
  cases sign <;> simp [negate, apply]

theorem SIGN.under_negate (outer sign : SIGN) : outer.under sign.negate = outer.negate.under sign := by
  cases outer <;> cases sign <;> rfl

theorem holds_negate (f : Formula S P F D) (e : Variable S → D) : I.holds f.negate e ↔ ¬ I.holds f e := by
  cases f with
  | pred sign symbol args => rw [Formula.negate, holds, holds, SIGN.apply_negate]
  | eqChain sign conj comps terms => rw [Formula.negate, holds, holds, SIGN.apply_negate]
  | equiv sign l r => rw [Formula.negate, holds, holds, SIGN.apply_negate]
  | bool sign conj subs => rw [Formula.negate, holds_bool_iff, holds_bool_iff, SIGN.apply_negate]
  | quant sign q vars f =>
    cases q with
    | univ => rw [Formula.negate, holds, holds, SIGN.apply_negate]
    | exist => rw [Formula.negate, holds, holds, SIGN.apply_negate]
  | agg sign bound comp g sets => rw [Formula.negate, holds, holds, SIGN.apply_negate]

theorem safe_negate (f : Formula S P F D) (outer : SIGN) (e : Variable S → D) :
    f.negate.safe I ok outer e ↔ f.safe I ok outer.negate e := by
  cases f with
  | pred sign symbol args => rw [Formula.negate, Formula.safe, Formula.safe, SIGN.under_negate]
  | eqChain sign conj comps terms => rw [Formula.negate, Formula.safe, Formula.safe]
  | equiv sign l r => rw [Formula.negate, Formula.safe, Formula.safe]
  | bool sign conj subs => rw [Formula.negate, Formula.safe, Formula.safe, SIGN.under_negate]
  | quant sign q vars f => rw [Formula.negate, Formula.safe, Formula.safe, SIGN.under_negate]
  | agg sign bound comp g sets => rw [Formula.negate, Formula.safe, Formula.safe]

theorem freeVars_negate (f : Formula S P F D) : f.negate.freeVars = f.freeVars := by
  cases f <;> rfl

end Negate

section Flatten

theorem flatten_eq :
    (∀ (t : Term S P F D) n, Flatten.visitor.visitTerm t n = flattener.visitTerm t n) ∧
    (∀ (s : QuantSetExpr S P F D) n, Flatten.visitor.visitSet s n = flattener.visitSet s n) ∧
    ∀ (f : Formula S P F D) n, flatten f n = flattener.visit f n := by
  have terms : ∀ {ts : List (Term S P F D)},
      (∀ t ∈ ts, ∀ n, Flatten.visitor.visitTerm t n = flattener.visitTerm t n) →
      ∀ n, Flatten.visitor.visitTerms ts n = flattener.visitTerms ts n := by
    intro ts h
    induction ts with
    | nil => exact fun n => rfl
    | cons t ts ih =>
      obtain ⟨ht, hts⟩ := List.forall_mem_cons.mp h
      intro n
      rw [TheoryMutatingVisitor.visitTerms, FormulaVisitor.visitTerms, ht, ih hts]
  have sets : ∀ {ss : List (QuantSetExpr S P F D)},
      (∀ s ∈ ss, ∀ n, Flatten.visitor.visitSet s n = flattener.visitSet s n) →
      ∀ n, Flatten.visitor.visitSets ss n = flattener.visitSets ss n := by
    intro ss h
    induction ss with
    | nil => exact fun n => rfl
    | cons s ss ih =>
      obtain ⟨hs, hss⟩ := List.forall_mem_cons.mp h
      intro n
      rw [TheoryMutatingVisitor.visitSets, FormulaVisitor.visitSets, hs, ih hss]
  have formulas : ∀ {fs : List (Formula S P F D)}, (∀ f ∈ fs, ∀ n, flatten f n = flattener.visit f n) →
      ∀ n, Flatten.visitor.visitAll fs n = flattener.visitAll fs n := by
    intro fs h
    induction fs with
    | nil => exact fun n => rfl
    | cons f fs ih =>
      obtain ⟨hf, hfs⟩ := List.forall_mem_cons.mp h
      intro n
      rw [TheoryMutatingVisitor.visitAll, FormulaVisitor.visitAll, ← flatten, hf, ih hfs]
  refine Formula.induct ?_ ?_ ?_ ?_ ?_ ?_ ?_ ?_ ?_ ?_ ?_
  · exact fun v n => rfl
  · intro f args ih n
    rw [TheoryMutatingVisitor.visitTerm, FormulaVisitor.visitTerm, terms ih]
  · exact fun s d n => rfl
  · intro g ss ih n
    rw [TheoryMutatingVisitor.visitTerm, FormulaVisitor.visitTerm, sets ih]
  · intro vars c t ihc iht n
    rw [TheoryMutatingVisitor.visitSet, FormulaVisitor.visitSet, iht, ← flatten, ihc]
  · intro sign symbol args ih n
    rw [flatten, TheoryMutatingVisitor.visit, FormulaVisitor.visit, terms ih]
  · intro sign conj comps ts ih n
    rw [flatten, TheoryMutatingVisitor.visit, FormulaVisitor.visit, terms ih]
    rfl
  · intro sign l r ihl ihr n
    rw [flatten, TheoryMutatingVisitor.visit, FormulaVisitor.visit, ← flatten, ← flatten, ihl, ihr]
    rfl
  · intro sign conj fs ih n
    rw [flatten, TheoryMutatingVisitor.visit, FormulaVisitor.visit, formulas ih]
    rfl
  · intro sign q vars f ih n
    rw [flatten, TheoryMutatingVisitor.visit, FormulaVisitor.visit, ← flatten, ih]
    rfl
  · intro sign b comp g ss ihb ih n
    rw [flatten, TheoryMutatingVisitor.visit, FormulaVisitor.visit, ihb, sets ih]

theorem spliced_keeps (conj : Bool) (f : Formula S P F D) :
    (∀ g ∈ Flatten.spliced conj f, ∀ v ∈ g.freeVars, v ∈ f.freeVars) ∧
    (∀ e, eachOf conj (Flatten.spliced conj f) (fun g => I.holds g e) ↔ I.holds f e) ∧
    ∀ outer e, (∀ g ∈ Flatten.spliced conj f, g.safe I ok outer e) ↔ f.safe I ok outer e := by
  have single : (∀ g ∈ [f], ∀ v ∈ g.freeVars, v ∈ f.freeVars) ∧
      (∀ e, eachOf conj [f] (fun g => I.holds g e) ↔ I.holds f e) ∧
      ∀ outer e, (∀ g ∈ [f], g.safe I ok outer e) ↔ f.safe I ok outer e :=
    ⟨fun g hg v hv => List.mem_singleton.mp hg ▸ hv, fun e => eachOf_singleton,
      fun outer e => List.forall_mem_singleton⟩
  unfold Flatten.spliced
  split
  · rename_i c subs
    split_ifs with hc
    · subst hc
      refine ⟨fun g hg v hv => mem_formulasFreeVars.mpr ⟨g, hg, hv⟩, fun e => ?_, fun outer e => ?_⟩
      · exact (holds_bool_iff .pos conj subs e).symm
      · rw [Formula.safe, formulasSafe_iff]
        cases outer <;> exact Iff.rfl
    · exact single
  · exact single

theorem mergeQuant_keeps (sign : SIGN) (q : QUANT) (vars : List (Variable S)) (f : Formula S P F D) :
    (Formula.polar I ok).Keeps (.quant sign q vars f) (Flatten.mergeQuant sign q vars f) := by
  unfold Flatten.mergeQuant
  split
  · rename_i k ws g
    split_ifs with hk
    · subst hk
      have hz : ∀ v, v ∈ vars ∪ ws ↔ v ∈ vars ∨ v ∈ ws := fun v => List.mem_union_iff
      refine ⟨fun v hv => ?_, funext fun e => polar_ext ?_ fun outer => ?_⟩
      · simp only [Formula.polar, Formula.freeVars, List.mem_filter, decide_eq_true_eq, hz, not_or] at hv ⊢
        exact ⟨⟨hv.1, hv.2.2⟩, hv.2.1⟩
      · cases q with
        | univ =>
          simp only [holds, SIGN.apply]
          exact iff_of_eq (congrArg sign.apply
            (propext (each_merge true hz fun e => I.holds g e).symm))
        | exist =>
          simp only [holds, SIGN.apply]
          exact iff_of_eq (congrArg sign.apply
            (propext (each_merge false hz fun e => I.holds g e).symm))
      · simp only [Formula.safe]
        have hunder : (outer.under sign).under .pos = outer.under sign := by
          cases outer.under sign <;> rfl
        rw [hunder]
        exact (each_merge true hz fun e => g.safe I ok (outer.under sign) e).symm
    · exact Kind.Keeps.refl _
  · exact Kind.Keeps.refl _

theorem flattener_sound : (flattener : FormulaVisitor S P F D).Sound I ok where
  eqChain _ _ _ _ _ _ := ⟨Nat.le_refl _, Kind.Keeps.refl _⟩
  equiv _ _ _ _ _ := ⟨Nat.le_refl _, Kind.Keeps.refl _⟩
  bool sign conj fs := by
    have hspliced := fun f => @spliced_keeps S P F D _ I ok conj f
    refine ⟨fun v hv => ?_, funext fun e => polar_ext ?_ fun outer => ?_⟩
    · obtain ⟨g, hg, hv⟩ := mem_formulasFreeVars.mp hv
      obtain ⟨f, hf, hg⟩ := List.mem_flatMap.mp hg
      exact mem_formulasFreeVars.mpr ⟨f, hf, (hspliced f).1 g hg v hv⟩
    · rw [flattener, holds_bool_iff, holds_bool_iff, eachOf_flatMap]
      exact iff_of_eq (congrArg sign.apply (propext (eachOf_congr fun f _ => (hspliced f).2.1 e)))
    · rw [flattener, Formula.safe, Formula.safe, formulasSafe_iff, formulasSafe_iff, List.forall_mem_flatMap]
      exact forall₂_congr fun f _ => (hspliced f).2.2 _ e
  quant := mergeQuant_keeps

end Flatten

section RemoveEquivalences

variable {ρ : Variable S → Variable S} {n : ℕ}

theorem clone_keeps (f : Formula S P F D) (h : ∀ v ∈ f.freeVars, v.id < n) :
    n ≤ (f.clone id n).2 ∧ (Formula.polar I ok).Keeps f (f.clone id n).1 := by
  have hc := (@clones S P F D _ I ok).2.2 f id n
  refine ⟨hc.le, fun v hv => ?_, funext fun e => hc.meaning h e⟩
  obtain ⟨w, hw, rfl⟩ := hc.free v hv
  exact hw

theorem cloneTerm_keeps (t : Term S P F D) (h : ∀ v ∈ t.freeVars, v.id < n) :
    n ≤ (t.clone id n).2 ∧ (Term.polar I ok).Keeps t (t.clone id n).1 := by
  have hc := (@clones S P F D _ I ok).1 t id n
  refine ⟨hc.le, fun v hv => ?_, funext fun e => hc.meaning h e⟩
  obtain ⟨w, hw, rfl⟩ := hc.free v hv
  exact hw

theorem removeEquivalences_sound : (removeEquivalences : FormulaVisitor S P F D).Sound I ok where
  eqChain _ _ _ _ _ _ := ⟨Nat.le_refl _, Kind.Keeps.refl _⟩
  bool _ _ _ := Kind.Keeps.refl _
  quant _ _ _ _ := Kind.Keeps.refl _
  equiv sign l r n h := by
    have hl : ∀ {m}, n ≤ m → ∀ v ∈ l.freeVars, v.id < m := fun hm v hv =>
      Nat.lt_of_lt_of_le (h v (List.mem_append_left _ hv)) hm
    have hr : ∀ {m}, n ≤ m → ∀ v ∈ r.freeVars, v.id < m := fun hm v hv =>
      Nat.lt_of_lt_of_le (h v (List.mem_append_right _ hv)) hm
    obtain ⟨hle₁, h₁⟩ := @clone_keeps S P F D _ I ok _ l (hl (Nat.le_refl n))
    obtain ⟨hle₂, h₂⟩ := @clone_keeps S P F D _ I ok _ r (hr hle₁)
    have hle₂ := Nat.le_trans hle₁ hle₂
    obtain ⟨hle₃, h₃⟩ := @clone_keeps S P F D _ I ok _ r (hr hle₂)
    have hle₃ := Nat.le_trans hle₂ hle₃
    obtain ⟨hle₄, h₄⟩ := @clone_keeps S P F D _ I ok _ l (hl hle₃)
    have meaning : ∀ {f g : Formula S P F D}, (Formula.polar I ok).Keeps f g → ∀ e,
        (I.holds g e ↔ I.holds f e) ∧ ∀ outer, (g.safe I ok outer e ↔ f.safe I ok outer e) :=
      fun hfg e => polar_holds (congrFun hfg.meaning e)
    refine ⟨Nat.le_trans hle₃ hle₄, fun v hv => ?_, funext fun e => polar_ext ?_ fun outer => ?_⟩
    · simp only [removeEquivalences, Formula.polar, Formula.freeVars, formulasFreeVars, freeVars_negate,
        List.append_nil, List.mem_append] at hv ⊢
      rcases hv with (hv | hv) | hv | hv
      · exact Or.inl (h₁.free v hv)
      · exact Or.inr (h₂.free v hv)
      · exact Or.inl (h₄.free v hv)
      · exact Or.inr (h₃.free v hv)
    · simp only [removeEquivalences, holds, allHold, someHolds, holds_negate, (meaning h₁ e).1,
        (meaning h₂ e).1, (meaning h₃ e).1, (meaning h₄ e).1, SIGN.apply, or_false, and_true]
      exact iff_of_eq (congrArg sign.apply (propext (by tauto)))
    · have hneg : ∀ sign : SIGN, sign.negate.negate = sign := fun sign => by cases sign <;> rfl
      simp only [removeEquivalences, Formula.safe, formulasSafe, safe_negate, (meaning h₁ e).2,
        (meaning h₂ e).2, (meaning h₃ e).2, (meaning h₄ e).2, and_true]
      cases outer.under sign <;> simp only [SIGN.under, SIGN.negate] <;> tauto

end RemoveEquivalences

end Theory
