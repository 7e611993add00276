import DeclarativeLocalSearch.Theory.CardConstrToFOHolds
import DeclarativeLocalSearch.Theory.NormalFormShape

namespace Theory

open Quantified Structure Counting CardStructure

variable {S P F D : Type} [DecidableEq S]

namespace CardConstrToFO

section Unchained

theorem list_congr {α : Type} {every : α → Prop} {g g' : α → ℕ → α × ℕ} (gs gs' : List α → ℕ → List α × ℕ)
    (hnil : ∀ n, gs [] n = gs' [] n) (hcons : ∀ x l n, gs (x :: l) n = ((g x n).1 :: (gs l (g x n).2).1,
      (gs l (g x n).2).2)) (hcons' : ∀ x l n, gs' (x :: l) n = ((g' x n).1 :: (gs' l (g' x n).2).1,
      (gs' l (g' x n).2).2)) {l : List α} (ih : ∀ x ∈ l, every x → ∀ n, g x n = g' x n) (hl : ∀ x ∈ l, every x) :
    ∀ n, gs l n = gs' l n := by
  induction l with
  | nil => exact hnil
  | cons x l ihl =>
    intro n
    obtain ⟨hx, hrest⟩ := List.forall_mem_cons.mp ih
    obtain ⟨hevery, hl⟩ := List.forall_mem_cons.mp hl
    rw [hcons, hcons', hx hevery, ihl hrest hl]

section Congr

omit [DecidableEq S]

variable {W W' : OverridingVisitor S P F D}

theorem visitTerms_congr {ts : List (Term S P F D)}
    (ih : ∀ t ∈ ts, t.every Formula.unchained → ∀ n, W.visitTerm t n = W'.visitTerm t n)
    (hts : termsEvery Formula.unchained ts) : ∀ n, W.visitTerms ts n = W'.visitTerms ts n :=
  list_congr W.visitTerms W'.visitTerms (fun _ => rfl) (fun _ _ _ => rfl) (fun _ _ _ => rfl) ih (termsEvery_iff.mp hts)

theorem visitSets_congr {ss : List (QuantSetExpr S P F D)}
    (ih : ∀ s ∈ ss, s.every Formula.unchained → ∀ n, W.visitSet s n = W'.visitSet s n)
    (hss : setsEvery Formula.unchained ss) : ∀ n, W.visitSets ss n = W'.visitSets ss n :=
  list_congr W.visitSets W'.visitSets (fun _ => rfl) (fun _ _ _ => rfl) (fun _ _ _ => rfl) ih (setsEvery_iff.mp hss)

theorem visitAll_congr {fs : List (Formula S P F D)}
    (ih : ∀ f ∈ fs, f.every Formula.unchained → ∀ n, W.visit f n = W'.visit f n)
    (hfs : formulasEvery Formula.unchained fs) : ∀ n, W.visitAll fs n = W'.visitAll fs n :=
  list_congr W.visitAll W'.visitAll (fun _ => rfl) (fun _ _ _ => rfl) (fun _ _ _ => rfl) ih (formulasEvery_iff.mp hfs)

end Congr

variable (V : SortedVocabulary S P F) (M : MachineIntegers D) (maxVarsToIntroduce : ℤ)

-- the formula that a chain is split into has no chains left to split
theorem visit_unchained :
    let W : OverridingVisitor S P F D := visitor V M maxVarsToIntroduce
    let W' : OverridingVisitor S P F D := unchainedVisitor V M maxVarsToIntroduce
    (∀ t : Term S P F D, t.every Formula.unchained → ∀ n, W.visitTerm t n = W'.visitTerm t n) ∧
    (∀ s : QuantSetExpr S P F D, s.every Formula.unchained → ∀ n, W.visitSet s n = W'.visitSet s n) ∧
    ∀ f : Formula S P F D, f.every Formula.unchained → ∀ n, W.visit f n = W'.visit f n := by
  refine Formula.induct ?_ ?_ ?_ ?_ ?_ ?_ ?_ ?_ ?_ ?_ ?_
  · exact fun v _ n => rfl
  · intro f args ih h n
    rw [OverridingVisitor.visitTerm, OverridingVisitor.visitTerm, visitTerms_congr ih h]
  · exact fun s d _ n => rfl
  · intro g ss ih h n
    rw [OverridingVisitor.visitTerm, OverridingVisitor.visitTerm, visitSets_congr ih h]
  · intro vars c t ihc iht h n
    rw [OverridingVisitor.visitSet, OverridingVisitor.visitSet, iht h.2, ihc h.1]
  · intro sign symbol args ih h n
    rw [OverridingVisitor.visit, OverridingVisitor.visit, visitTerms_congr ih h.2]
    rfl
  · exact fun sign conj comps ts ih h n => absurd h.1 id
  · intro sign l r ihl ihr h n
    simp only [OverridingVisitor.visit, ihl h.2.1, ihr h.2.2]
    rfl
  · intro sign conj fs ih h n
    rw [OverridingVisitor.visit, OverridingVisitor.visit, visitAll_congr ih h.2]
    rfl
  · intro sign q vars f ih h n
    rw [OverridingVisitor.visit, OverridingVisitor.visit, ih h.2]
    rfl
  · intro sign b comp g ss ihb ih h n
    simp only [OverridingVisitor.visit, ihb h.2.1, visitSets_congr ih h.2.2]
    rfl

end Unchained

section Theory

variable (V : SortedVocabulary S P F) (maxVarsToIntroduce : ℤ) (I : CardStructure S P F D)

structure RuleMeets (M : MachineIntegers D) (r : Rule S P F D) : Prop where
  args : (visitor V M maxVarsToIntroduce).visitedTerms (ChainMeets V M maxVarsToIntroduce) r.args
  body : VisitedMeets V M maxVarsToIntroduce r.body

structure TheoryMeets (M : MachineIntegers D) (T : Theory S P F D) : Prop where
  sentences : ∀ f ∈ T.sentences, VisitedMeets V M maxVarsToIntroduce f
  definitions : ∀ d ∈ T.definitions, ∀ r ∈ d, RuleMeets V maxVarsToIntroduce M r
  fixpdefs : ∀ r ∈ allOf T.fixpdefs, RuleMeets V maxVarsToIntroduce M r

theorem below_of_vars {I : Structure S P F D} {f : Formula S P F D} {n : ℕ} (h : ∀ v ∈ f.vars, v.id < n) :
    (Formula.polar I anySymbol).Below n f :=
  ⟨fun v hv => h v (freeVars_subset.2.2 f v hv), fun v hv => h v (boundVars_subset.2.2 f v hv)⟩

theorem args_below {I : Structure S P F D} {args : List (Term S P F D)} {n : ℕ}
    (h : ∀ v ∈ termsVars args, v.id < n) : (Term.polar I anySymbol).list.Below n args :=
  (binds_eqChain .pos true []).below (below_of_vars (f := .eqChain .pos true [] args) h)

variable {V maxVarsToIntroduce I}

theorem visit_keeps : Keeps
    (fun n f => VisitedMeets V I.machine maxVarsToIntroduce f ∧ ∀ v ∈ f.vars, v.id < n) Formula.freeVars
    I.holds (visitor V I.machine maxVarsToIntroduce).visit where
  mono h hn := ⟨h.1, fun v hv => Nat.lt_of_lt_of_le (h.2 v hv) hn⟩
  le h := (visitor_sound.keeps.2.2 _ h.1 _ (below_of_vars h.2)).1
  free h := (visitor_sound.keeps.2.2 _ h.1 _ (below_of_vars h.2)).2.free
  meaning h := funext fun e =>
    (Prod.mk.inj (congrFun (visitor_sound.keeps.2.2 _ h.1 _ (below_of_vars h.2)).2.meaning e)).1

theorem visitArgs_keeps {args : List (Term S P F D)} {n : ℕ}
    (h : (visitor V I.machine maxVarsToIntroduce).visitedTerms (ChainMeets V I.machine maxVarsToIntroduce) args)
    (hvars : ∀ v ∈ termsVars args, v.id < n) :
    n ≤ ((visitor V I.machine maxVarsToIntroduce).visitTerms args n).2 ∧
      (Term.polar I.toStructure anySymbol).list.Keeps args
        ((visitor V I.machine maxVarsToIntroduce).visitTerms args n).1 :=
  FormulaVisitor.keeps_list _ (visitor V I.machine maxVarsToIntroduce).visitTerms (fun _ => rfl)
    (fun _ _ _ => rfl)
    (fun t ht => visitor_sound.keeps.1 t (OverridingVisitor.visitedTerms_iff.mp h t ht)) n (args_below hvars)

theorem visitRule_keeps : Keeps
    (fun n r => RuleMeets V maxVarsToIntroduce I.machine r ∧ ∀ v ∈ r.vars, v.id < n) Rule.freeVars
    (Rule.operator I.toStructure) (visitRule V I.machine maxVarsToIntroduce) where
  mono h hn := ⟨h.1, fun v hv => Nat.lt_of_lt_of_le (h.2 v hv) hn⟩
  le {r n} h := by
    have hargs := visitArgs_keeps h.1.args (n := n) fun v hv => h.2 v (List.mem_append_left _ hv)
    exact Nat.le_trans hargs.1 (visit_keeps.le ⟨h.1.body, fun v hv =>
      Nat.lt_of_lt_of_le (h.2 v (List.mem_append_right _ hv)) hargs.1⟩)
  free {r n} h := by
    have hargs := visitArgs_keeps h.1.args (n := n) fun v hv => h.2 v (List.mem_append_left _ hv)
    have hbody := (visit_keeps (I := I)).free ⟨h.1.body, fun v hv =>
      Nat.lt_of_lt_of_le (h.2 v (List.mem_append_right _ hv)) hargs.1⟩
    intro v hv
    simp only [Rule.freeVars, visitRule, List.mem_filter, List.mem_append] at hv ⊢
    refine ⟨hv.1.imp (fun hv => ?_) (hbody v), hv.2⟩
    rw [termsFreeVars_eq_flatMap] at hv ⊢
    exact hargs.2.free v hv
  meaning {r n} h := by
    funext e
    refine Prod.ext rfl (funext fun p => funext fun f => funext fun ds => propext ?_)
    have hargs := visitArgs_keeps (I := I.reinterpret p f) h.1.args (n := n)
      fun v hv => h.2 v (List.mem_append_left _ hv)
    have hbody := (visit_keeps (I := I.reinterpret p f)).meaning ⟨h.1.body, fun v hv =>
      Nat.lt_of_lt_of_le (h.2 v (List.mem_append_right _ hv)) hargs.1⟩
    have hvalues := fun e => (values_of_polar (congrFun hargs.2.meaning e)).1
    exact exists_congr fun a => and_congr (iff_of_eq (congrArg (· = ds.map some) (hvalues _)))
      (iff_of_eq (congrFun hbody _))

theorem replaceCardinalities_keeps (T : Theory S P F D)
    (h : TheoryMeets V maxVarsToIntroduce I.machine T) :
    T.Keeps I.toStructure (replaceCardinalitiesWithFOFormulas V I.machine T maxVarsToIntroduce) := by
  refine visitTheory_keeps visit_keeps visitRule_keeps (fun f hf => ⟨h.sentences f hf, fun v hv => ?_⟩)
    (fun d hd r hr => ⟨h.definitions d hd r hr, fun v hv => ?_⟩)
    fun r hr => ⟨h.fixpdefs r hr, fun v hv => ?_⟩
  · exact lt_firstFree (List.mem_append_left _ (List.mem_append_left _ (List.mem_flatMap_of_mem hf hv)))
  · exact lt_firstFree (List.mem_append_left _ (List.mem_append_right _
      (List.mem_flatMap_of_mem (List.mem_flatten_of_mem hd hr) hv)))
  · exact lt_firstFree (List.mem_append_right _ (List.mem_flatMap_of_mem hr hv))

end Theory

section Exactly

variable {V : SortedVocabulary S P F} {maxVarsToIntroduce : ℤ} {I : CardStructure S P F D} {sign : SIGN}
  {symbol : PFSymbol S P F} {args : List (Term S P F D)} {bound : Term S P F D} {comp : CompType}
  {g : AggFunction} {sets : List (QuantSetExpr S P F D)} {k : ℤ} {s : QuantSetExpr S P F D} {n : ℕ}

theorem aggForm_agg (h : aggForm I.machine sign symbol args = .agg sign bound comp g sets) :
    (∀ v, v ∈ (Formula.agg sign bound comp g sets).freeVars ↔ v ∈ termsFreeVars args) ∧
      ∀ e, I.holds (.pred sign symbol args) e ↔
        I.compare comp (I.value bound e) (I.value (.agg g sets) e) := by
  rcases aggForm_cases I.machine sign symbol args with
    ⟨-, hpred⟩ | ⟨-, bound', comp', g', sets', hagg, hfree, hholds⟩
  · exact absurd (hpred.symm.trans h) nofun
  · obtain ⟨-, rfl, rfl, rfl, rfl⟩ := Formula.agg.inj (hagg.symm.trans h)
    exact ⟨hfree, hholds I.toStructure⟩

theorem visit_pred_iff (h : aggForm I.machine sign symbol args = .agg sign bound comp g sets)
    (hconverted : converted V I.machine maxVarsToIntroduce bound g sets = some (k, s))
    (hbelow : ∀ v ∈ termsFreeVars args, v.id < n) (hint : NoOverflow comp k) (e : Variable S → D) :
    (I.holds ((visitor V I.machine maxVarsToIntroduce).visit (.pred sign symbol args) n).1 e ↔
        I.holds (.pred sign symbol args) e) ↔
      (Rightly comp k (count I.toStructure s e) ↔ (signed comp = true → sign = .pos)) := by
  obtain ⟨hfree, hholds⟩ := aggForm_agg h
  have hvisit : (visitor V I.machine maxVarsToIntroduce).visit (.pred sign symbol args) n =
      solve I.machine sign comp k s n := by
    simp only [OverridingVisitor.visit, visitor, stops, convert, h, hconverted, Option.isSome_some, if_true]
  rw [hvisit]
  exact (convert_pred_keeps hconverted hfree hholds hbelow hint).2 e

theorem visit_pred_agg_iff (h : aggForm I.machine sign symbol args = .agg sign bound comp g sets)
    (hconverted : converted V I.machine maxVarsToIntroduce bound g sets = none)
    (hargs : (visitor V I.machine maxVarsToIntroduce).visitedTerms
      (ChainMeets V I.machine maxVarsToIntroduce) args)
    (hvars : ∀ v ∈ termsVars args, v.id < n) (e : Variable S → D) :
    (I.holds ((visitor V I.machine maxVarsToIntroduce).visit (.pred sign symbol args) n).1 e ↔
        I.holds (.pred sign symbol args) e) ↔ sign = .pos := by
  have hvisit : ((visitor V I.machine maxVarsToIntroduce).visit (.pred sign symbol args) n).1 =
      aggForm I.machine sign symbol ((visitor V I.machine maxVarsToIntroduce).visitTerms args n).1 := by
    simp only [OverridingVisitor.visit, visitor, stops, h, hconverted, Option.isSome_none,
      Bool.false_eq_true, if_false]
  have hvalues := (values_of_polar (congrFun (visitArgs_keeps hargs hvars).2.meaning e)).1
  have hcard : comparesCard I.machine symbol args = true := by
    rcases aggForm_cases I.machine sign symbol args with ⟨-, hpred⟩ | ⟨hcard, -⟩
    · exact absurd (hpred.symm.trans h) (by simp)
    · exact hcard
  rw [hvisit]
  rcases aggForm_cases I.machine sign symbol
      ((visitor V I.machine maxVarsToIntroduce).visitTerms args n).1 with
    ⟨hnot, -⟩ | ⟨-, bound', comp', g', sets', hagg, -, hholds⟩
  · rw [comparesCard_visit] at hnot
    exact absurd (hnot.symm.trans hcard) Bool.false_ne_true
  · have hsame : I.holds (.pred sign symbol ((visitor V I.machine maxVarsToIntroduce).visitTerms args n).1) e ↔
        I.holds (.pred sign symbol args) e := by rw [holds, holds, hvalues]
    rw [hagg, ← hsame, hholds, holds]
    cases sign with
    | pos => exact iff_of_true Iff.rfl rfl
    | neg => exact iff_of_false (fun hiff => iff_not_self hiff.symm) (by simp)

theorem visit_agg_iff (hconverted : converted V I.machine maxVarsToIntroduce bound g sets = some (k, s))
    (hbelow : ∀ v ∈ (Formula.agg sign bound comp g sets).freeVars, v.id < n) (hint : NoOverflow comp k)
    (e : Variable S → D) :
    (I.holds ((visitor V I.machine maxVarsToIntroduce).visit (.agg sign bound comp g sets) n).1 e ↔
        I.holds (.agg sign bound comp g sets) e) ↔
      (Rightly comp k (count I.toStructure s e) ↔ signed comp = true ∨ sign = .pos) := by
  have hvisit : (visitor V I.machine maxVarsToIntroduce).visit (.agg sign bound comp g sets) n =
      solve I.machine sign comp k s n := by
    simp only [OverridingVisitor.visit, visitor, stops, convert, hconverted, Option.isSome_some, if_true]
  have hs : ∀ v ∈ s.freeVars, v.id < n := fun v hv =>
    hbelow v (freeVars_of_converted hconverted hv)
  rw [hvisit, cardinality_solve_holds sign hint hs, holds_converted hconverted]
  exact solved_iff (inInt_converted hconverted) sign _

end Exactly

end CardConstrToFO

open CardConstrToFO

-- the truth value is kept when each cardinality is converted rightly, and by no other comparison with one
theorem replaceCardinalitiesWithFOFormulas_keeps (V : SortedVocabulary S P F) (maxVarsToIntroduce : ℤ)
    (I : CardStructure S P F D) :
    (∀ T, TheoryMeets V maxVarsToIntroduce I.machine T →
      T.Keeps I.toStructure (replaceCardinalitiesWithFOFormulas V I.machine T maxVarsToIntroduce)) ∧
    (∀ sign symbol args bound comp g sets k s n e,
      aggForm I.machine sign symbol args = .agg sign bound comp g sets →
      converted V I.machine maxVarsToIntroduce bound g sets = some (k, s) → HasVariable s →
      NoOverflow comp k → (∀ v ∈ termsFreeVars args, v.id < n) →
      ((I.holds ((visitor V I.machine maxVarsToIntroduce).visit (.pred sign symbol args) n).1 e ↔
          I.holds (.pred sign symbol args) e) ↔
        (Rightly comp k (count I.toStructure s e) ↔ (signed comp = true → sign = .pos)))) ∧
    (∀ sign symbol args bound comp g sets n e,
      aggForm I.machine sign symbol args = .agg sign bound comp g sets →
      converted V I.machine maxVarsToIntroduce bound g sets = none →
      (visitor V I.machine maxVarsToIntroduce).visitedTerms (ChainMeets V I.machine maxVarsToIntroduce) args →
      (∀ v ∈ termsVars args, v.id < n) →
      ((I.holds ((visitor V I.machine maxVarsToIntroduce).visit (.pred sign symbol args) n).1 e ↔
          I.holds (.pred sign symbol args) e) ↔ sign = .pos)) ∧
    ∀ sign bound comp g sets k s n e,
      converted V I.machine maxVarsToIntroduce bound g sets = some (k, s) → HasVariable s →
      NoOverflow comp k → (∀ v ∈ (Formula.agg sign bound comp g sets).freeVars, v.id < n) →
      ((I.holds ((visitor V I.machine maxVarsToIntroduce).visit (.agg sign bound comp g sets) n).1 e ↔
          I.holds (.agg sign bound comp g sets) e) ↔
        (Rightly comp k (count I.toStructure s e) ↔ signed comp = true ∨ sign = .pos)) :=
  ⟨replaceCardinalities_keeps,
    fun _ _ _ _ _ _ _ _ _ _ e h hconverted _ hint hbelow => visit_pred_iff h hconverted hbelow hint e,
    fun _ _ _ _ _ _ _ _ e h hconverted hargs hvars => visit_pred_agg_iff h hconverted hargs hvars e,
    fun _ _ _ _ _ _ _ _ e hconverted _ hint hbelow => visit_agg_iff hconverted hbelow hint e⟩

section Numbers

-- the integers with an infinite number, and a predicate that holds of nothing
noncomputable def numbers : CardStructure Unit Unit Unit (Option ℤ) where
  sort _ _ := True
  isEmpty _ := false
  isEmpty_iff _ := iff_of_false Bool.false_ne_true fun h => h none trivial
  less a b := match a, b with
    | some j, some k => j < k
    | some _, none => True
    | none, _ => False
  predicate _ _ := False
  function _ _ := some none
  aggregate _ occurrences := some (match total occurrences with
    | (n : ℕ) => some n
    | ⊤ => none)
  machine :=
    { asInt := fun d => d.filter fun k => inInt k
      inInt_asInt := fun d k h => by simpa using (Option.filter_eq_some_iff.mp h).2
      overflow := id }
  int := some
  card c := match c with
    | (n : ℕ) => some n
    | ⊤ => none
  asInt_iff d k := by simp [Option.filter_eq_some_iff]
  int_injective := Option.some_injective ℤ
  less_int _ _ := Iff.rfl
  card_natCast _ := rfl
  card_top _ := nofun
  less_top _ := trivial
  top_less _ := id
  aggregate_card _ := rfl

-- no element: the negation is made twice
theorem replaceCardinalities_negated_equality : ¬ ∀ (V : SortedVocabulary Unit Unit Unit) (maxVars : ℤ)
    (T : Theory Unit Unit Unit (Option ℤ)),
    T.Keeps numbers.toStructure (replaceCardinalitiesWithFOFormulas V numbers.machine T maxVars) := by
  intro h
  let V : SortedVocabulary Unit Unit Unit :=
    ⟨fun _ => [], fun _ => 0, fun _ _ hp => absurd hp List.not_mem_nil, fun _ => (), fun _ => (),
      fun _ _ => (), fun _ => none⟩
  let s : QuantSetExpr Unit Unit Unit (Option ℤ) :=
    .mk [⟨0, ()⟩] (.pred .pos (.predicate ()) [.var ⟨0, ()⟩]) (.dom () (some 1))
  let f : Formula Unit Unit Unit (Option ℤ) := .pred .neg (.eq ()) [.dom () (some 0), .agg .card [s]]
  let semantics : DefinitionSemantics Unit Unit Unit (Option ℤ) := ⟨fun _ => True, fun _ => True⟩
  have hkeeps := (h V 0 ⟨[f], [], []⟩).holds semantics fun _ => none
  have hsentence : numbers.holds ((visitor V numbers.machine 0).visit f (firstFree (f.vars ++ [] ++ []))).1
      (fun _ => none) ↔ numbers.holds f fun _ => none := by
    simpa [Theory.holds, replaceCardinalitiesWithFOFormulas, visitTheory, visitEach, visitFixpDefs,
      Theory.vars, allOf] using hkeeps
  have hagg : aggForm numbers.machine .neg (.eq ()) [.dom () (some 0), .agg .card [s]] =
      .agg .neg (.dom () (some 0)) .neq .card [s] := rfl
  have hconverted : converted V numbers.machine 0 (.dom () (some 0)) .card [s] = some (0, s) := by
    have hd : numbers.machine.asInt (some 0) = some 0 := (numbers.asInt_iff _ _).mpr ⟨rfl, by decide⟩
    have hsort : V.isSubsort none () (V.std .int) = true := rfl
    simp only [converted, s, hd, hsort, if_true, ne_eq, not_true_eq_false, false_and, if_false]
  have hint : NoOverflow .neq 0 := ⟨by decide, by decide⟩
  have hiff := visit_pred_iff (n := firstFree (f.vars ++ [] ++ [])) hagg hconverted
    (fun v hv => by cases hv) hint fun _ => none
  exact SIGN.noConfusion ((hiff.mp hsentence).mp (Or.inl (by decide)) rfl)

end Numbers

end Theory
