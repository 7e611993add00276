import DeclarativeLocalSearch.FoBdd.GenerateBDDAccordingToBounds
import DeclarativeLocalSearch.Theory.NormalFormHolds
import DeclarativeLocalSearch.Theory.ThreeValued

set_option linter.unusedSectionVars false

namespace FoBdd

open Theory Structure

variable {S P F D A : Type}

section Fixed

variable {fixed : F → Prop}

theorem fixed_clone [DecidableEq S] (ρ : Variable S → Variable S) : ∀ (t : Term S P F D), fixedTerm fixed t →
    ∀ n, fixedTerm fixed (t.clone ρ n).1 ∧ (t.clone ρ n).1.freeVars = t.freeVars.map ρ ∧
      ∀ (I : Structure S P F D) e, I.value (t.clone ρ n).1 e = I.value t fun v => e (ρ v) := by
  refine (@Formula.induct S P F D _ (fun _ => True) (fun _ => True) ?_ ?_ ?_ ?_ ?_ ?_ ?_ ?_ ?_ ?_ ?_).1
  · exact fun v _ n => ⟨trivial, rfl, fun _ _ => rfl⟩
  · intro f args ih ht n
    have hargs : ∀ (ts : List (Term S P F D)) n, (∀ t ∈ ts, t ∈ args) →
        fixedTerms fixed (cloneTerms ts ρ n).1 ∧ termsFreeVars (cloneTerms ts ρ n).1 = (termsFreeVars ts).map ρ ∧
          ∀ (I : Structure S P F D) e, I.values (cloneTerms ts ρ n).1 e = I.values ts fun v => e (ρ v) := by
      intro ts
      induction ts with
      | nil => exact fun n _ => ⟨trivial, rfl, fun _ _ => rfl⟩
      | cons t ts ihts =>
        intro n hmem
        obtain ⟨ht', hts⟩ := List.forall_mem_cons.mp hmem
        obtain ⟨hf, hv, hI⟩ := ih t ht' (fixedTerms_iff.mp ht.2 t ht') n
        obtain ⟨hfs, hvs, hIs⟩ := ihts (t.clone ρ n).2 hts
        refine ⟨⟨hf, hfs⟩, ?_, fun I e => congrArg₂ List.cons (hI I e) (hIs I e)⟩
        rw [cloneTerms, termsFreeVars, termsFreeVars, hv, hvs, List.map_append]
    obtain ⟨hfixed, hvars, hvalues⟩ := hargs args n fun _ h => h
    refine ⟨⟨ht.1, hfixed⟩, hvars, fun I e => ?_⟩
    rw [Term.clone, value, value, hvalues]
  · exact fun s d _ n => ⟨trivial, rfl, fun _ _ => rfl⟩
  · exact fun g sets _ ht => ht.elim
  all_goals intros; trivial

theorem fixed_visit {W : FormulaVisitor S P F D} : ∀ (t : Term S P F D), fixedTerm fixed t →
    ∀ n, W.visitTerm t n = (t, n) := by
  refine (@Formula.induct S P F D _ (fun _ => True) (fun _ => True) ?_ ?_ ?_ ?_ ?_ ?_ ?_ ?_ ?_ ?_ ?_).1
  · exact fun v _ n => rfl
  · intro f args ih ht n
    have hargs : ∀ (ts : List (Term S P F D)), (∀ t ∈ ts, t ∈ args) → W.visitTerms ts n = (ts, n) := by
      intro ts
      induction ts with
      | nil => exact fun _ => rfl
      | cons t ts ihts =>
        intro hmem
        obtain ⟨ht', hts⟩ := List.forall_mem_cons.mp hmem
        rw [FormulaVisitor.visitTerms, ih t ht' (fixedTerms_iff.mp ht.2 t ht') n, ihts hts]
    rw [FormulaVisitor.visitTerm, hargs args fun _ h => h]
  · exact fun s d _ n => rfl
  · exact fun g sets _ ht => ht.elim
  all_goals intros; trivial

end Fixed

namespace GenerateBDDAccordingToBounds

variable [DecidableEq S] [DecidableEq A] (G : GenerateBDDAccordingToBounds S P F D A) (T : ThreeValued S P F D)

-- a term with a value in its sort
structure Valued (t : Term S P F D) : Prop where
  fixed : fixedTerm T.fixed t
  value : ∀ e, (∀ v ∈ t.freeVars, T.base.sort v.sort (e v)) →
    ∃ d, T.base.value t e = some d ∧ T.base.sort (G.termSort t) d

mutual

-- graphed formulas, with aggregates or without
def graphed (aggregates : Prop) : Formula S P F D → Prop
  | .pred _ symbol args => (∀ t ∈ args, G.Valued T t) ∧ (G.builtin symbol = false → args.length = G.arity symbol)
  | .eqChain _ _ _ terms => ∀ t ∈ terms, G.Valued T t
  | .equiv _ l r => graphed aggregates l ∧ graphed aggregates r
  | .bool _ _ subs => graphedAll aggregates subs
  | .quant _ _ _ f => graphed aggregates f
  | .agg _ _ _ _ _ => aggregates

def graphedAll (aggregates : Prop) : List (Formula S P F D) → Prop
  | [] => True
  | f :: fs => graphed aggregates f ∧ graphedAll aggregates fs

end

section Graphed

variable {G T} {aggregates : Prop}

theorem graphedAll_iff {fs : List (Formula S P F D)} :
    G.graphedAll T aggregates fs ↔ ∀ f ∈ fs, G.graphed T aggregates f := by
  induction fs with
  | nil => exact iff_of_true trivial nofun
  | cons f fs ih => rw [graphedAll, List.forall_mem_cons, ih]

theorem graphed_negate {f : Formula S P F D} (h : G.graphed T aggregates f) : G.graphed T aggregates f.negate := by
  cases f <;> exact h

theorem Valued.clone {t : Term S P F D} (h : G.Valued T t) {ρ : Variable S → Variable S}
    (hρ : ∀ v, (ρ v).sort = v.sort) (n : ℕ) : G.Valued T (t.clone ρ n).1 := by
  obtain ⟨hfixed, hvars, hvalue⟩ := fixed_clone ρ t h.fixed n
  refine ⟨hfixed, fun e he => ?_⟩
  have hsort : G.termSort (t.clone ρ n).1 = G.termSort t := by
    cases t with
    | var v => exact congrArg (fun s => (some s).getD _) (hρ v)
    | agg g sets => exact h.fixed.elim
    | _ => rfl
  rw [hvalue, hsort]
  refine h.value _ fun v hv => ?_
  exact hρ v ▸ he (ρ v) (hvars ▸ List.mem_map_of_mem hv)

theorem valued_cloneTerms {ρ : Variable S → Variable S} (hρ : ∀ v, (ρ v).sort = v.sort)
    {ts : List (Term S P F D)} (h : ∀ t ∈ ts, G.Valued T t) (n : ℕ) :
    (cloneTerms ts ρ n).1.length = ts.length ∧ ∀ t ∈ (cloneTerms ts ρ n).1, G.Valued T t := by
  induction ts generalizing n with
  | nil => exact ⟨rfl, nofun⟩
  | cons t ts ih =>
    obtain ⟨ht, hts⟩ := List.forall_mem_cons.mp h
    obtain ⟨hlength, hrest⟩ := ih hts (t.clone ρ n).2
    exact ⟨congrArg Nat.succ hlength, List.forall_mem_cons.mpr ⟨ht.clone hρ n, hrest⟩⟩

theorem renewed_sort {ρ : Variable S → Variable S} (hρ : ∀ v, (ρ v).sort = v.sort) (n : ℕ)
    (vars : List (Variable S)) (v : Variable S) : (renewed n vars ρ v).sort = v.sort := by
  rw [renewed]
  split_ifs
  · rfl
  · exact hρ v

theorem graphed_clone : ∀ (f : Formula S P F D), G.graphed T aggregates f → ∀ (ρ : Variable S → Variable S) n,
    (∀ v, (ρ v).sort = v.sort) → G.graphed T aggregates (f.clone ρ n).1 := by
  refine (@Formula.induct S P F D (fun _ => True) (fun _ => True) _ ?_ ?_ ?_ ?_ ?_ ?_ ?_ ?_ ?_ ?_ ?_).2.2
  all_goals try intros; trivial
  · intro sign symbol args _ h ρ n hρ
    obtain ⟨hlength, hargs⟩ := valued_cloneTerms hρ h.1 n
    exact ⟨hargs, fun hb => hlength.trans (h.2 hb)⟩
  · exact fun sign conj comps terms _ h ρ n hρ => (valued_cloneTerms hρ h n).2
  · exact fun sign l r ihl ihr h ρ n hρ => ⟨ihl h.1 ρ n hρ, ihr h.2 ρ _ hρ⟩
  · intro sign conj subs ih h ρ n hρ
    have hall : ∀ (fs : List (Formula S P F D)) n, (∀ f ∈ fs, f ∈ subs) →
        G.graphedAll T aggregates (cloneFormulas fs ρ n).1 := by
      intro fs
      induction fs with
      | nil => exact fun _ _ => trivial
      | cons f fs ihfs =>
        intro n hmem
        obtain ⟨hf, hfs⟩ := List.forall_mem_cons.mp hmem
        exact ⟨ih f hf (graphedAll_iff.mp h f hf) ρ n hρ, ihfs _ hfs⟩
    exact hall subs n fun _ h => h
  · exact fun sign q vars f ih h ρ n hρ => ih h _ _ (renewed_sort hρ n vars)

-- the rules of a visitor that keep formulas graphed
structure Graphs (G : GenerateBDDAccordingToBounds S P F D A) (T : ThreeValued S P F D) (aggregates : Prop)
    (W : FormulaVisitor S P F D) : Prop where
  eqChain : ∀ sign conj comps ts n, (∀ t ∈ ts, G.Valued T t) →
    G.graphed T aggregates (W.visitEqChain sign conj comps ts n).1
  equiv : ∀ sign l r n, G.graphed T aggregates l → G.graphed T aggregates r →
    G.graphed T aggregates (W.visitEquiv sign l r n).1
  bool : ∀ sign conj fs, (∀ f ∈ fs, G.graphed T aggregates f) → G.graphed T aggregates (W.visitBool sign conj fs)
  quant : ∀ sign q vars f, G.graphed T aggregates f → G.graphed T aggregates (W.visitQuant sign q vars f)

theorem visitTerms_valued {W : FormulaVisitor S P F D} {ts : List (Term S P F D)} (h : ∀ t ∈ ts, G.Valued T t)
    (n : ℕ) : W.visitTerms ts n = (ts, n) := by
  induction ts with
  | nil => rfl
  | cons t ts ih =>
    obtain ⟨ht, hts⟩ := List.forall_mem_cons.mp h
    rw [FormulaVisitor.visitTerms, fixed_visit t ht.fixed n, ih hts]

theorem Graphs.visit {W : FormulaVisitor S P F D} (hW : Graphs G T aggregates W) : ∀ (f : Formula S P F D),
    G.graphed T aggregates f → ∀ n, G.graphed T aggregates (W.visit f n).1 := by
  refine (@Formula.induct S P F D (fun _ => True) (fun _ => True) _ ?_ ?_ ?_ ?_ ?_ ?_ ?_ ?_ ?_ ?_ ?_).2.2
  all_goals try intros; trivial
  · intro sign symbol args _ h n
    rw [FormulaVisitor.visit, visitTerms_valued h.1]
    exact h
  · intro sign conj comps terms _ h n
    rw [FormulaVisitor.visit, visitTerms_valued h]
    exact hW.eqChain sign conj comps terms n h
  · exact fun sign l r ihl ihr h n => hW.equiv sign _ _ _ (ihl h.1 n) (ihr h.2 _)
  · intro sign conj subs ih h n
    have hall : ∀ (fs : List (Formula S P F D)) n, (∀ f ∈ fs, f ∈ subs) →
        ∀ f ∈ (W.visitAll fs n).1, G.graphed T aggregates f := by
      intro fs
      induction fs with
      | nil => exact fun _ _ _ h => absurd h List.not_mem_nil
      | cons f fs ihfs =>
        intro n hmem
        obtain ⟨hf, hfs⟩ := List.forall_mem_cons.mp hmem
        exact List.forall_mem_cons.mpr ⟨ih f hf (graphedAll_iff.mp h f hf) n, ihfs _ hfs⟩
    exact hW.bool sign conj _ (hall subs n fun _ h => h)
  · exact fun sign q vars f ih h n => hW.quant sign q vars _ (ih h n)

theorem removeEquivalences_graphs : Graphs G T aggregates removeEquivalences where
  eqChain _ _ _ _ _ h := h
  bool _ _ _ h := graphedAll_iff.mpr h
  quant _ _ _ _ h := h
  equiv sign l r n hl hr := by
    have hid : ∀ v : Variable S, (id v).sort = v.sort := fun _ => rfl
    exact ⟨⟨graphed_negate (graphed_clone l hl id _ hid), graphed_clone r hr id _ hid, trivial⟩,
      ⟨graphed_clone l hl id _ hid, graphed_negate (graphed_clone r hr id _ hid), trivial⟩, trivial⟩

variable (hcomparisons : ∀ (c : CompType) sort, G.builtin (c.symbol sort) = true)

include hcomparisons in
theorem graphed_splitComparisons {first : Bool} {comps : List CompType} {ts : List (Term S P F D)}
    (h : ∀ t ∈ ts, G.Valued T t) (n : ℕ) :
    ∀ f ∈ (splitComparisons G.vocabulary none first comps ts n).1, G.graphed T aggregates f := by
  induction ts generalizing first comps n with
  | nil => cases comps <;> exact nofun
  | cons l ts ih =>
    obtain ⟨hl, hts⟩ := List.forall_mem_cons.mp h
    cases comps with
    | nil => exact nofun
    | cons c cs =>
      cases ts with
      | nil => exact nofun
      | cons r ts =>
        obtain ⟨hr, -⟩ := List.forall_mem_cons.mp hts
        refine List.forall_mem_cons.mpr ⟨⟨List.forall_mem_cons.mpr ⟨?_, fun t ht => List.mem_singleton.mp ht ▸ hr⟩,
          fun hb => absurd ((hcomparisons c _).symm.trans hb) Bool.true_eq_false_eq_False.elim⟩, ih hts _⟩
        cases first with
        | true => exact hl
        | false => exact hl.clone (fun _ => rfl) n

include hcomparisons in
theorem splitComparisonChains_graphs : Graphs G T aggregates (splitComparisonChains G.vocabulary none) where
  equiv _ _ _ _ hl hr := ⟨hl, hr⟩
  bool _ _ _ h := graphedAll_iff.mpr h
  quant _ _ _ _ h := h
  eqChain sign conj comps ts n h := by
    have hatoms : ∀ f ∈ (splitComparisons G.vocabulary none true comps ts n).1, G.graphed T aggregates f :=
      graphed_splitComparisons hcomparisons h n
    simp only [splitComparisonChains]
    split
    · rename_i f hf
      have hatom := hatoms f (hf ▸ List.mem_singleton_self f)
      split_ifs
      · exact graphed_negate hatom
      · exact hatom
    · exact graphedAll_iff.mpr hatoms

include hcomparisons in
theorem graphed_splitComparisonChainsOf {f : Formula S P F D} (h : G.graphed T aggregates f) :
    G.graphed T aggregates (splitComparisonChainsOf G f) :=
  (splitComparisonChains_graphs hcomparisons).visit _ (graphed_clone f h id _ fun _ => rfl) _

theorem graphed_removeEquivalencesOf {f : Formula S P F D} (h : G.graphed T aggregates f) :
    G.graphed T aggregates (removeEquivalencesOf f) :=
  removeEquivalences_graphs.visit _ (graphed_clone f h id _ fun _ => rfl) _

end Graphed

section Keeps

variable {G} {I : Structure S P F D}

theorem cloned_keeps {W : FormulaVisitor S P F D} (hW : W.Sound I fun _ _ => True) (f : Formula S P F D) :
    (Formula.polar I fun _ _ => True).Keeps f
      (W.visit (f.clone id (firstFree f.vars)).1 (f.clone id (firstFree f.vars)).2).1 := by
  have hbelow := @below_firstFree S P F D _ I (fun _ _ => True) f
  have hclone := (@clones S P F D _ I fun _ _ => True).2.2 f id (firstFree f.vars)
  obtain ⟨hle, hkeeps⟩ := @clone_keeps S P F D _ I (fun _ _ => True) _ f hbelow.1
  refine hkeeps.trans (hW.keeps.2.2 _ _ ⟨fun v hv => ?_, fun v hv => (hclone.bound v hv).2⟩).2
  exact Nat.lt_of_lt_of_le (hbelow.1 v (hkeeps.free v hv)) hle

theorem splitComparisonChainsOf_keeps (f : Formula S P F D) :
    (Formula.polar I fun _ _ => True).Keeps f (splitComparisonChainsOf G f) :=
  cloned_keeps (splitComparisonChains_sound fun _ _ _ => trivial) f

theorem removeEquivalencesOf_keeps (f : Formula S P F D) :
    (Formula.polar I fun _ _ => True).Keeps f (removeEquivalencesOf f) :=
  cloned_keeps removeEquivalences_sound f

end Keeps

end GenerateBDDAccordingToBounds

end FoBdd
