import DeclarativeLocalSearch.Theory.PushTheory

set_option linter.dupNamespace false

namespace Theory

open Structure

variable {S P F D : Type} [DecidableEq S] {I : Structure S P F D} {used : S → Prop} {n : ℕ}

-- the negations are pushed, no variable is quantified where it is quantified already, the
-- identifiers from n on are new, and the quantified variables have sorts in use
structure Theory.Fit (I : Structure S P F D) (used : S → Prop) (n : ℕ) (T : Theory S P F D) : Prop where
  sentences : ∀ f ∈ T.sentences, (Formula.kind I).Fit used n f
  definitions : ∀ d ∈ T.definitions, ∀ r ∈ d, Rule.Fit I used n r
  fixpdefs : ∀ r ∈ allOf T.fixpdefs, Rule.Fit I used n r

structure Theory.Flattened (n : ℕ) (T : Theory S P F D) : Prop where
  sentences : ∀ f ∈ T.sentences, (flatten f n).1 = f
  definitions : ∀ d ∈ T.definitions, ∀ r ∈ d, (flatten r.body n).1 = r.body
  fixpdefs : ∀ r ∈ allOf T.fixpdefs, (flatten r.body n).1 = r.body

theorem visitor_keeps {V : TheoryMutatingVisitor S P F D} (hV : V.Sound I used) :
    Keeps (fun n f => (Formula.kind I).Fit used n f) Formula.freeVars I.holds V.visit where
  mono h hn := h.mono hn
  le h := (hV.visit h).le
  free h := (hV.visit h).free
  meaning h := (hV.visit h).meaning

theorem pushQuantifications_keeps (order : SetOrder S) (hne : ∀ s, used s → ∃ d, I.sort s d)
    {T : Theory S P F D} (h : T.Fit I used n) : T.Keeps I (pushQuantifications order T n).1 :=
  visitTheory_keeps (visitor_keeps (PushQuantifications.sound order hne))
    (PushQuantifications.visitRule_keeps order hne) h.sentences h.definitions h.fixpdefs

theorem pushQuantificationsCompletely_keeps (order : SetOrder S) (hne : ∀ s, used s → ∃ d, I.sort s d)
    {T : Theory S P F D} (h : T.Fit I used n) : T.Keeps I (pushQuantificationsCompletely order T n).1 :=
  visitTheory_keeps (visitor_keeps (PushQuantificationsCompletely.sound order hne))
    (PushQuantificationsCompletely.visitRule_keeps order hne) h.sentences h.definitions h.fixpdefs

section Empty

variable (s : S)

def selfEqual : Formula S P F D := .pred .pos (.eq s) [.var ⟨0, s⟩, .var ⟨0, s⟩]

-- for all x: false and x = x
def falseForAll : Theory S P F D where
  sentences := [.quant .pos .univ [⟨0, s⟩] (.bool .pos true [.bool .pos false [], selfEqual s])]
  definitions := []
  fixpdefs := []

-- false and for all x: x = x
def falseBeside : Formula S P F D :=
  .bool .pos true [.bool .pos false [], .quant .pos .univ [⟨0, s⟩] (selfEqual s)]

theorem elements_singleton (order : SetOrder S) (v : Variable S) : order.elements [v] = [v] := by
  have hmem : ∀ w, w ∈ order.elements [v] ↔ w = v := fun w => by simp [order.mem_elements]
  exact List.perm_singleton.mp ((List.perm_ext_iff_of_nodup (order.nodup _) (List.nodup_singleton v)).mpr
    fun w => by simp [hmem])

theorem flatten_falseBeside : (flatten (falseBeside s : Formula S P F D) n).1 = falseBeside s := by
  simp [flatten, falseBeside, selfEqual, TheoryMutatingVisitor.visit, TheoryMutatingVisitor.visitAll,
    TheoryMutatingVisitor.visitTerms, TheoryMutatingVisitor.visitTerm, Flatten.visitor, Flatten.mergeQuant,
    Flatten.spliced]

theorem pushQuantifications_falseForAll (order : SetOrder S) :
    (pushQuantifications order (falseForAll s : Theory S P F D) n).1.sentences = [falseBeside s] := by
  have hpushed : PushQuantifications.pushed order [(QUANT.univ, [(⟨0, s⟩ : Variable S)])] true
      [.bool .pos false [], selfEqual s] = (falseBeside s : Formula S P F D) := by
    simp [PushQuantifications.pushed, PushQuantifications.formulalevels, PushQuantifications.inLevels,
      PushQuantifications.addLevel, PushQuantifications.splitOverSameQuant, PushQuantifications.addVariable,
      PushQuantifications.group, sharesVars, selfEqual, falseBeside, elements_singleton, Formula.freeVars,
      formulasFreeVars, termsFreeVars, Term.freeVars]
  simp [pushQuantifications, falseForAll, visitTheory, visitEach, TheoryMutatingVisitor.visit,
    PushQuantifications.visitor, PushQuantifications.visitQuant, PushQuantifications.quantforms,
    QUANT.isUniv, hpushed, flatten_falseBeside]

theorem pushQuantificationsCompletely_falseForAll (order : SetOrder S) :
    (pushQuantificationsCompletely order (falseForAll s : Theory S P F D) n).1.sentences =
      [falseBeside s] := by
  have hself : (⟨0, s⟩ : Variable S) ∈ (selfEqual s : Formula S P F D).freeVars := by
    simp [selfEqual, Formula.freeVars, termsFreeVars, Term.freeVars]
  have hfalse : (⟨0, s⟩ : Variable S) ∉ (Formula.bool .pos false [] : Formula S P F D).freeVars := by
    simp [Formula.freeVars, formulasFreeVars]
  have hatom : PushQuantificationsCompletely.pushQuantifiedVariableThrough ⟨0, s⟩ true
      (selfEqual s : Formula S P F D) n = none := by
    rw [PushQuantificationsCompletely.pushQuantifiedVariableThrough.eq_def, if_neg (fun h => by cases h),
      if_neg (not_not.mpr hself)]
    rfl
  have hsubs : PushQuantificationsCompletely.pushThroughAll ⟨0, s⟩ true false
      [.bool .pos false [], selfEqual s] n =
      ([.bool .pos false [], .quant .pos .univ [⟨0, s⟩] (selfEqual s : Formula S P F D)], n) := by
    simp [PushQuantificationsCompletely.pushThroughAll, hfalse, hself, hatom,
      PushQuantificationsCompletely.copied, QUANT.ofUniv]
  have hbool : (⟨0, s⟩ : Variable S) ∈
      (Formula.bool .pos true [.bool .pos false [], selfEqual s] : Formula S P F D).freeVars :=
    mem_freeVars_bool.mpr ⟨selfEqual s, by simp, hself⟩
  have hquant : (⟨0, s⟩ : Variable S) ∈ (Formula.quant .pos .univ []
      (.bool .pos true [.bool .pos false [], selfEqual s]) : Formula S P F D).freeVars :=
    mem_freeVars_quant.mpr ⟨hbool, List.not_mem_nil⟩
  have hpush : PushQuantificationsCompletely.pushQuantifiedVariableThrough ⟨0, s⟩ true
      (.quant .pos .univ [] (.bool .pos true [.bool .pos false [], selfEqual s] : Formula S P F D)) n =
      some (.quant .pos .univ [] (falseBeside s), n) := by
    simp [PushQuantificationsCompletely.pushQuantifiedVariableThrough, Formula.sign, hquant, hbool, hsubs,
      QUANT.isUniv, falseBeside]
  have hvisit : ((PushQuantificationsCompletely.visitor order).visit
      (.bool .pos true [.bool .pos false [], selfEqual s] : Formula S P F D) n) =
      (.bool .pos true [.bool .pos false [], selfEqual s], n) := by
    simp [TheoryMutatingVisitor.visit, TheoryMutatingVisitor.visitAll, TheoryMutatingVisitor.visitTerms,
      TheoryMutatingVisitor.visitTerm, PushQuantificationsCompletely.visitor, selfEqual]
  rw [pushQuantificationsCompletely, visitTheory, falseForAll, visitEach, visitEach,
    TheoryMutatingVisitor.visit, hvisit]
  simp [PushQuantificationsCompletely.visitor, PushQuantificationsCompletely.visitQuant,
    PushQuantificationsCompletely.readdVars, elements_singleton, QUANT.isUniv, hpush, flatten_falseBeside,
    visitEach]

theorem falseForAll_fit (hs : used s) : (falseForAll s : Theory S P F D).Fit I used (n + 1) := by
  refine ⟨List.forall_mem_singleton.mpr ⟨?_, ?_, ?_, ?_⟩, nofun, nofun⟩
  · simp [Formula.kind, Formula.prepared, formulasPrepared, selfEqual, termsPrepared, Term.prepared,
      Formula.boundVars, formulasBoundVars, termsBoundVars, Term.boundVars]
  · simp [Formula.kind, selfEqual, Formula.freeVars, formulasFreeVars, termsFreeVars, Term.freeVars]
  · simp [Formula.kind, selfEqual, Formula.boundVars, formulasBoundVars, termsBoundVars, Term.boundVars]
  · simpa [Formula.kind, selfEqual, Formula.boundVars, formulasBoundVars, termsBoundVars, Term.boundVars]
      using hs

theorem falseForAll_flattened : (falseForAll s : Theory S P F D).Flattened n := by
  refine ⟨List.forall_mem_singleton.mpr ?_, nofun, nofun⟩
  simp [flatten, selfEqual, TheoryMutatingVisitor.visit, TheoryMutatingVisitor.visitAll,
    TheoryMutatingVisitor.visitTerms, TheoryMutatingVisitor.visitTerm, Flatten.visitor, Flatten.mergeQuant,
    Flatten.spliced]

theorem falseForAll_changed (hs : ∀ d, ¬ I.sort s d) (e : Variable S → D) {T : Theory S P F D}
    (hT : T.sentences = [falseBeside s]) : ¬ (falseForAll s).Keeps I T := by
  intro h
  have htrue : (falseForAll s).holds I ⟨fun _ => True, fun _ => True⟩ e := by
    refine ⟨List.forall_mem_singleton.mpr ?_, nofun, nofun⟩
    rw [holds, SIGN.apply]
    exact fun a => absurd (a.2 ⟨⟨0, s⟩, List.mem_singleton_self _⟩) (hs _)
  have hsentences := ((h.holds ⟨fun _ => True, fun _ => True⟩ e).mpr htrue).1
  rw [hT, List.forall_mem_singleton, falseBeside, holds_bool_pos] at hsentences
  have hfalse := (holds_bool_pos false [] e).mp (hsentences (.bool .pos false []) List.mem_cons_self)
  exact absurd hfalse (by simp [Quantified.eachOf])

end Empty

def emptySort : Structure Unit Unit Unit Unit where
  sort _ _ := False
  isEmpty _ := true
  isEmpty_iff _ := by simp
  less _ _ := False
  predicate _ _ := True
  function _ _ := none
  aggregate _ _ := none

def listOrder : SetOrder Unit where
  elements := List.dedup
  mem_elements _ _ := List.mem_dedup
  nodup := List.nodup_dedup

end Theory
