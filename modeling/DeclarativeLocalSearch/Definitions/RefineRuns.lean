import Mathlib.Data.Prod.Lex
import Mathlib.Order.WellFounded
import Mathlib.Tactic.FinCases
import DeclarativeLocalSearch.Definitions.RefineDefinedSymbols

set_option linter.unusedSectionVars false

namespace RefineDefinedSymbols

open CalculateDefinitions (Tables)

variable {S A I R : Type} [DecidableEq S] [DecidableEq A] [DecidableEq I] [DecidableEq R] [Fintype A]

namespace Inference

variable {X : Inference S A I R} {σ τ old : Tables A} {d : R} {s : S} {a : A} {M : A → Bool} {symbols refined : List S}

section Sizes

theorem eq_of_tableSize {t t' : A → Bool} (hle : ∀ a, X.symbol a = s → t a = true → t' a = true)
    (h : X.tableSize s t = X.tableSize s t') (ha : X.symbol a = s) : t a = t' a := by
  have hsubset : (Finset.univ.filter fun a => X.symbol a = s ∧ t a = true) ⊆
      Finset.univ.filter fun a => X.symbol a = s ∧ t' a = true := by
    intro b hb
    simp only [Finset.mem_filter, Finset.mem_univ, true_and] at hb ⊢
    exact ⟨hb.1, hle b hb.1 hb.2⟩
  have heq := Finset.eq_of_subset_of_card_le hsubset h.ge
  have hiff := Finset.ext_iff.mp heq a
  simp only [Finset.mem_filter, Finset.mem_univ, true_and, ha] at hiff
  exact Bool.eq_iff_iff.mpr hiff

-- a table that has only grown is the same when its size is the same
theorem eq_of_sameSizes (hle : ∀ a, X.symbol a = s → (σ.ct a = true → τ.ct a = true) ∧ (σ.cf a = true → τ.cf a = true))
    (h : X.sameSizes s σ τ = true) (ha : X.symbol a = s) : σ.ct a = τ.ct a ∧ σ.cf a = τ.cf a := by
  simp only [sameSizes, Bool.and_eq_true, decide_eq_true_eq] at h
  refine ⟨eq_of_tableSize (fun b hb => (hle b hb).1) h.1 ha, ?_⟩
  have hpt : (!τ.cf a) = !σ.cf a := by
    refine @eq_of_tableSize _ _ _ _ _ _ _ _ _ X s a (fun a => !τ.cf a) (fun a => !σ.cf a) (fun b hb hnot => ?_) h.2.symm ha
    have hcf := (hle b hb).2
    cases hσ : σ.cf b <;> simp_all
  simpa using hpt.symm

theorem tableSize_congr {t t' : A → Bool} (h : ∀ a, X.symbol a = s → t a = t' a) :
    X.tableSize s t = X.tableSize s t' := by
  refine congrArg Finset.card (Finset.filter_congr fun a _ => and_congr_right fun ha => ?_)
  rw [h a ha]

theorem sameSizes_congr (h : ∀ a, X.symbol a = s → σ.ct a = τ.ct a ∧ σ.cf a = τ.cf a) (old : Tables A) :
    X.sameSizes s old σ = X.sameSizes s old τ := by
  rw [sameSizes, sameSizes, tableSize_congr fun a ha => (h a ha).1,
    @tableSize_congr _ _ _ _ _ _ _ _ _ X s (fun a => !σ.cf a) (fun a => !τ.cf a) fun a ha => congrArg not (h a ha).2]

theorem sameSizes_of_eq (h : ∀ a, X.symbol a = s → σ.ct a = τ.ct a ∧ σ.cf a = τ.cf a) :
    X.sameSizes s σ τ = true := by
  rw [← sameSizes_congr h]
  simp [sameSizes]

end Sizes

section Extended

theorem isConsistentOn_of_extendedBy (h : σ.ExtendedBy M) (s : S) : X.isConsistentOn s σ = true :=
  decide_eq_true fun a _ hboth => Bool.false_ne_true ((h.2 a hboth.2).symm.trans (h.1 a hboth.1))

theorem functional_of_extendedBy (h : σ.ExtendedBy M) (hM : X.IsStructure M) (hs : s ∈ X.functions) :
    X.functional s σ = true :=
  decide_eq_true fun a b ha hb hinput hta htb => (hM s hs).1 a b ha hb hinput (h.1 a hta) (h.1 b htb)

theorem satisfiesFunctionConstraints_of_extendedBy (h : σ.ExtendedBy M) (hM : X.IsStructure M)
    (hs : s ∈ X.functions) : X.satisfiesFunctionConstraints s σ = true := by
  rw [satisfiesFunctionConstraints, functional_of_extendedBy h hM hs, Bool.true_and]
  cases hpart : X.isPartial s with
  | true => simp
  | false =>
    have himage : ∀ i ∈ X.domain s, ∃ a, X.symbol a = s ∧ X.input a = i ∧ σ.cf a = false := by
      intro i hi
      obtain ⟨a, ha, hinput, htrue⟩ := (hM s hs).2 hpart i hi
      refine ⟨a, ha, hinput, ?_⟩
      by_contra hcf
      exact Bool.false_ne_true ((h.2 a (eq_true_of_ne_false hcf)).symm.trans htrue)
    rw [Bool.false_or, decide_eq_true himage, Bool.or_true]

theorem setTables_extendedBy (h : σ.ExtendedBy M)
    (hτ : ∀ a, X.symbol a = s → (τ.ct a = true → M a = true) ∧ (τ.cf a = true → M a = false)) :
    (X.setTables s τ σ).ExtendedBy M := by
  constructor
  · intro a ha
    simp only [setTables] at ha
    split at ha
    · next hs => exact (hτ a hs).1 ha
    · exact h.1 a ha
  · intro a ha
    simp only [setTables] at ha
    split at ha
    · next hs => exact (hτ a hs).2 ha
    · exact h.2 a ha

theorem queryLoop_extendedBy (hM : X.IsStructure M) (h : σ.ExtendedBy M)
    (hτ : ∀ a, X.symbol a ∈ symbols → (τ.ct a = true → M a = true) ∧ (τ.cf a = true → M a = false)) :
    (X.queryLoop τ symbols σ).2 = true ∧ (X.queryLoop τ symbols σ).1.ExtendedBy M := by
  induction symbols generalizing σ with
  | nil => exact ⟨rfl, h⟩
  | cons s symbols ih =>
    set σ' := if X.sameSizes s σ τ then σ else X.setTables s τ σ with hσ'
    have hextended : σ'.ExtendedBy M := by
      rw [hσ']
      split
      · exact h
      · exact setTables_extendedBy h fun a ha => hτ a (ha ▸ List.mem_cons_self)
    have hconsistent : X.isConsistentOn s σ' = true := isConsistentOn_of_extendedBy hextended s
    have hfunction : (X.isFunction s && !X.satisfiesFunctionConstraints s σ') = false := by
      cases hs : X.isFunction s with
      | false => rfl
      | true => simp [satisfiesFunctionConstraints_of_extendedBy hextended hM (of_decide_eq_true hs)]
    have hloop : X.queryLoop τ (s :: symbols) σ = X.queryLoop τ symbols σ' := by
      simp [queryLoop, ← hσ', hconsistent, hfunction]
    rw [hloop]
    exact ih hextended fun a ha => hτ a (List.mem_cons_of_mem s ha)

theorem insertOld_extendedBy (h : σ.ExtendedBy M) (hold : old.ExtendedBy M) (s : S) :
    (X.insertOld old s σ).ExtendedBy M := by
  constructor
  · intro a ha
    simp only [insertOld, Bool.or_eq_true, Bool.and_eq_true] at ha
    exact ha.elim (h.1 a) fun ha => hold.1 a ha.2
  · intro a ha
    simp only [insertOld, Bool.or_eq_true, Bool.and_eq_true] at ha
    exact ha.elim (h.2 a) fun ha => hold.2 a ha.2

theorem postprocess_extendedBy (h : σ.ExtendedBy M) (hold : old.ExtendedBy M) :
    (X.postprocess old symbols σ refined).2.2 = true ∧ (X.postprocess old symbols σ refined).1.ExtendedBy M := by
  induction symbols generalizing σ refined with
  | nil => exact ⟨rfl, h⟩
  | cons s symbols ih =>
    have hinserted : (X.insertOld old s σ).ExtendedBy M := insertOld_extendedBy h hold s
    rw [postprocess, if_pos (isConsistentOn_of_extendedBy hinserted s)]
    exact ih hinserted

theorem excludeImages_extendedBy (hM : X.IsStructure M) (hs : X.symbol a ∈ X.functions) (ha : M a = true)
    (h : σ.ExtendedBy M) : (X.excludeImages a σ).ExtendedBy M := by
  constructor
  · intro b hb
    simp only [excludeImages, Bool.and_eq_true] at hb
    exact h.1 b hb.2
  · intro b hb
    simp only [excludeImages, Bool.or_eq_true, decide_eq_true_eq] at hb
    rcases hb with ⟨hsymbol, hinput, hne⟩ | hb
    · by_contra htrue
      exact hne ((hM _ hs).1 b a hsymbol rfl hinput (eq_true_of_ne_false htrue) ha)
    · exact h.2 b hb

theorem excludeOthers_extendedBy (hM : X.IsStructure M) (hs : s ∈ X.functions) {shared : Bool} {atoms : List A}
    (hatoms : ∀ a ∈ atoms, X.symbol a = s ∧ M a = true) (h : σ.ExtendedBy M) :
    (X.excludeOthers shared atoms σ).ExtendedBy M := by
  induction atoms generalizing σ with
  | nil => exact h
  | cons a atoms ih =>
    rw [excludeOthers]
    refine ih (fun b hb => hatoms b (List.mem_cons_of_mem a hb)) ?_
    split
    · obtain ⟨hsymbol, htrue⟩ := hatoms a List.mem_cons_self
      exact excludeImages_extendedBy hM (hsymbol ▸ hs) htrue h
    · exact h

theorem cleanPartial_extendedBy (hM : X.IsStructure M) (hs : s ∈ X.functions) (h : σ.ExtendedBy M) :
    (X.cleanPartial s σ).ExtendedBy M := by
  rw [cleanPartial]
  split
  · refine excludeOthers_extendedBy hM hs (fun a ha => ?_) h
    simp only [List.mem_filter, Bool.and_eq_true, decide_eq_true_eq] at ha
    exact ⟨ha.2.1, h.1 a ha.2.2⟩
  · exact h

-- a graph with as many tuples as there are inputs has a tuple for each of them
theorem exists_image (hsize : X.tableSize s σ.ct = (X.domain s).card) (hfunctional : X.functional s σ = true)
    (ha : X.symbol a = s) : ∃ b, X.symbol b = s ∧ X.input b = X.input a ∧ σ.ct b = true := by
  have hinjective := of_decide_eq_true hfunctional
  set graph := Finset.univ.filter fun a => X.symbol a = s ∧ σ.ct a = true with hgraph
  have hmem : ∀ b, b ∈ graph ↔ X.symbol b = s ∧ σ.ct b = true := fun b => by simp [hgraph]
  have hsubset : graph.image X.input ⊆ X.domain s := by
    intro i hi
    obtain ⟨b, hb, rfl⟩ := Finset.mem_image.mp hi
    exact ((hmem b).mp hb).1 ▸ X.input_mem b
  have hcard : (graph.image X.input).card = graph.card := Finset.card_image_of_injOn fun b hb c hc heq =>
    hinjective b c ((hmem b).mp hb).1 ((hmem c).mp hc).1 heq ((hmem b).mp hb).2 ((hmem c).mp hc).2
  have heq : graph.image X.input = X.domain s :=
    Finset.eq_of_subset_of_card_le hsubset (by rw [hcard, ← hsize, tableSize])
  have hinput : X.input a ∈ graph.image X.input := by
    rw [heq]
    exact ha ▸ X.input_mem a
  obtain ⟨b, hb, hinput⟩ := Finset.mem_image.mp hinput
  exact ⟨b, ((hmem b).mp hb).1, hinput, ((hmem b).mp hb).2⟩

theorem toFuncTable_extendedBy (hM : X.IsStructure M) (hs : s ∈ X.functions) (h : σ.ExtendedBy M)
    (hresult : X.toFuncTable s σ = some τ) : τ.ExtendedBy M := by
  rw [toFuncTable] at hresult
  split at hresult
  · next hsize =>
    split at hresult
    · next hfunctional =>
      obtain rfl := Option.some.inj hresult
      refine setTables_extendedBy h fun a ha => ⟨h.1 a, fun hct => ?_⟩
      by_contra htrue
      obtain ⟨b, hb, hinput, htb⟩ := exists_image hsize hfunctional ha
      have heq := (hM s hs).1 a b ha hb hinput.symm (eq_true_of_ne_false htrue) (h.1 b htb)
      rw [heq] at hct
      simp [htb] at hct
    · exact nomatch hresult
  · exact Option.some.inj hresult ▸ h

theorem cleanFunctions_extendedBy (hM : X.IsStructure M) (hsymbols : ∀ s ∈ symbols, s ∈ X.functions)
    (h : σ.ExtendedBy M) (hresult : X.cleanFunctions symbols σ = some τ) : τ.ExtendedBy M := by
  induction symbols generalizing σ with
  | nil => exact Option.some.inj hresult ▸ h
  | cons s symbols ih =>
    obtain ⟨σ', hσ', hresult⟩ := Option.bind_eq_some_iff.mp hresult
    refine ih (fun s' hs' => hsymbols s' (List.mem_cons_of_mem s hs')) ?_ hresult
    rw [cleanFunction, if_pos (isConsistentOn_of_extendedBy h s)] at hσ'
    exact toFuncTable_extendedBy hM (hsymbols s List.mem_cons_self)
      (cleanPartial_extendedBy hM (hsymbols s List.mem_cons_self) h) hσ'

end Extended

section Frame

theorem removeInterpretation_of_defined (ha : X.symbol a ∈ X.defsymbols d) :
    (X.removeInterpretationOfDefinedSymbols d σ).ct a = false ∧
      (X.removeInterpretationOfDefinedSymbols d σ).cf a = false := by
  simp [removeInterpretationOfDefinedSymbols, isDefined, ha]

theorem removeInterpretation_of_not_defined (ha : X.symbol a ∉ X.defsymbols d) :
    (X.removeInterpretationOfDefinedSymbols d σ).ct a = σ.ct a ∧
      (X.removeInterpretationOfDefinedSymbols d σ).cf a = σ.cf a := by
  simp [removeInterpretationOfDefinedSymbols, isDefined, ha]

theorem setTables_of_eq (ha : X.symbol a = s) :
    (X.setTables s τ σ).ct a = τ.ct a ∧ (X.setTables s τ σ).cf a = τ.cf a := by simp [setTables, ha]

theorem setTables_of_ne (ha : X.symbol a ≠ s) :
    (X.setTables s τ σ).ct a = σ.ct a ∧ (X.setTables s τ σ).cf a = σ.cf a := by simp [setTables, ha]

theorem queryLoop_frame (ha : X.symbol a ∉ symbols) :
    (X.queryLoop τ symbols σ).1.ct a = σ.ct a ∧ (X.queryLoop τ symbols σ).1.cf a = σ.cf a := by
  induction symbols generalizing σ with
  | nil => exact ⟨rfl, rfl⟩
  | cons s symbols ih =>
    rw [List.mem_cons, not_or] at ha
    set σ' := if X.sameSizes s σ τ then σ else X.setTables s τ σ with hσ'
    have hsame : σ'.ct a = σ.ct a ∧ σ'.cf a = σ.cf a := by
      rw [hσ']
      split
      · exact ⟨rfl, rfl⟩
      · exact setTables_of_ne ha.1
    have hloop := @ih σ' ha.2
    simp only [queryLoop, ← hσ']
    split
    · exact hsame
    split
    · exact hsame
    · exact ⟨hloop.1.trans hsame.1, hloop.2.trans hsame.2⟩

theorem queryLoop_answers (hblank : ∀ a, X.symbol a ∈ symbols →
      ((σ.ct a = true → τ.ct a = true) ∧ (σ.cf a = true → τ.cf a = true)))
    (h : (X.queryLoop τ symbols σ).2 = true) (ha : X.symbol a ∈ symbols) :
    (X.queryLoop τ symbols σ).1.ct a = τ.ct a ∧ (X.queryLoop τ symbols σ).1.cf a = τ.cf a := by
  induction symbols generalizing σ with
  | nil => exact nomatch ha
  | cons s symbols ih =>
    set σ' := if X.sameSizes s σ τ then σ else X.setTables s τ σ with hσ'
    have hs : ∀ b, X.symbol b = s → σ'.ct b = τ.ct b ∧ σ'.cf b = τ.cf b := by
      intro b hb
      rw [hσ']
      split
      · next hsizes => exact eq_of_sameSizes (fun c hc => hblank c (hc ▸ List.mem_cons_self)) hsizes hb
      · exact setTables_of_eq hb
    have hblank' : ∀ b, X.symbol b ∈ symbols →
        (σ'.ct b = true → τ.ct b = true) ∧ (σ'.cf b = true → τ.cf b = true) := by
      intro b hb
      by_cases hbs : X.symbol b = s
      · rw [(hs b hbs).1, (hs b hbs).2]
        exact ⟨id, id⟩
      · rw [hσ']
        split
        · exact hblank b (List.mem_cons_of_mem s hb)
        · rw [(setTables_of_ne hbs).1, (setTables_of_ne hbs).2]
          exact hblank b (List.mem_cons_of_mem s hb)
    simp only [queryLoop, ← hσ'] at h ⊢
    split at h
    · exact nomatch h
    next hconsistent =>
      split at h
      · exact nomatch h
      next hfunction =>
        rw [if_neg hconsistent, if_neg hfunction]
        by_cases hmem : X.symbol a ∈ symbols
        · exact ih hblank' h hmem
        · rcases List.mem_cons.mp ha with heq | hmem'
          · have hframe := @queryLoop_frame _ _ _ _ _ _ _ _ _ X σ' τ a symbols hmem
            exact ⟨hframe.1.trans (hs a heq).1, hframe.2.trans (hs a heq).2⟩
          · exact absurd hmem' hmem

theorem queried_subset (h : s ∈ X.queried d) : s ∈ X.defsymbols d := by
  rw [queried] at h
  split at h
  · exact h
  · exact (List.mem_filter.mp h).1

theorem processed_frame (ha : X.symbol a ∉ X.defsymbols d) :
    (X.processed d σ).1.ct a = σ.ct a ∧ (X.processed d σ).1.cf a = σ.cf a := by
  have hwiped := @removeInterpretation_of_not_defined _ _ _ _ _ _ _ _ _ X σ d a ha
  simp only [processed, processDefinition]
  split
  · have hloop := @queryLoop_frame _ _ _ _ _ _ _ _ _ X (X.removeInterpretationOfDefinedSymbols d σ)
      (X.answers d (X.removeInterpretationOfDefinedSymbols d σ)) a (X.queried d) fun h => ha (queried_subset h)
    exact ⟨hloop.1.trans hwiped.1, hloop.2.trans hwiped.2⟩
  · exact hwiped

theorem processed_answers (hxsb : X.usesXSB d = true) (h : (X.processed d σ).2 = true)
    (ha : X.symbol a ∈ X.queried d) :
    (X.processed d σ).1.ct a = (X.answers d (X.removeInterpretationOfDefinedSymbols d σ)).ct a ∧
      (X.processed d σ).1.cf a = (X.answers d (X.removeInterpretationOfDefinedSymbols d σ)).cf a := by
  simp only [processed, processDefinition, if_pos hxsb, Bool.and_eq_true] at h ⊢
  refine queryLoop_answers (fun b hb => ?_) h.1 ha
  have hblank := @removeInterpretation_of_defined _ _ _ _ _ _ _ _ _ X σ d b (queried_subset hb)
  rw [hblank.1, hblank.2]
  exact ⟨nofun, nofun⟩

theorem insertOld_of_eq (ha : X.symbol a = s) :
    (X.insertOld old s σ).ct a = (σ.ct a || old.ct a) ∧ (X.insertOld old s σ).cf a = (σ.cf a || old.cf a) := by
  simp [insertOld, ha]

theorem insertOld_of_ne (ha : X.symbol a ≠ s) :
    (X.insertOld old s σ).ct a = σ.ct a ∧ (X.insertOld old s σ).cf a = σ.cf a := by
  simp [insertOld, ha]

theorem le_insertOld : σ.Le (X.insertOld old s σ) :=
  ⟨fun a ha => by simp [insertOld, ha], fun a ha => by simp [insertOld, ha]⟩

theorem postprocess_le : σ.Le (X.postprocess old symbols σ refined).1 := by
  induction symbols generalizing σ refined with
  | nil => exact .refl
  | cons s symbols ih =>
    rw [postprocess]
    split
    · exact le_insertOld.trans ih
    · exact le_insertOld

theorem postprocess_frame (ha : X.symbol a ∉ symbols) :
    (X.postprocess old symbols σ refined).1.ct a = σ.ct a ∧ (X.postprocess old symbols σ refined).1.cf a = σ.cf a := by
  induction symbols generalizing σ refined with
  | nil => exact ⟨rfl, rfl⟩
  | cons s symbols ih =>
    rw [List.mem_cons, not_or] at ha
    have hinsert := @insertOld_of_ne _ _ _ _ _ _ _ _ _ X σ old s a ha.1
    rw [postprocess]
    split
    · have hrest := @ih (X.insertOld old s σ) (if X.sameSizes s old (X.insertOld old s σ) then refined else s :: refined)
        ha.2
      exact ⟨hrest.1.trans hinsert.1, hrest.2.trans hinsert.2⟩
    · exact hinsert

theorem postprocess_old (ha : X.symbol a ∈ symbols) (hleft : X.symbol a ∉ X.leftOut old symbols σ) :
    (old.ct a = true → (X.postprocess old symbols σ refined).1.ct a = true) ∧
      (old.cf a = true → (X.postprocess old symbols σ refined).1.cf a = true) := by
  induction symbols generalizing σ refined with
  | nil => exact nomatch ha
  | cons s symbols ih =>
    have hinsert : X.symbol a = s → (old.ct a = true → (X.insertOld old s σ).ct a = true) ∧
        (old.cf a = true → (X.insertOld old s σ).cf a = true) := by
      intro hs
      rw [(insertOld_of_eq hs).1, (insertOld_of_eq hs).2]
      exact ⟨fun h => by simp [h], fun h => by simp [h]⟩
    rw [leftOut] at hleft
    rw [postprocess]
    split
    · next hconsistent =>
      rw [if_pos hconsistent] at hleft
      by_cases hmem : X.symbol a ∈ symbols
      · exact ih hmem hleft
      · have hs := (List.mem_cons.mp ha).resolve_right hmem
        exact ⟨fun h => postprocess_le.1 a ((hinsert hs).1 h), fun h => postprocess_le.2 a ((hinsert hs).2 h)⟩
    · next hconsistent =>
      rw [if_neg hconsistent] at hleft
      exact hinsert ((List.mem_cons.mp ha).resolve_right hleft)

-- what merging does to a symbol it does when the symbol is visited
structure Merged (X : Inference S A I R) (old : Tables A) (s : S) (σ τ : Tables A) : Prop where
  ct : ∀ a, X.symbol a = s → τ.ct a = (σ.ct a || old.ct a)
  cf : ∀ a, X.symbol a = s → τ.cf a = (σ.cf a || old.cf a)

theorem postprocess_merged (h : (X.postprocess old symbols σ refined).2.2 = true) (hs : s ∈ symbols) :
    Merged X old s σ (X.postprocess old symbols σ refined).1 := by
  induction symbols generalizing σ refined with
  | nil => exact nomatch hs
  | cons s' symbols ih =>
    rw [postprocess] at h ⊢
    split at h
    · next hconsistent =>
      rw [if_pos hconsistent]
      by_cases hmem : s ∈ symbols
      · have hmerged := ih h hmem
        constructor
        · intro a ha
          rw [hmerged.ct a ha]
          by_cases heq : X.symbol a = s'
          · rw [(insertOld_of_eq heq).1, Bool.or_assoc, Bool.or_self]
          · rw [(insertOld_of_ne heq).1]
        · intro a ha
          rw [hmerged.cf a ha]
          by_cases heq : X.symbol a = s'
          · rw [(insertOld_of_eq heq).2, Bool.or_assoc, Bool.or_self]
          · rw [(insertOld_of_ne heq).2]
      · obtain rfl := (List.mem_cons.mp hs).resolve_right hmem
        constructor
        · intro a ha
          rw [(postprocess_frame (ha ▸ hmem)).1, (insertOld_of_eq ha).1]
        · intro a ha
          rw [(postprocess_frame (ha ▸ hmem)).2, (insertOld_of_eq ha).2]
    · exact nomatch h

theorem postprocess_consistent (h : (X.postprocess old symbols σ refined).2.2 = true) (hs : s ∈ symbols) :
    X.isConsistentOn s (X.postprocess old symbols σ refined).1 = true := by
  induction symbols generalizing σ refined with
  | nil => exact nomatch hs
  | cons s' symbols ih =>
    rw [postprocess] at h ⊢
    split at h
    · next hconsistent =>
      rw [if_pos hconsistent]
      by_cases hmem : s ∈ symbols
      · exact ih h hmem
      · obtain rfl := (List.mem_cons.mp hs).resolve_right hmem
        refine decide_eq_true fun a ha hboth => of_decide_eq_true hconsistent a ha ?_
        rwa [(postprocess_frame (ha ▸ hmem)).1, (postprocess_frame (ha ▸ hmem)).2] at hboth
    · exact nomatch h

theorem postprocess_refined (h : (X.postprocess old symbols σ refined).2.2 = true) :
    s ∈ (X.postprocess old symbols σ refined).2.1 ↔ s ∈ refined ∨
      s ∈ symbols ∧ X.sameSizes s old (X.postprocess old symbols σ refined).1 = false := by
  induction symbols generalizing σ refined with
  | nil => simp [postprocess]
  | cons s' symbols ih =>
    have hmerged := postprocess_merged h List.mem_cons_self
    rw [postprocess] at h hmerged ⊢
    split at h
    · next hconsistent =>
      rw [if_pos hconsistent] at hmerged ⊢
      -- the sizes of the symbol are final when it is visited
      have hfinal := sameSizes_congr (X := X) (s := s') (σ := X.insertOld old s' σ) (fun a ha =>
        ⟨(insertOld_of_eq ha).1.trans (hmerged.ct a ha).symm, (insertOld_of_eq ha).2.trans (hmerged.cf a ha).symm⟩) old
      rw [ih h, List.mem_cons]
      split
      · next hsame =>
        rw [hsame] at hfinal
        refine or_congr_right ⟨fun hs => ⟨.inr hs.1, hs.2⟩, fun hs => ⟨hs.1.resolve_left ?_, hs.2⟩⟩
        rintro rfl
        exact Bool.false_ne_true (hs.2.symm.trans hfinal.symm)
      · next hsame =>
        rw [eq_false_of_ne_true hsame] at hfinal
        rw [List.mem_cons]
        constructor
        · rintro ((rfl | hs) | ⟨hs, hsizes⟩)
          · exact .inr ⟨.inl rfl, hfinal.symm⟩
          · exact .inl hs
          · exact .inr ⟨.inr hs, hsizes⟩
        · rintro (hs | ⟨rfl | hs, hsizes⟩)
          · exact .inl (.inr hs)
          · exact .inl (.inl rfl)
          · exact .inr ⟨hs, hsizes⟩
    · exact nomatch h

end Frame

section Clean

theorem excludeImages_of_functional (hfunctional : X.functional s σ = true) (ha : X.symbol a = s)
    (hct : σ.ct a = true) : (X.excludeImages a σ).ct = σ.ct := by
  funext b
  simp only [excludeImages]
  cases hb : σ.ct b with
  | false => simp
  | true =>
    have hnot : ¬(X.symbol b = X.symbol a ∧ X.input b = X.input a ∧ b ≠ a) := fun ⟨hsymbol, hinput, hne⟩ =>
      hne (of_decide_eq_true hfunctional b a (hsymbol.trans ha) ha hinput hb hct)
    simp [hnot]

theorem isConsistentOn_excludeImages (h : X.isConsistentOn s σ = true) :
    X.isConsistentOn s (X.excludeImages a σ) = true := by
  refine decide_eq_true fun b hb hboth => of_decide_eq_true h b hb ?_
  simp only [excludeImages, Bool.and_eq_true, Bool.or_eq_true, Bool.not_eq_true', decide_eq_false_iff_not,
    decide_eq_true_eq] at hboth
  exact ⟨hboth.1.2, hboth.2.resolve_left hboth.1.1⟩

-- without a second image only tuples that are not certainly true become false
structure Grown (X : Inference S A I R) (s : S) (σ τ : Tables A) : Prop where
  ct : τ.ct = σ.ct
  le : σ.Le τ
  consistent : X.isConsistentOn s τ = true

theorem excludeOthers_grown (hfunctional : X.functional s σ = true) (hconsistent : X.isConsistentOn s σ = true)
    {shared : Bool} {atoms : List A} (hatoms : ∀ a ∈ atoms, X.symbol a = s ∧ σ.ct a = true) :
    Grown X s σ (X.excludeOthers shared atoms σ) := by
  induction atoms generalizing σ with
  | nil => exact ⟨rfl, .refl, hconsistent⟩
  | cons a atoms ih =>
    obtain ⟨ha, hct⟩ := hatoms a List.mem_cons_self
    have hsame := excludeImages_of_functional hfunctional ha hct
    rw [excludeOthers, hct, Bool.or_true, if_pos rfl]
    obtain ⟨hct', hle, hconsistent'⟩ := @ih (X.excludeImages a σ) (by rwa [functional, hsame])
      (isConsistentOn_excludeImages hconsistent) fun b hb => by
        rw [hsame]
        exact hatoms b (List.mem_cons_of_mem a hb)
    refine ⟨hct'.trans hsame, .trans ⟨fun b hb => by rwa [hsame], fun b hb => ?_⟩ hle, hconsistent'⟩
    simp [excludeImages, hb]

theorem cleanPartial_grown (hfunctional : X.functional s σ = true) (hconsistent : X.isConsistentOn s σ = true) :
    Grown X s σ (X.cleanPartial s σ) := by
  rw [cleanPartial]
  split
  · refine excludeOthers_grown hfunctional hconsistent fun a ha => ?_
    simpa using (List.mem_filter.mp ha).2
  · exact ⟨rfl, .refl, hconsistent⟩

theorem cleanFunction_grown (hfunctional : X.functional s σ = true) :
    ∃ τ, X.cleanFunction s σ = some τ ∧ τ.ct = σ.ct ∧ σ.Le τ := by
  rw [cleanFunction]
  split
  · next hconsistent =>
    obtain ⟨hct, hle, hconsistent'⟩ := cleanPartial_grown hfunctional hconsistent
    have hfunctional' : X.functional s (X.cleanPartial s σ) = true := by rwa [functional, hct]
    rw [toFuncTable]
    split
    · refine ⟨_, rfl, ?_, hle.trans ⟨fun a ha => ?_, fun a ha => ?_⟩⟩
      · rw [← hct]
        funext a
        simp [setTables]
      · simpa [setTables] using ha
      · simp only [setTables]
        split
        · next hs =>
          have hnot := of_decide_eq_true hconsistent' a hs
          simpa [ha] using hnot
        · exact ha
    · exact ⟨_, rfl, hct, hle⟩
  · exact ⟨σ, rfl, rfl, .refl⟩

theorem cleanFunctions_grown (hfunctional : ∀ s ∈ symbols, X.functional s σ = true) :
    ∃ τ, X.cleanFunctions symbols σ = some τ ∧ σ.Le τ := by
  induction symbols generalizing σ with
  | nil => exact ⟨σ, rfl, .refl⟩
  | cons s symbols ih =>
    obtain ⟨σ', hσ', hct, hle⟩ := cleanFunction_grown (hfunctional s List.mem_cons_self)
    obtain ⟨τ, hτ, hle'⟩ := @ih σ' fun s' hs' => by
      rw [functional, hct]
      exact hfunctional s' (List.mem_cons_of_mem s hs')
    exact ⟨τ, by rw [cleanFunctions, hσ', Option.bind_some, hτ], hle.trans hle'⟩

end Clean

section Known

def Known (σ : Tables A) (a : A) : Prop := σ.ct a = true ∨ σ.cf a = true

theorem Known.mono (hle : σ.Le τ) (h : Known σ a) : Known τ a := h.imp (hle.1 a) (hle.2 a)

theorem known_excludeOthers {shared : Bool} {atoms : List A} (h : Known σ a) :
    Known (X.excludeOthers shared atoms σ) a := by
  induction atoms generalizing σ with
  | nil => exact h
  | cons b atoms ih =>
    rw [excludeOthers]
    refine ih ?_
    split
    · by_cases hother : X.symbol a = X.symbol b ∧ X.input a = X.input b ∧ a ≠ b
      · exact .inr (by simp [excludeImages, hother])
      · simpa only [Known, excludeImages, decide_eq_false hother, Bool.not_false, Bool.true_and, Bool.false_or] using h
    · exact h

-- clean leaves no known atom unknown, whatever it makes of it
theorem known_cleanFunctions (hresult : X.cleanFunctions symbols σ = some τ) (h : Known σ a) : Known τ a := by
  induction symbols generalizing σ with
  | nil => exact Option.some.inj hresult ▸ h
  | cons s symbols ih =>
    obtain ⟨σ', hσ', hresult⟩ := Option.bind_eq_some_iff.mp hresult
    refine ih hresult ?_
    have hkept : Known (X.cleanPartial s σ) a := by
      rw [cleanPartial]
      split
      · exact known_excludeOthers h
      · exact h
    rw [cleanFunction] at hσ'
    split at hσ'
    · rw [toFuncTable] at hσ'
      split at hσ'
      · split at hσ'
        · obtain rfl := Option.some.inj hσ'
          simp only [Known, setTables]
          split
          · cases (X.cleanPartial s σ).ct a <;> simp
          · exact hkept
        · exact nomatch hσ'
      · exact Option.some.inj hσ' ▸ hkept
    · exact Option.some.inj hσ' ▸ h

end Known

section Steps

variable {definitions : Finset R} {c c' : Config A R} {allowed : R → Tables A → Prop}
  {satisfies : R → (A → Bool) → Prop}

-- a step ends without a model, before or while the old interpretations are put back, or it cleans the structure
inductive Outcome (X : Inference S A I R) (definitions : Finset R) (d : R) (c : Config A R) : Config A R → Prop
  | rejected (h : (X.processed d c.structure_).2 = false) :
      Outcome X definitions d c ⟨c.definitionsToProcess.erase d, (X.processed d c.structure_).1, false⟩
  | inconsistent (h : (X.processed d c.structure_).2 = true) (hpost : (X.postprocessed d c.structure_).2.2 = false) :
      Outcome X definitions d c ⟨c.definitionsToProcess.erase d, (X.postprocessed d c.structure_).1, false⟩
  | refined {τ : Tables A} (h : (X.processed d c.structure_).2 = true) (hpost : (X.postprocessed d c.structure_).2.2 = true)
      (hclean : X.clean (X.postprocessed d c.structure_).1 = some τ) :
      Outcome X definitions d c ⟨X.requeue definitions (X.postprocessed d c.structure_).2.1
        (c.definitionsToProcess.erase d), τ, true⟩

theorem next_outcome (h : X.next definitions d c = some c') : Outcome X definitions d c c' := by
  simp only [next] at h
  split at h
  · next hprocessed => exact Option.some.inj h ▸ .rejected hprocessed
  next hprocessed =>
    have hprocessed' := eq_true_of_ne_false hprocessed
    split at h
    · next hpost => exact Option.some.inj h ▸ .inconsistent hprocessed' hpost
    next hpost =>
      obtain ⟨τ, hclean, rfl⟩ := Option.map_eq_some_iff.mp h
      exact .refined hprocessed' (eq_true_of_ne_false hpost) hclean

theorem processed_extendedBy (hsound : X.Sound satisfies) (hM : X.IsStructure M) (hd : satisfies d M)
    (h : σ.ExtendedBy M) : (X.processed d σ).2 = true ∧ (X.processed d σ).1.ExtendedBy M := by
  have hwiped : (X.removeInterpretationOfDefinedSymbols d σ).ExtendedBy M := by
    constructor
    · intro a ha
      simp only [removeInterpretationOfDefinedSymbols, Bool.and_eq_true] at ha
      exact h.1 a ha.2
    · intro a ha
      simp only [removeInterpretationOfDefinedSymbols, Bool.and_eq_true] at ha
      exact h.2 a ha.2
  simp only [processed, processDefinition]
  split
  · obtain ⟨hmodel, hextended⟩ := @queryLoop_extendedBy _ _ _ _ _ _ _ _ _ X _ _ M (X.queried d) hM hwiped fun a ha =>
      hsound d _ M hM hd hwiped a (queried_subset ha)
    refine ⟨?_, hextended⟩
    rw [hmodel, Bool.true_and]
    exact decide_eq_true fun a hboth =>
      Bool.false_ne_true ((hextended.2 a hboth.2).symm.trans (hextended.1 a hboth.1))
  · exact ⟨rfl, hwiped⟩

theorem next_extendedBy (hsound : X.Sound satisfies) (hM : X.IsStructure M) (hd : satisfies d M)
    (h : c.structure_.ExtendedBy M) (hnext : X.next definitions d c = some c') :
    c'.hasModel = true ∧ c'.structure_.ExtendedBy M := by
  obtain ⟨hmodel, hprocessed⟩ := processed_extendedBy hsound hM hd h
  have hpostprocessed := @postprocess_extendedBy _ _ _ _ _ _ _ _ _ X _ _ M (X.defsymbols d) [] hprocessed h
  cases next_outcome hnext with
  | rejected hfalse => exact absurd hmodel (by rw [hfalse]; exact Bool.false_ne_true)
  | inconsistent _ hpost => exact absurd hpostprocessed.1 (by rw [← postprocessed, hpost]; exact Bool.false_ne_true)
  | refined _ _ hclean => exact ⟨rfl, cleanFunctions_extendedBy hM (fun s hs => hs) hpostprocessed.2 hclean⟩

theorem queue_subset (hc : c.definitionsToProcess ⊆ definitions) (hnext : X.next definitions d c = some c') :
    c'.definitionsToProcess ⊆ definitions := by
  have herase := (Finset.erase_subset d c.definitionsToProcess).trans hc
  cases next_outcome hnext with
  | rejected => exact herase
  | inconsistent => exact herase
  | refined => exact Finset.union_subset herase (Finset.filter_subset _ _)

theorem exists_new (hpost : (X.postprocessed d σ).2.2 = true) (hs : s ∈ (X.postprocessed d σ).2.1) :
    ∃ a, Known (X.postprocessed d σ).1 a ∧ ¬Known σ a := by
  obtain ⟨hdefined, hsizes⟩ := ((postprocess_refined hpost).mp hs).resolve_left (List.not_mem_nil)
  have hmerged := postprocess_merged hpost hdefined
  have hconsistent := of_decide_eq_true (postprocess_consistent hpost hdefined)
  by_contra hnone
  push Not at hnone
  refine Bool.false_ne_true (hsizes.symm.trans (sameSizes_of_eq fun a ha => ?_))
  have hct := hmerged.ct a ha
  have hcf := hmerged.cf a ha
  have hboth := hconsistent a ha
  have hknown : Known (X.postprocessed d σ).1 a → Known σ a := hnone a
  rw [postprocessed] at hknown
  simp only [Known] at hknown
  cases hσt : σ.ct a <;> cases hσf : σ.cf a <;> simp_all

def unknown (σ : Tables A) : ℕ := (Finset.univ.filter fun a => ¬(σ.ct a = true ∨ σ.cf a = true)).card

theorem unknown_le (h : ∀ a, Known σ a → Known τ a) : unknown τ ≤ unknown σ :=
  Finset.card_le_card fun a ha => by
    simp only [Finset.mem_filter, Finset.mem_univ, true_and] at ha ⊢
    exact fun hσ => ha (h a hσ)

theorem unknown_lt (h : ∀ a, Known σ a → Known τ a) (hnew : Known τ a) (hold : ¬Known σ a) :
    unknown τ < unknown σ := by
  refine Finset.card_lt_card ⟨fun b hb => ?_, fun hsubset => ?_⟩
  · simp only [Finset.mem_filter, Finset.mem_univ, true_and] at hb ⊢
    exact fun hσ => hb (h b hσ)
  · have hmem := hsubset (Finset.mem_filter.mpr ⟨Finset.mem_univ a, hold⟩)
    exact (Finset.mem_filter.mp hmem).2 hnew

theorem known_postprocessed (hpost : (X.postprocessed d σ).2.2 = true) (h : Known σ a) :
    Known (X.postprocessed d σ).1 a := by
  by_cases hdefined : X.symbol a ∈ X.defsymbols d
  · have hmerged := postprocess_merged hpost hdefined
    refine h.imp (fun hct => ?_) fun hcf => ?_
    · rw [postprocessed, hmerged.ct a rfl, hct, Bool.or_true]
    · rw [postprocessed, hmerged.cf a rfl, hcf, Bool.or_true]
  · have hframe := @processed_frame _ _ _ _ _ _ _ _ _ X σ d a hdefined
    have hframe' := @postprocess_frame _ _ _ _ _ _ _ _ _ X (X.processed d σ).1 σ a (X.defsymbols d) [] hdefined
    rwa [Known, postprocessed, hframe'.1, hframe'.2, hframe.1, hframe.2]

def weight (c : Config A R) : ℕ ×ₗ (ℕ ×ₗ ℕ) :=
  toLex (if c.hasModel then 1 else 0, toLex (unknown c.structure_, c.definitionsToProcess.card))

theorem weight_step (h : X.Step definitions allowed c c') : weight c' < weight c := by
  obtain ⟨hmodel, d, hd, -, hnext⟩ := h
  have hcard := Finset.card_erase_lt_of_mem hd
  cases next_outcome hnext with
  | rejected => exact Prod.Lex.toLex_lt_toLex.mpr (.inl (by simp [hmodel]))
  | inconsistent => exact Prod.Lex.toLex_lt_toLex.mpr (.inl (by simp [hmodel]))
  | @refined τ _ hpost hclean =>
    have hknown : ∀ a, Known c.structure_ a → Known τ a := fun a ha =>
      known_cleanFunctions hclean (known_postprocessed hpost ha)
    refine Prod.Lex.toLex_lt_toLex.mpr (.inr ⟨by simp [hmodel], ?_⟩)
    cases hrefined : (X.postprocessed d c.structure_).2.1 with
    | nil =>
      refine Prod.Lex.toLex_lt_toLex.mpr ?_
      rcases (unknown_le hknown).lt_or_eq with hlt | heq
      · exact .inl hlt
      · refine .inr ⟨heq, ?_⟩
        simpa [requeue] using hcard
    | cons s refined =>
      obtain ⟨a, hnew, hold⟩ := exists_new hpost (s := s) (by rw [hrefined]; exact List.mem_cons_self)
      exact Prod.Lex.toLex_lt_toLex.mpr (.inl (unknown_lt hknown (known_cleanFunctions hclean hnew) hold))

theorem acc_step (c : Config A R) : Acc (fun c' c => X.Step definitions allowed c c') c :=
  Subrelation.accessible (fun h => weight_step h) ((InvImage.wf weight wellFounded_lt).apply c)

theorem le_processed (h : X.Harmless definitions d σ) (hfalse : (X.processed d σ).2 = false) :
    σ.Le (X.processed d σ).1 := by
  have hnot : X.notRestored d σ = X.defsymbols d := by simp [notRestored, hfalse]
  have hrestored := h.restored
  rw [hnot] at hrestored
  constructor
  · intro a ha
    by_cases hdefined : X.symbol a ∈ X.defsymbols d
    · exact (hrestored a hdefined).1 ha
    · rwa [(processed_frame hdefined).1]
  · intro a ha
    by_cases hdefined : X.symbol a ∈ X.defsymbols d
    · exact (hrestored a hdefined).2 ha
    · rwa [(processed_frame hdefined).2]

theorem le_postprocessed (h : X.Harmless definitions d σ) (htrue : (X.processed d σ).2 = true) :
    σ.Le (X.postprocessed d σ).1 := by
  have hnot : X.notRestored d σ = X.leftOut σ (X.defsymbols d) (X.processed d σ).1 := by simp [notRestored, htrue]
  have hrestored := h.restored
  rw [hnot] at hrestored
  have hle := @postprocess_le _ _ _ _ _ _ _ _ _ X (X.processed d σ).1 σ (X.defsymbols d) []
  have hback : ∀ a, (σ.ct a = true → (X.postprocessed d σ).1.ct a = true) ∧
      (σ.cf a = true → (X.postprocessed d σ).1.cf a = true) := by
    intro a
    by_cases hdefined : X.symbol a ∈ X.defsymbols d
    · by_cases hleft : X.symbol a ∈ X.leftOut σ (X.defsymbols d) (X.processed d σ).1
      · exact ⟨fun ha => hle.1 a ((hrestored a hleft).1 ha), fun ha => hle.2 a ((hrestored a hleft).2 ha)⟩
      · exact postprocess_old hdefined hleft
    · have hframe := @processed_frame _ _ _ _ _ _ _ _ _ X σ d a hdefined
      exact ⟨fun ha => hle.1 a (by rwa [hframe.1]), fun ha => hle.2 a (by rwa [hframe.2])⟩
  exact ⟨fun a => (hback a).1, fun a => (hback a).2⟩

theorem le_next (h : X.Harmless definitions d c.structure_) (hnext : X.next definitions d c = some c') :
    c.structure_.Le c'.structure_ := by
  cases next_outcome hnext with
  | rejected hfalse => exact le_processed h hfalse
  | inconsistent htrue => exact le_postprocessed h htrue
  | refined htrue hpost hclean =>
    obtain ⟨τ', hτ', hle⟩ := cleanFunctions_grown (h.functional htrue hpost)
    obtain rfl := Option.some.inj (hclean.symm.trans hτ')
    exact (le_postprocessed h htrue).trans hle

theorem exists_next (h : X.Harmless definitions d c.structure_) : ∃ c', X.next definitions d c = some c' := by
  simp only [next]
  split
  · exact ⟨_, rfl⟩
  next hprocessed =>
    split
    · exact ⟨_, rfl⟩
    next hpost =>
      obtain ⟨τ, hτ, -⟩ := cleanFunctions_grown
        (h.functional (eq_true_of_ne_false hprocessed) (eq_true_of_ne_false hpost))
      exact ⟨_, by rw [clean, hτ, Option.map_some]⟩

theorem answers_congr (h : ∀ a, X.symbol a ∈ X.opens d → σ.ct a = τ.ct a ∧ σ.cf a = τ.cf a) :
    X.answers d σ = X.answers d τ := by
  have hopens : X.openTables d σ = X.openTables d τ := by
    ext a
    · by_cases ha : X.symbol a ∈ X.opens d
      · simp [openTables, (h a ha).1]
      · simp [openTables, ha]
    · by_cases ha : X.symbol a ∈ X.opens d
      · simp [openTables, (h a ha).2]
      · simp [openTables, ha]
  rw [answers, answers, hopens]

-- a symbol that is not refined keeps its tables until the structure is cleaned
theorem postprocessed_of_not_refined (hpost : (X.postprocessed d σ).2.2 = true)
    (ha : X.symbol a ∉ (X.postprocessed d σ).2.1) :
    (X.postprocessed d σ).1.ct a = σ.ct a ∧ (X.postprocessed d σ).1.cf a = σ.cf a := by
  by_cases hdefined : X.symbol a ∈ X.defsymbols d
  · have hmerged := postprocess_merged hpost hdefined
    have hsizes : X.sameSizes (X.symbol a) σ (X.postprocessed d σ).1 = true := by
      by_contra hne
      exact ha ((postprocess_refined hpost).mpr (.inr ⟨hdefined, eq_false_of_ne_true hne⟩))
    have hsame := eq_of_sameSizes (fun b hb => ⟨fun h => by rw [postprocessed, hmerged.ct b hb, h, Bool.or_true],
      fun h => by rw [postprocessed, hmerged.cf b hb, h, Bool.or_true]⟩) hsizes rfl
    exact ⟨hsame.1.symm, hsame.2.symm⟩
  · have hframe := @processed_frame _ _ _ _ _ _ _ _ _ X σ d a hdefined
    have hframe' := @postprocess_frame _ _ _ _ _ _ _ _ _ X (X.processed d σ).1 σ a (X.defsymbols d) [] hdefined
    exact ⟨hframe'.1.trans hframe.1, hframe'.2.trans hframe.2⟩

theorem settled_next (h : X.Harmless definitions d c.structure_)
    (hsettled : ∀ e ∈ definitions, e ∉ c.definitionsToProcess → X.Settled e c.structure_)
    (hnext : X.next definitions d c = some c') (hmodel : c'.hasModel = true) :
    ∀ e ∈ definitions, e ∉ c'.definitionsToProcess → X.Settled e c'.structure_ := by
  have hle := le_next h hnext
  cases next_outcome hnext with
  | rejected => exact nomatch hmodel
  | inconsistent => exact nomatch hmodel
  | @refined τ htrue hpost hclean =>
    intro e he hnot hxsb a ha
    simp only [requeue, Finset.mem_union, Finset.mem_filter, not_or, not_and, not_exists] at hnot
    obtain ⟨herase, hunread⟩ := hnot
    -- the open symbols of the definition are as they were before the step
    have hopens : ∀ b, X.symbol b ∈ X.opens e → τ.ct b = c.structure_.ct b ∧ τ.cf b = c.structure_.cf b := by
      intro b hb
      have hrefined : X.symbol b ∉ (X.postprocessed d c.structure_).2.1 := fun hs => hunread he _ hs hb
      have hsame := postprocessed_of_not_refined hpost hrefined
      have hclean' := h.unchanged htrue hpost τ hclean e he b hb hrefined
      exact ⟨hclean'.1.trans hsame.1, hclean'.2.trans hsame.2⟩
    rw [answers_congr hopens]
    by_cases hed : e = d
    · subst hed
      have hwiped : X.answers e (X.removeInterpretationOfDefinedSymbols e c.structure_) = X.answers e c.structure_ :=
        answers_congr fun b hb => removeInterpretation_of_not_defined (X.opens_undefined e _ hb)
      have hprocessed := processed_answers hxsb htrue ha
      rw [hwiped] at hprocessed
      have hle' := @postprocess_le _ _ _ _ _ _ _ _ _ X (X.processed e c.structure_).1 c.structure_ (X.defsymbols e) []
      obtain ⟨τ', hτ', hcleaned⟩ := cleanFunctions_grown (h.functional htrue hpost)
      obtain rfl := Option.some.inj (hclean.symm.trans hτ')
      exact ⟨fun hct => hcleaned.1 a (hle'.1 a (hprocessed.1.trans hct)),
        fun hcf => hcleaned.2 a (hle'.2 a (hprocessed.2.trans hcf))⟩
    · have hqueue : e ∉ c.definitionsToProcess := fun hmem => herase (Finset.mem_erase.mpr ⟨hed, hmem⟩)
      obtain ⟨hct, hcf⟩ := hsettled e he hqueue hxsb a ha
      exact ⟨fun h => hle.1 a (hct h), fun h => hle.2 a (hcf h)⟩

end Steps

section Runs

variable {definitions : Finset R} {c : Config A R} {allowed : R → Tables A → Prop} {satisfies : R → (A → Bool) → Prop}

theorem Reached.queue_subset (h : X.Reached definitions σ allowed c) : c.definitionsToProcess ⊆ definitions := by
  induction h with
  | refl => exact Finset.Subset.refl _
  | tail _ hstep ih =>
    obtain ⟨-, d, -, -, hnext⟩ := hstep
    exact Inference.queue_subset ih hnext

theorem Reached.extendedBy (hsound : X.Sound satisfies) (hM : X.IsModel satisfies definitions σ M)
    (h : X.Reached definitions σ allowed c) : c.hasModel = true ∧ c.structure_.ExtendedBy M := by
  induction h with
  | refl => exact ⟨rfl, hM.extends_⟩
  | tail hreached hstep ih =>
    obtain ⟨-, d, hd, -, hnext⟩ := hstep
    exact next_extendedBy hsound hM.isStructure (hM.satisfies d (Reached.queue_subset hreached hd)) ih.2 hnext

theorem Reached.le (h : X.Reached definitions σ (X.Harmless definitions) c) : σ.Le c.structure_ := by
  induction h with
  | refl => exact .refl
  | tail _ hstep ih =>
    obtain ⟨-, d, -, hharmless, hnext⟩ := hstep
    exact ih.trans (le_next hharmless hnext)

theorem Reached.settled (h : X.Reached definitions σ (X.Harmless definitions) c) (hmodel : c.hasModel = true) :
    ∀ d ∈ definitions, d ∉ c.definitionsToProcess → X.Settled d c.structure_ := by
  induction h with
  | refl => exact fun d hd hnot => absurd hd hnot
  | tail _ hstep ih =>
    obtain ⟨hmodel', d, -, hharmless, hnext⟩ := hstep
    exact settled_next hharmless (ih hmodel') hnext hmodel

end Runs

-- p is true, and q is true if r is
def factAndRule : Inference (Fin 3) (Fin 3) Unit Unit where
  symbol := id
  input _ := ()
  domain _ := {()}
  input_mem _ := Finset.mem_singleton_self ()
  functions := []
  isPartial _ := false
  defsymbols _ := [0, 1]
  opens _ := [2]
  opens_undefined := by decide
  symbolsToQuery := []
  usesXSB _ := true
  trueAnswers _ τ a := a = 0 || (a = 1 && τ.ct 2)
  unknownAnswers _ τ a := a = 1 && !τ.ct 2 && !τ.cf 2
  approxTwoValued _ _ := false
  order := [0, 1, 2]
  shared _ _ := false

def SatisfiesFactAndRule (_ : Unit) (M : Fin 3 → Bool) : Prop := M 0 = true ∧ M 1 = M 2

theorem sound_factAndRule : factAndRule.Sound SatisfiesFactAndRule := by
  intro d σ M _ hM hσ a ha
  obtain ⟨hfact, hrule⟩ := hM
  have hct := hσ.1 2
  have hcf := hσ.2 2
  fin_cases a
  · simp [answers, factAndRule, hfact]
  · simp only [answers, openTables, factAndRule]
    cases h : σ.ct 2 <;> cases h' : σ.cf 2 <;> simp_all
  · simp [factAndRule] at ha

def openKnown : Tables (Fin 3) := ⟨fun a => a = 2, fun _ => false⟩

-- p and q are known to be false
def definedFalse : Tables (Fin 3) := ⟨fun _ => false, fun a => a ≠ 2⟩

end Inference

end RefineDefinedSymbols
