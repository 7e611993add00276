import DeclarativeLocalSearch.Structure.TwoValuedClean

set_option linter.unusedSectionVars false

namespace TwoValued

variable {P F D : Type} [DecidableEq P] [DecidableEq F] [DecidableEq D]

section Good

variable (voc : Vocabulary P F D)

-- every input of a total function has an image that is not excluded
def Feasible (s : Interpretation P F D) : Prop :=
  ∀ f ∈ voc.funcs, voc.isPartial f = Bool.false → ∀ d ∈ voc.domain f,
    ∃ e ∈ voc.imageSort f, s.value (.graph f d e) ≠ .false

structure Good (original s : Interpretation P F D) : Prop where
  functional : Functional voc s
  tables : Tables voc s
  refines : Extends voc s original
  feasible : Feasible voc original → Feasible voc s

variable {voc} {o s s' t : Interpretation P F D} {f : F} {d : List D} {e : D}

theorem Tables.set (h : Tables voc s) {a : Atom P F D} (ha : s.value a = .unknown) (v : TruthValue) :
    Tables voc (s.set a v) := by
  intro g hg hgt
  obtain ⟨hdec, hass⟩ := h g hg hgt
  exact ⟨hdec.of_extends (extends_set ha) hg, fun d hd => (hass d hd).of_extends (extends_set ha) hg hd⟩

theorem Good.set_true (h : Good voc o s) (ha : s.value (.graph f d e) = .unknown)
    (hno : ∀ e' ∈ voc.imageSort f, s.value (.graph f d e') ≠ .true) :
    Good voc o (s.set (.graph f d e) .true) where
  functional g hg d' hd' e1 he1 e2 he2 h1 h2 := by
    by_cases hgd : g = f ∧ d' = d
    · obtain ⟨rfl, rfl⟩ := hgd
      have only : ∀ e' ∈ voc.imageSort g,
          (s.set (.graph g d' e) .true).value (.graph g d' e') = .true → e' = e := by
        intro e' he' h'
        by_contra hne
        rw [set_other fun heq => hne (Atom.graph.inj heq).2.2] at h'
        exact hno e' he' h'
      rw [only e1 he1 h1, only e2 he2 h2]
    · have other : ∀ e', (Atom.graph g d' e' : Atom P F D) ≠ .graph f d e := fun e' heq =>
        hgd ⟨(Atom.graph.inj heq).1, (Atom.graph.inj heq).2.1⟩
      rw [set_other (other e1)] at h1
      rw [set_other (other e2)] at h2
      exact h.functional g hg d' hd' e1 he1 e2 he2 h1 h2
  tables := h.tables.set ha _
  refines := (extends_set ha).trans h.refines
  feasible hf g hg hp d' hd' := by
    obtain ⟨e', he', hv⟩ := h.feasible hf g hg hp d' hd'
    refine ⟨e', he', ?_⟩
    by_cases heq : (Atom.graph g d' e' : Atom P F D) = .graph f d e
    · rw [heq, set_same]
      exact TruthValue.noConfusion
    · rw [set_other heq]
      exact hv

theorem Good.set_of {a : Atom P F D} {v : TruthValue} (h : Good voc o s) (ha : s.value a = .unknown)
    (hv : ∀ f d e, a = .graph f d e → v = .false ∧ voc.isPartial f = Bool.true) :
    Good voc o (s.set a v) where
  functional g hg d' hd' e1 he1 e2 he2 h1 h2 := by
    have old : ∀ e', (s.set a v).value (.graph g d' e') = .true → s.value (.graph g d' e') = .true := by
      intro e' h'
      by_cases heq : (Atom.graph g d' e' : Atom P F D) = a
      · rw [heq, set_same, (hv g d' e' heq.symm).1] at h'
        exact absurd h' TruthValue.noConfusion
      · rwa [set_other heq] at h'
    exact h.functional g hg d' hd' e1 he1 e2 he2 (old e1 h1) (old e2 h2)
  tables := h.tables.set ha _
  refines := (extends_set ha).trans h.refines
  feasible hf g hg hp d' hd' := by
    obtain ⟨e', he', hne⟩ := h.feasible hf g hg hp d' hd'
    refine ⟨e', he', ?_⟩
    rw [set_other fun heq => ?_]
    · exact hne
    · exact absurd ((hv g d' e' heq.symm).2.symm.trans hp) Bool.noConfusion

theorem Cleans.good (h : Cleans voc s s') (hs : Good voc o s) (ht : Tables voc s') :
    Good voc o s' where
  functional := h.functional hs.functional
  tables := ht
  refines := h.refines.trans hs.refines
  feasible hf g hg hp d hd := by
    obtain ⟨e, he, hne⟩ := hs.feasible hf g hg hp d hd
    by_cases htrue : ∃ e' ∈ voc.imageSort g, s.value (.graph g d e') = .true
    · obtain ⟨e', he', hv⟩ := htrue
      have hin : InUniverse voc (.graph g d e') := ⟨hg, hd, he'⟩
      refine ⟨e', he', ?_⟩
      rw [h.refines.true hin hv]
      exact TruthValue.noConfusion
    · have hno : ∀ e' ∈ voc.imageSort g, s.value (.graph g d e') ≠ .true := fun e' he' hv =>
        htrue ⟨e', he', hv⟩
      have hun : s.value (.graph g d e) = .unknown := by
        cases hv : s.value (.graph g d e) with
        | true => exact absurd hv (hno e he)
        | false => exact absurd hv hne
        | unknown => rfl
      refine ⟨e, he, ?_⟩
      rw [h.pending g d hno ⟨e, he, hun⟩ hd e he]
      exact hne

theorem Good.clean (h : Good voc o s) : Good voc o (clean voc s) :=
  (clean_cleans h.functional h.tables).good h (clean_tables h.functional h.tables)

theorem Good.cleanFunc (h : Good voc o s) (hf : f ∈ voc.funcs) : Good voc o (cleanFunc voc s f) :=
  (cleanFunc_cleans h.functional hf).good h (cleanFunc_tables h.functional h.tables hf)

end Good

section MakeTwoValued

variable {voc : Vocabulary P F D} {o s : Interpretation P F D} {f : F}

def Chosen (voc : Vocabulary P F D) (s : Interpretation P F D) (f : F) (d : List D) : Prop :=
  (∃ e ∈ voc.imageSort f, s.value (.graph f d e) = .true) ∨
    ∀ e ∈ voc.imageSort f, s.value (.graph f d e) = .false

theorem Chosen.of_extends {s' : Interpretation P F D} {d : List D} (h : Chosen voc s f d)
    (he : Extends voc s' s) (hf : f ∈ voc.funcs) (hd : d ∈ voc.domain f) : Chosen voc s' f d := by
  rcases h with ⟨e, hmem, hv⟩ | hall
  · exact Or.inl ⟨e, hmem, he.true ⟨hf, hd, hmem⟩ hv⟩
  · exact Or.inr fun e hmem => he.false ⟨hf, hd, hmem⟩ (hall e hmem)

theorem chooseImage_spec (h : Good voc o s) (d : List D) :
    Good voc o (chooseImage voc f s d) ∧ Extends voc (chooseImage voc f s d) s ∧
      Chosen voc (chooseImage voc f s d) f d := by
  unfold chooseImage
  split_ifs with himages
  · obtain ⟨e, he⟩ := List.exists_mem_of_ne_nil _ himages
    exact ⟨h, Extends.refl, Or.inl ⟨e, mem_images.mp he⟩⟩
  · have hno : ∀ e ∈ voc.imageSort f, s.value (.graph f d e) ≠ .true := by
      intro e he hv
      have hmem := mem_images.mpr ⟨he, hv⟩
      rw [not_not.mp himages] at hmem
      exact absurd hmem List.not_mem_nil
    split
    · rename_i e hfind
      have he := List.mem_of_find?_eq_some hfind
      have hne : s.value (.graph f d e) ≠ .false := by simpa using List.find?_some hfind
      have hun : s.value (.graph f d e) = .unknown := by
        cases hv : s.value (.graph f d e) with
        | true => exact absurd hv (hno e he)
        | false => exact absurd hv hne
        | unknown => rfl
      exact ⟨h.set_true hun hno, extends_set hun, Or.inl ⟨e, he, set_same⟩⟩
    · rename_i hfind
      refine ⟨h, Extends.refl, Or.inr fun e he => ?_⟩
      simpa using List.find?_eq_none.mp hfind e he

theorem chooseImages_domain {ds : List (List D)} (h : Good voc o s) (hf : f ∈ voc.funcs)
    (hds : ∀ d ∈ ds, d ∈ voc.domain f) :
    Good voc o (ds.foldl (chooseImage voc f) s) ∧ Extends voc (ds.foldl (chooseImage voc f) s) s ∧
      ∀ d ∈ ds, Chosen voc (ds.foldl (chooseImage voc f) s) f d := by
  induction ds generalizing s with
  | nil => exact ⟨h, Extends.refl, fun _ hd => absurd hd List.not_mem_nil⟩
  | cons d ds ih =>
    obtain ⟨hd, hds⟩ := List.forall_mem_cons.mp hds
    obtain ⟨hgood, hext, hchosen⟩ := chooseImage_spec (f := f) h d
    obtain ⟨hgood', hext', hchosen'⟩ := ih hgood hds
    exact ⟨hgood', hext'.trans hext,
      List.forall_mem_cons.mpr ⟨hchosen.of_extends hext' hf hd, hchosen'⟩⟩

structure MadeTwoValued (voc : Vocabulary P F D) (s : Interpretation P F D) (f : F) : Prop where
  decided : DecidedFunc voc s f
  assigned : ∀ d ∈ voc.domain f, Assigned voc s f d

theorem MadeTwoValued.of_extends {s' : Interpretation P F D} (h : MadeTwoValued voc s f)
    (he : Extends voc s' s) (hf : f ∈ voc.funcs) : MadeTwoValued voc s' f :=
  ⟨h.decided.of_extends he hf, fun d hd => (h.assigned d hd).of_extends he hf hd⟩

theorem makeTwoValuedFunc_spec (h : Good voc o s) (ho : Feasible voc o) (hf : f ∈ voc.funcs) :
    Good voc o (makeTwoValuedFunc voc s f) ∧ Extends voc (makeTwoValuedFunc voc s f) s ∧
      MadeTwoValued voc (makeTwoValuedFunc voc s f) f := by
  unfold makeTwoValuedFunc
  split_ifs with htable
  · obtain ⟨hdec, hass⟩ := h.tables f hf htable
    exact ⟨h, Extends.refl, hdec, hass⟩
  · obtain ⟨hgood, hext, hchosen⟩ := chooseImages_domain h hf fun _ hd => hd
    have hass : ∀ d ∈ voc.domain f,
        Assigned voc ((voc.domain f).foldl (chooseImage voc f) s) f d := by
      intro d hd
      rcases hchosen d hd with htrue | hfalse
      · exact Or.inl htrue
      · refine Or.inr ⟨?_, hfalse⟩
        by_contra hp
        obtain ⟨e, he, hne⟩ := hgood.feasible ho f hf (by simpa using hp) d hd
        exact hne (hfalse e he)
    have hcleans := cleanFunc_cleans hgood.functional hf
    exact ⟨hgood.cleanFunc hf, hcleans.refines.trans hext,
      cleanFunc_decided hgood.functional hgood.tables hf hass,
      fun d hd => (hass d hd).of_extends hcleans.refines hf hd⟩

theorem makeTwoValuedFuncs_spec {fs : List F} (h : Good voc o s) (ho : Feasible voc o)
    (hfs : ∀ f ∈ fs, f ∈ voc.funcs) :
    Good voc o (fs.foldl (makeTwoValuedFunc voc) s) ∧
      Extends voc (fs.foldl (makeTwoValuedFunc voc) s) s ∧
      ∀ f ∈ fs, MadeTwoValued voc (fs.foldl (makeTwoValuedFunc voc) s) f := by
  induction fs generalizing s with
  | nil => exact ⟨h, Extends.refl, fun _ hf => absurd hf List.not_mem_nil⟩
  | cons f fs ih =>
    obtain ⟨hf, hfs⟩ := List.forall_mem_cons.mp hfs
    obtain ⟨hgood, hext, hmade⟩ := makeTwoValuedFunc_spec h ho hf
    obtain ⟨hgood', hext', hmade'⟩ := ih hgood hfs
    exact ⟨hgood', hext'.trans hext, List.forall_mem_cons.mpr ⟨hmade.of_extends hext' hf, hmade'⟩⟩

theorem makeTwoValuedPred_extends (p : P) : Extends voc (makeTwoValuedPred s p) s := by
  intro a _ hne
  cases a with
  | pred q t => exact if_neg fun h => hne h.2
  | graph f d e => rfl

theorem makeTwoValuedPred_good (h : Good voc o s) (p : P) : Good voc o (makeTwoValuedPred s p) where
  functional := h.functional
  tables := h.tables
  refines := (makeTwoValuedPred_extends p).trans h.refines
  feasible := h.feasible

theorem makeTwoValuedPreds_spec (ps : List P) (h : Good voc o s) :
    Good voc o (ps.foldl makeTwoValuedPred s) ∧ Extends voc (ps.foldl makeTwoValuedPred s) s ∧
      ∀ p ∈ ps, ∀ t, (ps.foldl makeTwoValuedPred s).value (.pred p t) ≠ .unknown := by
  -- a decided atom stays decided, whether in its universe or not
  have stays : ∀ (ps : List P) (s : Interpretation P F D) (p : P) (t : List D),
      s.value (.pred p t) ≠ .unknown → (ps.foldl makeTwoValuedPred s).value (.pred p t) ≠ .unknown := by
    intro ps
    induction ps with
    | nil => exact fun _ _ _ h => h
    | cons q ps ih =>
      intro s p t hne
      have heq : (makeTwoValuedPred s q).value (.pred p t) = s.value (.pred p t) :=
        if_neg fun h => hne h.2
      exact ih _ p t (heq ▸ hne)
  induction ps generalizing s with
  | nil => exact ⟨h, Extends.refl, fun _ hp => absurd hp List.not_mem_nil⟩
  | cons p ps ih =>
    obtain ⟨hgood, hext, hdec⟩ := ih (makeTwoValuedPred_good h p)
    refine ⟨hgood, hext.trans (makeTwoValuedPred_extends p),
      List.forall_mem_cons.mpr ⟨fun t => stays ps _ p t ?_, hdec⟩⟩
    by_cases hun : s.value (.pred p t) = .unknown
    · have heq : (makeTwoValuedPred s p).value (.pred p t) = .false := if_pos ⟨rfl, hun⟩
      rw [heq]
      exact TruthValue.noConfusion
    · have heq : (makeTwoValuedPred s p).value (.pred p t) = s.value (.pred p t) :=
        if_neg fun h => hun h.2
      rw [heq]
      exact hun

theorem isTwoValued_of (h : Good voc o s) (hf : ∀ f ∈ voc.funcs, MadeTwoValued voc s f)
    (hp : ∀ p ∈ voc.preds, ∀ t ∈ voc.predUniverse p, s.value (.pred p t) ≠ .unknown) :
    IsTwoValued voc s where
  decided a ha := by
    cases a with
    | pred p t => exact hp p ha.1 t ha.2
    | graph f d e => exact (hf f ha.1).decided d ha.2.1 e ha.2.2
  functional := h.functional
  total f hmem htotal d hd := by
    rcases (hf f hmem).assigned d hd with htrue | ⟨hundefined, -⟩
    · exact htrue
    · exact absurd (hundefined.symm.trans htotal) Bool.noConfusion

theorem makeTwoValued_spec (h : Good voc o s) (ho : Feasible voc o) :
    Extension voc s (makeTwoValued voc s) ∧ Good voc o (makeTwoValued voc s) := by
  obtain ⟨hgood, hext, hmade⟩ := makeTwoValuedFuncs_spec h ho fun _ hf => hf
  obtain ⟨hgood', hext', hdec⟩ := makeTwoValuedPreds_spec voc.preds hgood
  have hcleans := clean_cleans hgood'.functional hgood'.tables
  refine ⟨⟨isTwoValued_of hgood'.clean (fun f hf => ?_) (fun p hp t ht => ?_),
    hcleans.refines.trans (hext'.trans hext)⟩, hgood'.clean⟩
  · exact (hmade f hf).of_extends (hcleans.refines.trans hext') hf
  · rw [makeTwoValued, hcleans.pred]
    exact hdec p hp t

end MakeTwoValued

end TwoValued
