import DeclarativeLocalSearch.Structure.TwoValuedChoices

set_option linter.unusedSectionVars false

namespace TwoValued

variable {P F D : Type} [DecidableEq P] [DecidableEq F] [DecidableEq D]

section Loops

variable {voc : Vocabulary P F D} {o : Interpretation P F D} {need : ℕ → Bool}
  {extensions : List (Interpretation P F D)} {todo : Set (Choice P F D)} {f : F}

def inputs (f : F) (ds : List (List D)) : Set (Choice P F D) := {c | ∃ d ∈ ds, c = .input f d}

def atoms (p : P) (ts : List (List D)) : Set (Choice P F D) := {c | ∃ t ∈ ts, c = .atom p t}

theorem inputs_cons (f : F) (d : List D) (ds : List (List D)) :
    (inputs f (d :: ds) : Set (Choice P F D)) = {.input f d} ∪ inputs f ds := by
  ext c
  simp [inputs]

theorem atoms_cons (p : P) (t : List D) (ts : List (List D)) :
    (atoms p (t :: ts) : Set (Choice P F D)) = {.atom p t} ∪ atoms p ts := by
  ext c
  simp [atoms]

theorem chooseImages_excluded {d : List D} {images : List D}
    (hall : ∀ e ∈ images, o.value (.graph f d e) = .false)
    (partials newstructs : List (Interpretation P F D)) :
    chooseImages voc need o f d extensions images partials newstructs = newstructs ++ partials := by
  induction images with
  | nil => rfl
  | cons e images ih =>
    obtain ⟨he, hall⟩ := List.forall_mem_cons.mp hall
    rw [chooseImages, if_pos he, ih hall]

theorem Invariant.generate (hanti : ∀ k, need (k + 1) = Bool.true → need k = Bool.true)
    (h : Invariant voc o need extensions todo) (hn : need extensions.length = Bool.true) {d : List D}
    (hf : f ∈ voc.funcs) (hd : d ∈ voc.domain f) (hc : .input f d ∈ todo)
    (hno : images voc o f .true d = []) :
    Invariant voc o need (generateMorePreciseStructures voc need o f d extensions)
      (todo \ {.input f d}) := by
  by_cases hsettled : (Choice.input f d : Choice P F D).Settled voc o
  · rcases hsettled with ⟨e, he, hv⟩ | ⟨hp, hall⟩
    · exact absurd (mem_images.mpr ⟨he, hv⟩) (hno ▸ List.not_mem_nil)
    · rw [generateMorePreciseStructures, chooseImages_excluded hall, if_pos hp, List.nil_append]
      refine h.skip Set.sdiff_subset fun c hmem hnot _ => ?_
      obtain rfl : c = .input f d := by
        by_contra hne
        exact hnot ⟨hmem, hne⟩
      exact Or.inr ⟨hp, hall⟩
  · exact h.input hanti hn hf hd hc hsettled

theorem Invariant.extendDomain (hanti : ∀ k, need (k + 1) = Bool.true → need k = Bool.true)
    (hf : f ∈ voc.funcs) {ds : List (List D)} (hnodup : ds.Nodup)
    (h : Invariant voc o need extensions todo)
    (hds : ∀ d ∈ ds, d ∈ voc.domain f ∧ .input f d ∈ todo) :
    Invariant voc o need (extendDomain voc need o f ds extensions) (todo \ inputs f ds) := by
  induction ds generalizing extensions todo with
  | nil => exact h.skip Set.sdiff_subset fun c hmem hnot _ => absurd ⟨hmem, by simp [inputs]⟩ hnot
  | cons d ds ih =>
    obtain ⟨⟨hd, hc⟩, hds⟩ := List.forall_mem_cons.mp hds
    obtain ⟨hnot, hnodup⟩ := List.nodup_cons.mp hnodup
    have hrest : ∀ d' ∈ ds, d' ∈ voc.domain f ∧ .input f d' ∈ todo \ {Choice.input f d} :=
      fun d' hd' => ⟨(hds d' hd').1, (hds d' hd').2, fun heq => hnot ((Choice.input.inj heq).2 ▸ hd')⟩
    rw [TwoValued.extendDomain, inputs_cons, ← Set.sdiff_sdiff]
    split_ifs with hn himages
    · obtain ⟨e, he⟩ := List.exists_mem_of_ne_nil _ himages
      refine ih hnodup (h.skip Set.sdiff_subset fun c hmem hnot _ => ?_) hrest
      obtain rfl : c = .input f d := by
        by_contra hne
        exact hnot ⟨hmem, hne⟩
      exact Or.inl ⟨e, mem_images.mp he⟩
    · exact ih hnodup (h.generate hanti hn hf hd hc (not_not.mp himages)) hrest
    · rw [Set.sdiff_sdiff]
      exact h.stop (by simpa using hn) Set.sdiff_subset

theorem Invariant.extendFuncs (hanti : ∀ k, need (k + 1) = Bool.true → need k = Bool.true)
    (ho : Tables voc o) {fs : List F} (hnodup : fs.Nodup)
    (h : Invariant voc o need extensions todo)
    (hfs : ∀ f ∈ fs, f ∈ voc.funcs ∧ ∀ d ∈ voc.domain f, .input f d ∈ todo) :
    Invariant voc o need (extendFuncs voc need o fs extensions)
      (todo \ {c | ∃ f ∈ fs, c ∈ inputs f (voc.domain f)}) := by
  induction fs generalizing extensions todo with
  | nil => exact h.skip Set.sdiff_subset fun c hmem hnot _ => absurd ⟨hmem, by simp⟩ hnot
  | cons f fs ih =>
    obtain ⟨⟨hf, hc⟩, hfs⟩ := List.forall_mem_cons.mp hfs
    obtain ⟨hnot, hnodup⟩ := List.nodup_cons.mp hnodup
    have hcons : {c : Choice P F D | ∃ g ∈ f :: fs, c ∈ inputs g (voc.domain g)} =
        inputs f (voc.domain f) ∪ {c | ∃ g ∈ fs, c ∈ inputs g (voc.domain g)} := by
      ext c
      simp
    have hrest : ∀ g ∈ fs, g ∈ voc.funcs ∧
        ∀ d ∈ voc.domain g, .input g d ∈ todo \ (inputs f (voc.domain f) : Set (Choice P F D)) := by
      refine fun g hg => ⟨(hfs g hg).1, fun d hd => ⟨(hfs g hg).2 d hd, ?_⟩⟩
      rintro ⟨d', -, heq⟩
      exact hnot ((Choice.input.inj heq).1 ▸ hg)
    rw [TwoValued.extendFuncs, hcons, ← Set.sdiff_sdiff]
    split_ifs with hn htable
    · refine ih hnodup (h.skip Set.sdiff_subset fun c hmem hnot hv => ?_) hrest
      have hin : c ∈ inputs f (voc.domain f) := by
        by_contra hne
        exact hnot ⟨hmem, hne⟩
      obtain ⟨d, hd, rfl⟩ := hin
      exact (ho f hf htable).2 d hd
    · exact ih hnodup (h.extendDomain hanti hf (voc.domain_nodup f) fun d hd => ⟨hd, hc d hd⟩) hrest
    · rw [Set.sdiff_sdiff]
      exact h.stop (by simpa using hn) Set.sdiff_subset

theorem Invariant.extendAtoms {p : P} (hp : p ∈ voc.preds) {ts : List (List D)} (hnodup : ts.Nodup)
    (h : Invariant voc o need extensions todo)
    (hts : ∀ t ∈ ts, t ∈ voc.predUniverse p ∧ .atom p t ∈ todo ∧ o.value (.pred p t) ≠ .false) :
    Invariant voc o need (extendAtoms need o p ts extensions) (todo \ atoms p ts) := by
  induction ts generalizing extensions todo with
  | nil => exact h.skip Set.sdiff_subset fun c hmem hnot _ => absurd ⟨hmem, by simp [atoms]⟩ hnot
  | cons t ts ih =>
    obtain ⟨⟨ht, hc, hne⟩, hts⟩ := List.forall_mem_cons.mp hts
    obtain ⟨hnot, hnodup⟩ := List.nodup_cons.mp hnodup
    have hrest : ∀ t' ∈ ts, t' ∈ voc.predUniverse p ∧ .atom p t' ∈ todo \ {Choice.atom p t} ∧
        o.value (.pred p t') ≠ .false := fun t' ht' => ⟨(hts t' ht').1,
      ⟨(hts t' ht').2.1, fun heq => hnot ((Choice.atom.inj heq).2 ▸ ht')⟩, (hts t' ht').2.2⟩
    rw [TwoValued.extendAtoms, atoms_cons, ← Set.sdiff_sdiff]
    split_ifs with hn htrue
    · refine ih hnodup (h.skip Set.sdiff_subset fun c hmem hnot _ => ?_) hrest
      obtain rfl : c = .atom p t := by
        by_contra hne
        exact hnot ⟨hmem, hne⟩
      exact fun hun => absurd (htrue.symm.trans hun) TruthValue.noConfusion
    · have hun : o.value (.pred p t) = .unknown := by
        cases hv : o.value (.pred p t) with
        | true => exact absurd hv htrue
        | false => exact absurd hv hne
        | unknown => rfl
      exact ih hnodup (h.atom hn hp ht hc hun) hrest
    · rw [Set.sdiff_sdiff]
      exact h.stop (by simpa using hn) Set.sdiff_subset

theorem Invariant.extendPreds {ps : List P} (hnodup : ps.Nodup)
    (happrox : ∀ p ∈ voc.preds, o.approxTwoValued p = Bool.true →
      ∀ t ∈ voc.predUniverse p, o.value (.pred p t) ≠ .unknown)
    (h : Invariant voc o need extensions todo)
    (hps : ∀ p ∈ ps, p ∈ voc.preds ∧ ∀ t ∈ voc.predUniverse p, .atom p t ∈ todo) :
    Invariant voc o need (extendPreds voc need o ps extensions)
      (todo \ {c | ∃ p ∈ ps, c ∈ atoms p (voc.predUniverse p)}) := by
  induction ps generalizing extensions todo with
  | nil => exact h.skip Set.sdiff_subset fun c hmem hnot _ => absurd ⟨hmem, by simp⟩ hnot
  | cons p ps ih =>
    obtain ⟨⟨hp, hc⟩, hps⟩ := List.forall_mem_cons.mp hps
    obtain ⟨hnot, hnodup⟩ := List.nodup_cons.mp hnodup
    have hcons : {c : Choice P F D | ∃ q ∈ p :: ps, c ∈ atoms q (voc.predUniverse q)} =
        atoms p (voc.predUniverse p) ∪ {c | ∃ q ∈ ps, c ∈ atoms q (voc.predUniverse q)} := by
      ext c
      simp
    have hrest : ∀ q ∈ ps, q ∈ voc.preds ∧ ∀ t ∈ voc.predUniverse q,
        .atom q t ∈ todo \ (atoms p (voc.predUniverse p) : Set (Choice P F D)) := by
      refine fun q hq => ⟨(hps q hq).1, fun t ht => ⟨(hps q hq).2 t ht, ?_⟩⟩
      rintro ⟨t', -, heq⟩
      exact hnot ((Choice.atom.inj heq).1 ▸ hq)
    rw [TwoValued.extendPreds, hcons, ← Set.sdiff_sdiff]
    split_ifs with hn happ
    · refine ih hnodup (h.skip Set.sdiff_subset fun c hmem hnot _ => ?_) hrest
      have hin : c ∈ atoms p (voc.predUniverse p) := by
        by_contra hne
        exact hnot ⟨hmem, hne⟩
      obtain ⟨t, ht, rfl⟩ := hin
      exact happrox p hp happ t ht
    · have hopen : ∀ t ∈ (voc.predUniverse p).filter fun t => o.value (.pred p t) ≠ .false,
          t ∈ voc.predUniverse p ∧ .atom p t ∈ todo ∧ o.value (.pred p t) ≠ .false := by
        intro t ht
        obtain ⟨ht, hne⟩ := List.mem_filter.mp ht
        exact ⟨ht, hc t ht, by simpa using hne⟩
      have hpt := h.extendAtoms hp ((voc.predUniverse_nodup p).filter _) hopen
      refine ih hnodup (hpt.skip (Set.sdiff_subset_sdiff_right ?_) fun c hmem hnot _ => ?_) hrest
      · rintro c ⟨t, ht, rfl⟩
        exact ⟨t, (List.mem_filter.mp ht).1, rfl⟩
      · have hin : c ∈ atoms p (voc.predUniverse p) := by
          by_contra hne
          exact hnot ⟨hmem.1, hne⟩
        obtain ⟨t, ht, rfl⟩ := hin
        intro hun
        refine hmem.2 ⟨t, List.mem_filter.mpr ⟨ht, ?_⟩, rfl⟩
        simp [hun]
    · rw [Set.sdiff_sdiff]
      exact h.stop (by simpa using hn) Set.sdiff_subset

end Loops

section Enough

variable (voc : Vocabulary P F D)

-- what an interpretation has to be: a function gives no input two images, a function table is a
-- table of the whole function, and a predicate known to be two-valued is so
structure WellFormed (o : Interpretation P F D) : Prop where
  functional : Functional voc o
  tables : Tables voc o
  preds : ∀ p ∈ voc.preds, o.approxTwoValued p = Bool.true →
    ∀ t ∈ voc.predUniverse p, o.value (.pred p t) ≠ .unknown

def Same (s s' : Interpretation P F D) : Prop := ∀ a, InUniverse voc a → s.value a = s'.value a

-- all two-valued extensions, or as many different ones as are asked for (0: all of them)
structure Enough (o : Interpretation P F D) (expected : ℕ) (result : List (Interpretation P F D)) :
    Prop where
  extensions : ∀ r ∈ result, Extension voc o r
  different : result.Pairwise fun r r' => ¬ Same voc r r'
  atMost : expected ≠ 0 → result.length ≤ expected
  enough : (expected ≠ 0 ∧ result.length = expected) ∨
    ∀ t, Extension voc o t → ∃ r ∈ result, Same voc r t

variable {voc} {o s s' t : Interpretation P F D}

theorem WellFormed.good (h : WellFormed voc o) : Good voc o o :=
  ⟨h.functional, h.tables, Extends.refl, fun hf => hf⟩

theorem IsTwoValued.of_extends (h : IsTwoValued voc t) (he : Extends voc s t)
    (hs : Functional voc s) : IsTwoValued voc s where
  decided a ha := by
    rw [he a ha (h.decided a ha)]
    exact h.decided a ha
  functional := hs
  total f hf hp d hd := by
    obtain ⟨e, hmem, hv⟩ := h.total f hf hp d hd
    exact ⟨e, hmem, he.true ⟨hf, hd, hmem⟩ hv⟩

theorem Extension.same (h : Extension voc s t) (hs : IsTwoValued voc s) : Same voc t s :=
  fun a ha => h.extends_ a ha (hs.decided a ha)

theorem Apart.not_same (h : Apart voc s s') {r r' : Interpretation P F D} (hr : Extension voc s r)
    (hr' : Extension voc s' r') : ¬ Same voc r r' := by
  refine fun hsame => h r hr ⟨hr.twoValued, fun a ha hne => ?_⟩
  rw [hsame a ha, hr'.extends_ a ha hne]

theorem settled_twoValued (h : Good voc o s) (hs : ∀ c : Choice P F D, c.Valid voc → c.Settled voc s) :
    IsTwoValued voc (clean voc s) := by
  have hcleans := clean_cleans h.functional h.tables
  refine isTwoValued_of h.clean (fun f hf => ⟨?_, fun d hd => ?_⟩) fun p hp t ht => ?_
  · exact clean_decided h.functional h.tables hf fun d hd => hs (.input f d) ⟨hf, hd⟩
  · exact Assigned.of_extends (hs (.input f d) ⟨hf, hd⟩) hcleans.refines hf hd
  · rw [hcleans.pred]
    exact hs (.atom p t) ⟨hp, ht⟩

theorem enough_of_approxTwoValued (h : WellFormed voc o) (ht : approxTwoValued voc o = Bool.true)
    (expected : ℕ) : Enough voc o expected [o] := by
  obtain ⟨hfuncs, hpreds⟩ := Bool.and_eq_true_iff.mp ht
  have htwo : IsTwoValued voc o := by
    refine isTwoValued_of h.good (fun f hf => ?_) fun p hp t ht => ?_
    · obtain ⟨hdec, hass⟩ := h.tables f hf (List.all_eq_true.mp hfuncs f hf)
      exact ⟨hdec, hass⟩
    · exact h.preds p hp (List.all_eq_true.mp hpreds p hp) t ht
  refine ⟨?_, List.pairwise_singleton _ _, fun hne => Nat.one_le_iff_ne_zero.mpr hne, Or.inr ?_⟩
  · exact List.forall_mem_singleton.mpr ⟨htwo, Extends.refl⟩
  · exact fun t ht => ⟨o, List.mem_singleton_self o, fun a ha => (ht.same htwo a ha).symm⟩

theorem invariant_generate (h : WellFormed voc o) (need : ℕ → Bool)
    (hanti : ∀ k, need (k + 1) = Bool.true → need k = Bool.true) (h0 : need 0 = Bool.true) :
    Invariant voc o need
      (extendPreds voc need o voc.preds (extendFuncs voc need o voc.funcs [o]))
      ((Set.univ \ {c | ∃ f ∈ voc.funcs, c ∈ inputs f (voc.domain f)}) \
        {c | ∃ p ∈ voc.preds, c ∈ atoms p (voc.predUniverse p)}) := by
  have hstart : Invariant voc o need [o] Set.univ := by
    refine ⟨List.forall_mem_singleton.mpr h.good, List.pairwise_singleton _ _, fun k hk => ?_,
      List.forall_mem_singleton.mpr fun c _ _ _ => ?_, fun _ t ht => ⟨o, List.mem_singleton_self o, ht⟩,
      fun _ s _ c _ hc => absurd (Set.mem_univ c) hc⟩
    · obtain rfl : k = 0 := by simpa using hk
      exact h0
    · cases c with
      | input f d => exact fun _ _ => rfl
      | atom p t => exact rfl
  have hfuncs := hstart.extendFuncs hanti h.tables voc.funcs_nodup fun f hf =>
    ⟨hf, fun d _ => Set.mem_univ _⟩
  refine hfuncs.extendPreds voc.preds_nodup h.preds fun p hp => ⟨hp, fun t _ => ⟨Set.mem_univ _, ?_⟩⟩
  rintro ⟨f, -, d, -, heq⟩
  exact absurd heq nofun

theorem settled_generate {need : ℕ → Bool} {extensions : List (Interpretation P F D)}
    (h : Invariant voc o need extensions
      ((Set.univ \ {c | ∃ f ∈ voc.funcs, c ∈ inputs f (voc.domain f)}) \
        {c | ∃ p ∈ voc.preds, c ∈ atoms p (voc.predUniverse p)}))
    (hn : need extensions.length = Bool.true) (hs : s ∈ extensions) :
    ∀ c : Choice P F D, c.Valid voc → c.Settled voc s := by
  intro c hv
  refine h.settled hn s hs c hv fun hmem => ?_
  cases c with
  | input f d => exact hmem.1.2 ⟨f, hv.1, d, hv.2, rfl⟩
  | atom p t => exact hmem.2 ⟨p, hv.1, t, hv.2, rfl⟩

theorem enough_of_invariant {need : ℕ → Bool} {expected : ℕ}
    {extensions : List (Interpretation P F D)} {todo : Set (Choice P F D)}
    (h : Invariant voc o need extensions todo) (r : Interpretation P F D → Interpretation P F D)
    (hr : ∀ s ∈ extensions, Extension voc s (r s))
    (hn : ∀ k, need k = Bool.true ↔ expected = 0 ∨ k < expected)
    (hall : need extensions.length = Bool.true → ∀ s ∈ extensions, IsTwoValued voc (clean voc s)) :
    Enough voc o expected (extensions.map r) where
  extensions := by
    intro x hx
    obtain ⟨s, hs, rfl⟩ := List.mem_map.mp hx
    exact (hr s hs).weaken (h.good s hs).refines
  different := List.pairwise_map.mpr
    (h.apart.imp_of_mem fun hs hs' hap => hap.not_same (hr _ hs) (hr _ hs'))
  atMost hne := by
    rw [List.length_map]
    by_contra hlt
    have := (hn expected).mp (h.atMost expected (Nat.lt_of_not_le hlt))
    exact this.elim hne (Nat.lt_irrefl _)
  enough := by
    rw [List.length_map]
    by_cases hneed : need extensions.length = Bool.true
    · refine Or.inr fun t ht => ?_
      obtain ⟨s, hs, hst⟩ := h.all hneed t ht
      have hcleans := clean_cleans (h.good s hs).functional (h.good s hs).tables
      have htwo := hall hneed s hs
      refine ⟨r s, List.mem_map_of_mem hs, fun a ha => ?_⟩
      rw [(hcleans.keeps _ (hr s hs)).same htwo a ha, (hcleans.keeps _ hst).same htwo a ha]
    · obtain ⟨hne, hge⟩ := not_or.mp (mt (hn _).mpr hneed)
      refine Or.inl ⟨hne, ?_⟩
      by_contra hlen
      have := (hn expected).mp (h.atMost expected (by omega))
      exact this.elim hne (Nat.lt_irrefl _)

theorem enough_generate {expected : ℕ} (h : WellFormed voc o) (hlimit : expected < maxInt)
    (hfeasible : expected = 0 ∨ Feasible voc o) :
    Enough voc o expected (generateEnoughTwoValuedExtensions voc o expected 0) := by
  rw [generateEnoughTwoValuedExtensions]
  by_cases htwo : approxTwoValued voc o = Bool.true
  · rw [if_pos htwo]
    exact enough_of_approxTwoValued h htwo expected
  · rw [if_neg htwo]
    have hn : ∀ k, needMoreModels expected (k + 0) = Bool.true ↔ expected = 0 ∨ k < expected := by
      intro k
      simp only [needMoreModels, needFixedNumberOfModels, Nat.add_zero, Bool.or_eq_true,
        Bool.and_eq_true, decide_eq_true_iff]
      omega
    have hinv := invariant_generate h (fun found => needMoreModels expected (found + 0))
      (fun k hk => (hn k).mpr (((hn _).mp hk).imp_right fun hk => Nat.lt_of_succ_lt hk))
      ((hn 0).mpr (Nat.eq_zero_or_pos expected))
    have hsettled := fun hneed s (hs : s ∈ _) => settled_twoValued (hinv.good s hs)
      (settled_generate hinv hneed hs)
    by_cases hfixed : needFixedNumberOfModels expected = Bool.true
    · have hne : expected ≠ 0 := by
        simp only [needFixedNumberOfModels, Bool.and_eq_true, decide_eq_true_iff] at hfixed
        exact hfixed.1
      simp only [if_pos hfixed, List.map_map]
      refine enough_of_invariant hinv (clean voc ∘ makeTwoValued voc) (fun s hs => ?_) hn hsettled
      obtain ⟨hext, hgood⟩ := makeTwoValued_spec (hinv.good s hs) (hfeasible.resolve_left hne)
      have hcleans := clean_cleans hgood.functional hgood.tables
      exact ⟨hext.twoValued.of_extends hcleans.refines hgood.clean.functional,
        hcleans.refines.trans hext.extends_⟩
    · have hzero : expected = 0 := by
        simp only [needFixedNumberOfModels, Bool.and_eq_true, decide_eq_true_iff, not_and] at hfixed
        by_contra hne
        exact hfixed hne hlimit
      simp only [if_neg hfixed]
      refine enough_of_invariant hinv (clean voc) (fun s hs => ?_) hn hsettled
      have hgood := hinv.good s hs
      exact ⟨hsettled ((hn _).mpr (Or.inl hzero)) s hs,
        (clean_cleans hgood.functional hgood.tables).refines⟩

end Enough

section TwoConstants

def twoConstants : Vocabulary Empty Bool Bool where
  preds := []
  funcs := [Bool.true, Bool.false]
  isPartial _ := Bool.false
  predUniverse _ := []
  domain _ := [[]]
  imageSort _ := [Bool.false, Bool.true]
  preds_nodup := List.nodup_nil
  funcs_nodup := by decide
  predUniverse_nodup _ := List.nodup_nil
  domain_nodup _ := List.nodup_singleton _
  imageSort_nodup _ := by decide

-- nothing is known of the first constant
def knownSecond (v : TruthValue) : Interpretation Empty Bool Bool where
  value
    | .pred _ _ => .false
    | .graph f _ _ => if f then .unknown else v
  functable _ := Bool.false
  approxTwoValued _ := Bool.true

theorem knownSecond_wellFormed {v : TruthValue} (hv : v ≠ .true) :
    WellFormed twoConstants (knownSecond v) where
  functional f _ d _ e _ e' _ h := by cases f <;> simp_all [knownSecond]
  tables _ _ h := absurd h Bool.false_ne_true
  preds p := p.elim

end TwoConstants

end TwoValued
