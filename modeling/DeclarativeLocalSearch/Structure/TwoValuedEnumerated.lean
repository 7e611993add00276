import DeclarativeLocalSearch.Structure.TwoValuedStructureIterator

set_option linter.unusedSectionVars false

namespace TwoValued

variable {P F D : Type} [DecidableEq P] [DecidableEq F] [DecidableEq D]

section After

variable {voc : Vocabulary P F D} {o s s' t : Interpretation P F D} {c : Choice P F D} {k : ℕ} {f : F} {d : List D}

theorem after_extends (hopen : c.Open voc o) (hs : c.Pending voc o s) : Extends voc (c.after voc o k s) s := by
  intro a _ hne
  cases c with
  | atom p t =>
    refine after_atom_changes.resolve_right fun heq => hne ?_
    rw [heq]
    exact Eq.trans hs hopen.2.2
  | input f d =>
    refine after_input_changes.resolve_right ?_
    rintro ⟨e, he, rfl, -⟩
    obtain ⟨hsort, hun⟩ := mem_unknowns.mp (List.mem_of_mem_take he)
    exact hne ((hs e hsort).trans hun)

theorem after_chosen {e : D} (he : (unknowns voc o f d)[k]? = some e) :
    ((Choice.input f d).after voc o (k + 1) s).value (.graph f d e) = .true := by
  rw [after_image he, set_same]

theorem after_excluded {e : D} (he : e ∈ (unknowns voc o f d).take k) :
    ((Choice.input f d).after voc o (k + 1) s).value (.graph f d e) = .false := by
  rw [Choice.after]
  split
  · rename_i e' he'
    have hne : (Atom.graph f d e : Atom P F D) ≠ .graph f d e' := by
      intro heq
      obtain ⟨-, -, rfl⟩ := Atom.graph.inj heq
      have hlater : e ∈ (unknowns voc o f d).drop k := by
        obtain ⟨hk, hget⟩ := List.getElem?_eq_some_iff.mp he'
        rw [List.drop_eq_getElem_cons hk, hget]
        exact List.mem_cons_self
      exact List.disjoint_take_drop unknowns_nodup (Nat.le_refl k) he hlater
    rw [set_other hne, exclude_value, if_pos ⟨e, he, rfl⟩]
  · rw [exclude_value, if_pos ⟨e, List.mem_of_mem_take he, rfl⟩]

theorem after_true {g : F} {d' : List D} {e : D}
    (h : ((Choice.input f d).after voc o (k + 1) s).value (.graph g d' e) = .true) :
    s.value (.graph g d' e) = .true ∨ g = f ∧ d' = d ∧ (unknowns voc o f d)[k]? = some e := by
  rw [Choice.after] at h
  split at h
  · rename_i e' he'
    by_cases heq : (Atom.graph g d' e : Atom P F D) = .graph f d e'
    · obtain ⟨rfl, rfl, rfl⟩ := Atom.graph.inj heq
      exact Or.inr ⟨rfl, rfl, he'⟩
    · rw [set_other heq, exclude_value] at h
      split_ifs at h
      exact Or.inl h
  · rw [exclude_value] at h
    split_ifs at h
    exact Or.inl h

theorem Good.refine (h : Good voc o s) (htables : s'.functable = s.functable) (he : Extends voc s' s)
    (hfunctional : Functional voc s') (hfeasible : Feasible voc s → Feasible voc s') : Good voc o s' where
  functional := hfunctional
  tables g hg hgt := by
    obtain ⟨hdecided, hassigned⟩ := h.tables g hg (htables ▸ hgt)
    exact ⟨hdecided.of_extends he hg, fun d hd => (hassigned d hd).of_extends he hg hd⟩
  refines := he.trans h.refines
  feasible ho := hfeasible (h.feasible ho)

theorem Good.after_input (h : Good voc o s) (hopen : (Choice.input f d : Choice P F D).Open voc o)
    (hs : (Choice.input f d : Choice P F D).Pending voc o s) (hk : k < (Choice.input f d).width voc o) :
    Good voc o ((Choice.input f d).after voc o (k + 1) s) := by
  obtain ⟨hf, hd, hnone⟩ := hopen
  have hno : ∀ e ∈ voc.imageSort f, s.value (.graph f d e) ≠ .true := fun e he hv =>
    absurd (mem_images.mpr ⟨he, (hs e he).symm.trans hv⟩) (hnone ▸ List.not_mem_nil)
  have hext : Extends voc ((Choice.input f d).after voc o (k + 1) s) s := after_extends ⟨hf, hd, hnone⟩ hs
  refine h.refine (after_fields _).1 hext (fun g hg d' hd' e he e' he' hv hv' => ?_) fun hfeasible g hg hp d' hd' => ?_
  · rcases after_true hv with hold | ⟨rfl, rfl, hchosen⟩
    · rcases after_true hv' with hold' | ⟨rfl, rfl, -⟩
      · exact h.functional g hg d' hd' e he e' he' hold hold'
      · exact absurd hold (hno e he)
    · rcases after_true hv' with hold' | ⟨-, -, hchosen'⟩
      · exact absurd hold' (hno e' he')
      · exact Option.some.inj (hchosen.symm.trans hchosen')
  · by_cases hin : g = f ∧ d' = d
    · obtain ⟨rfl, rfl⟩ := hin
      rw [Choice.width, hp] at hk
      have hk : k < (unknowns voc o g d').length := hk
      have hget : (unknowns voc o g d')[k]? = some (unknowns voc o g d')[k] := List.getElem?_eq_getElem hk
      refine ⟨_, (mem_unknowns.mp (List.getElem_mem hk)).1, ?_⟩
      rw [after_chosen hget]
      exact TruthValue.noConfusion
    · obtain ⟨e, he, hv⟩ := hfeasible g hg hp d' hd'
      refine ⟨e, he, ?_⟩
      have hsame := @after_input_changes P F D _ _ _ voc o s f d (k + 1)
        (a := .graph g d' e)
      rw [hsame.resolve_right ?_]
      · exact hv
      · rintro ⟨e', -, heq, -⟩
        obtain ⟨rfl, rfl, -⟩ := Atom.graph.inj heq
        exact hin ⟨rfl, rfl⟩

theorem Good.after (h : Good voc o s) (hopen : c.Open voc o) (hs : c.Pending voc o s) (hk : k < c.width voc o) :
    Good voc o (c.after voc o (k + 1) s) := by
  cases c with
  | atom p t => exact h.set_of (Eq.trans hs hopen.2.2) fun _ _ _ heq => absurd heq nofun
  | input f d => exact h.after_input hopen hs hk

theorem after_settled (hs : c.Pending voc o s) (hopen : c.Open voc o) (hk : k < c.width voc o) :
    c.Settled voc (c.after voc o (k + 1) s) := by
  cases c with
  | atom p t =>
    have hset : (s.set (.pred p t) (if k = 0 then .true else .false)).value (.pred p t) ≠ .unknown := by
      rw [set_same]
      split_ifs <;> exact TruthValue.noConfusion
    exact hset
  | input f d =>
    by_cases hlt : k < (unknowns voc o f d).length
    · refine Or.inl ⟨_, (mem_unknowns.mp (List.getElem_mem hlt)).1, after_chosen (List.getElem?_eq_getElem hlt)⟩
    · rw [Choice.width] at hk
      split_ifs at hk with hp
      · obtain rfl : k = (unknowns voc o f d).length := by omega
        refine Or.inr ⟨hp, fun e he => ?_⟩
        by_cases hun : e ∈ unknowns voc o f d
        · exact after_excluded (by rwa [List.take_length])
        · rw [after_last, exclude_value, if_neg]
          · rw [hs e he]
            cases hv : o.value (.graph f d e) with
            | true => exact absurd (mem_images.mpr ⟨he, hv⟩) (hopen.2.2 ▸ List.not_mem_nil)
            | false => rfl
            | unknown => exact absurd (mem_unknowns.mpr ⟨he, hv⟩) hun
          · rintro ⟨e', he', heq⟩
            obtain ⟨-, -, rfl⟩ := Atom.graph.inj heq
            exact hun he'
      · omega

theorem after_apart (hopen : c.Open voc o) {n m : ℕ} (hnm : n < m) (hm : m < c.width voc o) :
    Apart voc (c.after voc o (n + 1) s) (c.after voc o (m + 1) s) := by
  cases c with
  | atom p t =>
    have hcases : n = 0 ∧ m = 1 := by
      have : m < 2 := hm
      omega
    obtain ⟨rfl, rfl⟩ := hcases
    exact apart_of_values (a := .pred p t) ⟨hopen.1, hopen.2.1⟩ set_same set_same TruthValue.noConfusion
      TruthValue.noConfusion TruthValue.noConfusion
  | input f d =>
    have hn : n < (unknowns voc o f d).length := by
      rw [Choice.width] at hm
      split_ifs at hm <;> omega
    have hsort := (mem_unknowns.mp (List.getElem_mem hn)).1
    have hmem : (unknowns voc o f d)[n] ∈ (unknowns voc o f d).take m :=
      List.mem_take_iff_getElem.mpr ⟨n, by omega, rfl⟩
    exact apart_of_values (a := .graph f d (unknowns voc o f d)[n]) ⟨hopen.1, hopen.2.1, hsort⟩
      (after_chosen (List.getElem?_eq_getElem hn)) (after_excluded hmem) TruthValue.noConfusion
      TruthValue.noConfusion TruthValue.noConfusion

theorem after_complete (hopen : c.Open voc o) (hs : c.Pending voc o s) (ht : Extension voc s t) :
    ∃ n < c.width voc o, Extension voc (c.after voc o (n + 1) s) t := by
  cases c with
  | atom p q =>
    cases hv : t.value (.pred p q) with
    | true => exact ⟨0, Nat.zero_lt_two, extension_set ht hv⟩
    | false => exact ⟨1, Nat.one_lt_two, extension_set ht hv⟩
    | unknown => exact absurd hv (ht.twoValued.decided (.pred p q) ⟨hopen.1, hopen.2.1⟩)
  | input f d =>
    obtain ⟨hf, hd, hnone⟩ := hopen
    -- whatever the steps have decided is as in the extension
    have hextension : ∀ n, (∀ e ∈ voc.imageSort f,
        ((Choice.input f d).after voc o (n + 1) s).value (.graph f d e) ≠ .unknown →
          t.value (.graph f d e) = ((Choice.input f d).after voc o (n + 1) s).value (.graph f d e)) →
        Extension voc ((Choice.input f d).after voc o (n + 1) s) t := by
      refine fun n hvalues => ⟨ht.twoValued, fun a ha hne => ?_⟩
      rcases @after_input_changes P F D _ _ _ voc o s f d (n + 1) a with
        hsame | ⟨e, he, rfl, -⟩
      · rw [hsame] at hne ⊢
        exact ht.extends_ a ha hne
      · exact hvalues e ha.2.2 hne
    by_cases hex : ∃ e ∈ voc.imageSort f, t.value (.graph f d e) = .true
    · obtain ⟨e, he, hv⟩ := hex
      have hun : e ∈ unknowns voc o f d := by
        refine mem_unknowns.mpr ⟨he, ?_⟩
        cases ho : o.value (.graph f d e) with
        | true => exact absurd (mem_images.mpr ⟨he, ho⟩) (hnone ▸ List.not_mem_nil)
        | false =>
          have hin : InUniverse voc (.graph f d e) := ⟨hf, hd, he⟩
          have hfalse := ht.extends_.false hin ((hs e he).trans ho)
          exact absurd (hv.symm.trans hfalse) TruthValue.noConfusion
        | unknown => rfl
      obtain ⟨n, hn, hget⟩ := List.getElem_of_mem hun
      have hsome : (unknowns voc o f d)[n]? = some e := by rw [List.getElem?_eq_getElem hn, hget]
      refine ⟨n, by rw [Choice.width]; omega, hextension n fun x hx hne => ?_⟩
      by_cases hxe : x = e
      · rw [hxe, hv, after_chosen hsome]
      · have hfalse := ht.false_of_other hf hd hx he (Ne.symm hxe) hv
        cases hafter : ((Choice.input f d).after voc o (n + 1) s).value (.graph f d x) with
        | true =>
          rcases after_true hafter with hold | ⟨-, -, hchosen⟩
          · exact absurd (hfalse.symm.trans (ht.extends_.true ⟨hf, hd, hx⟩ hold)) TruthValue.noConfusion
          · exact absurd (Option.some.inj (hchosen.symm.trans hsome)) hxe
        | false => exact hfalse
        | unknown => exact absurd hafter hne
    · have hp : voc.isPartial f = true := by
        by_contra hp
        exact hex (ht.twoValued.total f hf (by simpa using hp) d hd)
      refine ⟨(unknowns voc o f d).length, by rw [Choice.width, if_pos hp]; omega, hextension _ fun x hx hne => ?_⟩
      have hfalse : t.value (.graph f d x) = .false := by
        cases hv : t.value (.graph f d x) with
        | true => exact absurd ⟨x, hx, hv⟩ hex
        | false => rfl
        | unknown => exact absurd hv (ht.twoValued.decided _ ⟨hf, hd, hx⟩)
      cases hafter : ((Choice.input f d).after voc o ((unknowns voc o f d).length + 1) s).value (.graph f d x) with
      | true =>
        rcases after_true hafter with hold | ⟨-, -, hchosen⟩
        · exact absurd (hfalse.symm.trans (ht.extends_.true ⟨hf, hd, hx⟩ hold)) TruthValue.noConfusion
        · rw [List.getElem?_eq_none (Nat.le_refl _)] at hchosen
          cases hchosen
      | false => exact hfalse
      | unknown => exact absurd hafter hne

end After

section Assign

variable {voc : Vocabulary P F D} {o s t : Interpretation P F D} {c : Choice P F D} {cs : List (Choice P F D)}
  {ns ms : List ℕ}

theorem Choice.Open.valid (h : c.Open voc o) : c.Valid voc := by
  cases c with
  | atom p t => exact ⟨h.1, h.2.1⟩
  | input f d => exact ⟨h.1, h.2.1⟩

theorem assign_extends (h : Choosable voc o cs s) : Extends voc (assign voc o cs ns s) s := by
  induction cs generalizing ns s with
  | nil => cases ns <;> exact Extends.refl
  | cons c cs ih =>
    cases ns with
    | nil => exact Extends.refl
    | cons n ns =>
      exact (ih (h.tail (n + 1))).trans (after_extends (h.opened c List.mem_cons_self) (h.pending c List.mem_cons_self))

theorem assign_good (h : Choosable voc o cs s) (hvalid : Odometer.Valid (wheels voc o cs) ns) (hs : Good voc o s) :
    Good voc o (assign voc o cs ns s) := by
  induction cs generalizing ns s with
  | nil => cases hvalid; exact hs
  | cons c cs ih =>
    cases hvalid with
    | cons hn hvalid =>
      exact ih (h.tail _) hvalid
        (hs.after (h.opened c List.mem_cons_self) (h.pending c List.mem_cons_self) (wheel_iff.mp hn))

theorem assign_settled (h : Choosable voc o cs s) (hvalid : Odometer.Valid (wheels voc o cs) ns) :
    ∀ c ∈ cs, c.Settled voc (assign voc o cs ns s) := by
  induction cs generalizing ns s with
  | nil => exact fun c hc => absurd hc List.not_mem_nil
  | cons c cs ih =>
    cases hvalid with
    | @cons _ n _ ns hn hvalid =>
      refine List.forall_mem_cons.mpr ⟨?_, ih (h.tail (n + 1)) hvalid⟩
      have hopen := h.opened c List.mem_cons_self
      exact (after_settled (h.pending c List.mem_cons_self) hopen (wheel_iff.mp hn)).of_extends
        (assign_extends (h.tail (n + 1))) hopen.valid

theorem assign_apart (h : Choosable voc o cs s) (hns : Odometer.Valid (wheels voc o cs) ns)
    (hms : Odometer.Valid (wheels voc o cs) ms) (hne : ns ≠ ms) :
    Apart voc (assign voc o cs ns s) (assign voc o cs ms s) := by
  induction cs generalizing ns ms s with
  | nil =>
    cases hns
    cases hms
    exact absurd rfl hne
  | cons c cs ih =>
    cases hns with
    | @cons _ n _ ns hn hns =>
      cases hms with
      | @cons _ m _ ms hm hms =>
        have hopen := h.opened c List.mem_cons_self
        have hfirst := fun k => @assign_extends P F D _ _ _ voc o _ _ k (h.tail (n + 1))
        have hsecond := fun k => @assign_extends P F D _ _ _ voc o _ _ k (h.tail (m + 1))
        rcases Nat.lt_trichotomy n m with hlt | rfl | hlt
        · exact (after_apart hopen hlt (wheel_iff.mp hm)).of_extends (hfirst ns) (hsecond ms)
        · exact ih (h.tail (n + 1)) hns hms fun heq => hne (by rw [heq])
        · have hapart := after_apart (s := s) hopen hlt (wheel_iff.mp hn)
          exact fun t ht ht' => (hapart.of_extends (hsecond ms) (hfirst ns)) t ht' ht

theorem assign_complete (h : Choosable voc o cs s) (ht : Extension voc s t) :
    ∃ ns, Odometer.Valid (wheels voc o cs) ns ∧ Extension voc (assign voc o cs ns s) t := by
  induction cs generalizing s with
  | nil => exact ⟨[], List.Forall₂.nil, ht⟩
  | cons c cs ih =>
    obtain ⟨n, hn, ht⟩ := after_complete (h.opened c List.mem_cons_self) (h.pending c List.mem_cons_self) ht
    obtain ⟨ns, hvalid, ht⟩ := ih (h.tail (n + 1)) ht
    exact ⟨n :: ns, List.Forall₂.cons (wheel_iff.mpr hn) hvalid, ht⟩

theorem enough_of_digits (h : Choosable voc o cs o) (ho : Good voc o o)
    (hrest : ∀ c : Choice P F D, c.Valid voc → c ∉ cs → c.Settled voc o) {digits : List (List ℕ)}
    (hsorted : digits.Pairwise (· < ·)) (hmem : ∀ ns, ns ∈ digits ↔ Odometer.Valid (wheels voc o cs) ns) :
    Enough voc o 0 (digits.map fun ns => clean voc (assign voc o cs ns o)) := by
  have hgood := fun ns hns => assign_good h ((hmem ns).mp hns) ho
  have hsettled : ∀ ns ∈ digits, ∀ c : Choice P F D, c.Valid voc → c.Settled voc (assign voc o cs ns o) := by
    intro ns hns c hc
    by_cases hin : c ∈ cs
    · exact assign_settled h ((hmem ns).mp hns) c hin
    · exact (hrest c hc hin).of_extends (assign_extends h) hc
  have htwo := fun ns hns => settled_twoValued (hgood ns hns) (hsettled ns hns)
  have hcleans := fun ns hns => clean_cleans (hgood ns hns).functional (hgood ns hns).tables
  have hextension : ∀ ns ∈ digits, Extension voc (assign voc o cs ns o) (clean voc (assign voc o cs ns o)) :=
    fun ns hns => ⟨htwo ns hns, (hcleans ns hns).refines⟩
  refine ⟨fun r hr => ?_, List.pairwise_map.mpr (hsorted.imp_of_mem fun {ns ms} hns hms hlt => ?_),
    fun hne => absurd rfl hne, Or.inr fun t ht => ?_⟩
  · obtain ⟨ns, hns, rfl⟩ := List.mem_map.mp hr
    exact (hextension ns hns).weaken (assign_extends h)
  · have hapart := assign_apart h ((hmem ns).mp hns) ((hmem ms).mp hms) (s := o) (ne_of_lt hlt)
    exact hapart.not_same (hextension ns hns) (hextension ms hms)
  · obtain ⟨ns, hvalid, ht⟩ := assign_complete h ht
    have hns := (hmem ns).mpr hvalid
    refine ⟨_, List.mem_map_of_mem hns, fun a ha => ?_⟩
    exact (((hcleans ns hns).keeps t ht).same (htwo ns hns) a ha).symm

end Assign

section Create

variable (voc : Vocabulary P F D) (o : Interpretation P F D)

-- the choices that the iterators are created for
def predicateChoices : List (Choice P F D) :=
  voc.preds.flatMap fun p =>
    if o.approxTwoValued p then []
    else ((voc.predUniverse p).filter fun t => o.value (.pred p t) = .unknown).map fun t => .atom p t

def functionChoices (inputs : List (F × List D)) : List (Choice P F D) :=
  (inputs.filter fun input => images voc o input.1 .true input.2 = []).map fun input => .input input.1 input.2

def choices : List (Choice P F D) := predicateChoices voc o ++ functionChoices voc o (functionInputs voc o)

-- an input whose image is to be chosen has a sort of images, and a possible one when it needs an image
def Startable : Prop :=
  ∀ f ∈ voc.funcs, o.functable f = false → ∀ d ∈ voc.domain f, images voc o f .true d = [] →
    voc.imageSort f ≠ [] ∧ (voc.isPartial f = false → ∃ e ∈ voc.imageSort f, o.value (.graph f d e) ≠ .false)

variable {voc o} {c : Choice P F D} {f : F} {d : List D} {inputs : List (F × List D)}
  {stack : List (TwoValuedSymbolIterator P F D)}

theorem mem_functionInputs : (f, d) ∈ functionInputs voc o ↔
    f ∈ voc.funcs ∧ o.functable f = false ∧ d ∈ voc.domain f := by
  simp only [functionInputs, List.mem_flatMap]
  constructor
  · rintro ⟨g, hg, hmem⟩
    split_ifs at hmem with htable
    · exact absurd hmem List.not_mem_nil
    · obtain ⟨d', hd', heq⟩ := List.mem_map.mp hmem
      obtain ⟨rfl, rfl⟩ := Prod.mk.inj heq
      exact ⟨hg, eq_false_of_ne_true htable, hd'⟩
  · rintro ⟨hf, htable, hd⟩
    refine ⟨f, hf, ?_⟩
    rw [if_neg (ne_true_of_eq_false htable)]
    exact List.mem_map_of_mem hd

theorem atom_mem_choices {p : P} {t : List D} : .atom p t ∈ choices voc o ↔
    p ∈ voc.preds ∧ o.approxTwoValued p = false ∧ t ∈ voc.predUniverse p ∧ o.value (.pred p t) = .unknown := by
  simp only [choices, predicateChoices, functionChoices, List.mem_append, List.mem_flatMap, List.mem_map]
  constructor
  · rintro (⟨q, hq, hmem⟩ | ⟨input, -, heq⟩)
    · split_ifs at hmem with happrox
      · exact absurd hmem List.not_mem_nil
      · obtain ⟨t', ht', heq⟩ := List.mem_map.mp hmem
        obtain ⟨rfl, rfl⟩ := Choice.atom.inj heq
        obtain ⟨hmem, hun⟩ := List.mem_filter.mp ht'
        exact ⟨hq, eq_false_of_ne_true happrox, hmem, of_decide_eq_true hun⟩
    · exact absurd heq nofun
  · rintro ⟨hp, happrox, ht, hun⟩
    refine Or.inl ⟨p, hp, ?_⟩
    rw [if_neg (ne_true_of_eq_false happrox)]
    exact List.mem_map_of_mem (List.mem_filter.mpr ⟨ht, decide_eq_true hun⟩)

theorem input_mem_choices : .input f d ∈ choices voc o ↔
    f ∈ voc.funcs ∧ o.functable f = false ∧ d ∈ voc.domain f ∧ images voc o f .true d = [] := by
  simp only [choices, predicateChoices, functionChoices, List.mem_append, List.mem_flatMap, List.mem_map]
  constructor
  · rintro (⟨q, -, hmem⟩ | ⟨⟨g, d'⟩, hmem, heq⟩)
    · split_ifs at hmem
      · exact absurd hmem List.not_mem_nil
      · obtain ⟨t, -, heq⟩ := List.mem_map.mp hmem
        exact absurd heq nofun
    · obtain ⟨rfl, rfl⟩ := Choice.input.inj heq
      obtain ⟨hmem, hnone⟩ := List.mem_filter.mp hmem
      obtain ⟨hf, htable, hd⟩ := mem_functionInputs.mp hmem
      exact ⟨hf, htable, hd, of_decide_eq_true hnone⟩
  · rintro ⟨hf, htable, hd, hnone⟩
    exact Or.inr ⟨(f, d), List.mem_filter.mpr ⟨mem_functionInputs.mpr ⟨hf, htable, hd⟩, decide_eq_true hnone⟩, rfl⟩

theorem choices_nodup : (choices voc o).Nodup := by
  refine List.Nodup.append ?_ ?_ ?_
  · refine List.nodup_flatMap.mpr ⟨fun p _ => ?_, voc.preds_nodup.imp fun {p q} hne => ?_⟩
    · split_ifs
      · exact List.nodup_nil
      · exact ((voc.predUniverse_nodup p).filter _).map fun t t' heq => (Choice.atom.inj heq).2
    · intro c hc hc'
      dsimp only at hc hc'
      split_ifs at hc hc'
      all_goals first | exact absurd hc List.not_mem_nil | exact absurd hc' List.not_mem_nil | skip
      obtain ⟨t, -, rfl⟩ := List.mem_map.mp hc
      obtain ⟨t', -, heq⟩ := List.mem_map.mp hc'
      exact hne (Choice.atom.inj heq).1.symm
  · refine List.Nodup.map (fun i j heq => ?_) (List.Nodup.filter _ ?_)
    · obtain ⟨hf, hd⟩ := Choice.input.inj heq
      exact Prod.ext hf hd
    · refine List.nodup_flatMap.mpr ⟨fun f _ => ?_, voc.funcs_nodup.imp fun {f g} hne => ?_⟩
      · split_ifs
        · exact List.nodup_nil
        · exact (voc.domain_nodup f).map fun d d' heq => (Prod.mk.inj heq).2
      · intro i hi hi'
        dsimp only at hi hi'
        split_ifs at hi hi'
        all_goals first | exact absurd hi List.not_mem_nil | exact absurd hi' List.not_mem_nil | skip
        obtain ⟨d, -, rfl⟩ := List.mem_map.mp hi
        obtain ⟨d', -, heq⟩ := List.mem_map.mp hi'
        exact hne (Prod.mk.inj heq).1.symm
  · intro c hc hc'
    cases c with
    | atom p t =>
      obtain ⟨i, -, heq⟩ := List.mem_map.mp hc'
      exact absurd heq nofun
    | input f d =>
      obtain ⟨p, -, hmem⟩ := List.mem_flatMap.mp hc
      split_ifs at hmem
      · exact absurd hmem List.not_mem_nil
      · obtain ⟨t, -, heq⟩ := List.mem_map.mp hmem
        exact absurd heq nofun

theorem pending_self (c : Choice P F D) : c.Pending voc o o := by
  cases c with
  | atom p t => exact rfl
  | input f d => exact fun _ _ => rfl

theorem choices_open : ∀ c ∈ choices voc o, c.Open voc o := by
  intro c hc
  cases c with
  | atom p t =>
    obtain ⟨hp, -, ht, hun⟩ := atom_mem_choices.mp hc
    exact ⟨hp, ht, hun⟩
  | input f d =>
    obtain ⟨hf, -, hd, hnone⟩ := input_mem_choices.mp hc
    exact ⟨hf, hd, hnone⟩

theorem choosable_choices (h : Startable voc o) : Choosable voc o (choices voc o) o := by
  refine ⟨choices_nodup, choices_open, fun c _ => pending_self c, fun c hc => ?_⟩
  cases c with
  | atom p t => exact Nat.zero_lt_two
  | input f d =>
    obtain ⟨hf, htable, hd, hnone⟩ := input_mem_choices.mp hc
    rw [Choice.width]
    cases hp : voc.isPartial f with
    | true =>
      rw [if_pos rfl]
      exact Nat.succ_pos _
    | false =>
      obtain ⟨e, he, hne⟩ := (h f hf htable d hd hnone).2 hp
      have hun : e ∈ unknowns voc o f d := by
        refine mem_unknowns.mpr ⟨he, ?_⟩
        cases hv : o.value (.graph f d e) with
        | true => exact absurd (mem_images.mpr ⟨he, hv⟩) (hnone ▸ List.not_mem_nil)
        | false => exact absurd hv hne
        | unknown => rfl
      have := List.length_pos_of_mem hun
      omega

theorem settled_of_not_mem (h : WellFormed voc o) (hv : c.Valid voc) (hc : c ∉ choices voc o) : c.Settled voc o := by
  cases c with
  | atom p t =>
    cases happrox : o.approxTwoValued p with
    | true => exact h.preds p hv.1 happrox t hv.2
    | false => exact fun hun => hc (atom_mem_choices.mpr ⟨hv.1, happrox, hv.2, hun⟩)
  | input f d =>
    cases htable : o.functable f with
    | true => exact (h.tables f hv.1 htable).2 d hv.2
    | false =>
      by_cases hnone : images voc o f .true d = []
      · exact absurd (input_mem_choices.mpr ⟨hv.1, htable, hv.2, hnone⟩) hc
      · obtain ⟨e, he⟩ := List.exists_mem_of_ne_nil _ hnone
        exact Or.inl ⟨e, mem_images.mp he⟩

theorem createPredicate_start : AtStart voc o (predicateChoices voc o) (createPredicate voc o) := by
  have hatoms : ∀ (p : P) (ts : List (List D)), List.Forall₂ (fun c it => Choice.At voc o 0 c it)
      (ts.map fun t => (.atom p t : Choice P F D)) (ts.map fun t => .pred ⟨p, t, 0⟩) := by
    intro p ts
    induction ts with
    | nil => exact List.Forall₂.nil
    | cons t ts ih => exact List.Forall₂.cons rfl ih
  unfold AtStart predicateChoices createPredicate
  induction voc.preds with
  | nil => exact List.Forall₂.nil
  | cons p ps ih =>
    rw [List.flatMap_cons, List.flatMap_cons]
    refine List.rel_append ?_ ih
    split_ifs
    · exact List.Forall₂.nil
    · exact hatoms p _

theorem new_init {it : FunctionSymbolIterator F D} (hnone : images voc o f .true d = [])
    (hit : FunctionSymbolIterator.new voc f d = some it) : AtImage voc o f d 0 (it.init voc o) := by
  unfold FunctionSymbolIterator.new at hit
  split at hit
  · rename_i e images' hsort
    obtain rfl := Option.some.inj hit
    refine init_at (congrArg some hsort.symm) rfl rfl rfl (pending_self (.input f d)) ?_ fun e he =>
      absurd he List.not_mem_nil
    have he : e ∈ voc.imageSort f := hsort ▸ List.mem_cons_self
    cases hv : o.value (.graph f d e) with
    | true => exact absurd (mem_images.mpr ⟨he, hv⟩) (hnone ▸ List.not_mem_nil)
    | false => exact Or.inl ⟨he, rfl⟩
    | unknown =>
      refine Or.inr ?_
      rw [unknowns, images, hsort]
      simp [hv]
  · cases hit

theorem createInput_start (hstack : createInput voc o f d = some stack) :
    AtStart voc o (functionChoices voc o [(f, d)]) stack := by
  unfold createInput at hstack
  unfold functionChoices
  split_ifs at hstack with himages
  · obtain rfl := Option.some.inj hstack
    rw [List.filter_cons_of_neg (by simpa using himages)]
    exact List.Forall₂.nil
  · obtain ⟨it, hit, rfl⟩ := Option.map_eq_some_iff.mp hstack
    rw [List.filter_cons_of_pos (by simpa using himages)]
    exact List.Forall₂.cons (new_init (not_not.mp himages) hit) List.Forall₂.nil

theorem functionChoices_cons (input : F × List D) (inputs : List (F × List D)) :
    functionChoices voc o (input :: inputs) = functionChoices voc o [input] ++ functionChoices voc o inputs := by
  have happend : input :: inputs = [input] ++ inputs := rfl
  rw [happend]
  unfold functionChoices
  rw [List.filter_append, List.map_append]

theorem createFunction_cons {input : F × List D} (h : createFunction voc o (input :: inputs) = some stack) :
    ∃ out rest, createInput voc o input.1 input.2 = some out ∧ createFunction voc o inputs = some rest ∧
      stack = out ++ rest := by
  rw [createFunction] at h
  obtain ⟨out, hout, h⟩ := Option.bind_eq_some_iff.mp h
  obtain ⟨rest, hrest, h⟩ := Option.bind_eq_some_iff.mp h
  exact ⟨out, rest, hout, hrest, (Option.some.inj h).symm⟩

theorem createFunction_start (h : createFunction voc o inputs = some stack) :
    AtStart voc o (functionChoices voc o inputs) stack := by
  induction inputs generalizing stack with
  | nil =>
    obtain rfl := Option.some.inj h
    exact List.Forall₂.nil
  | cons input inputs ih =>
    obtain ⟨out, rest, hout, hrest, rfl⟩ := createFunction_cons h
    rw [functionChoices_cons]
    exact List.rel_append (createInput_start hout) (ih hrest)

theorem createFunction_isSome (h : ∀ input ∈ inputs, images voc o input.1 .true input.2 = [] →
    voc.imageSort input.1 ≠ []) : ∃ stack, createFunction voc o inputs = some stack := by
  induction inputs with
  | nil => exact ⟨[], rfl⟩
  | cons input inputs ih =>
    obtain ⟨hinput, hinputs⟩ := List.forall_mem_cons.mp h
    obtain ⟨rest, hrest⟩ := ih hinputs
    have hout : ∃ out, createInput voc o input.1 input.2 = some out := by
      unfold createInput
      split_ifs with himages
      · exact ⟨[], rfl⟩
      · unfold FunctionSymbolIterator.new
        rcases hsort : voc.imageSort input.1 with _ | ⟨e, images'⟩
        · exact absurd hsort (hinput (not_not.mp himages))
        · exact ⟨_, rfl⟩
    obtain ⟨out, hout⟩ := hout
    refine ⟨out ++ rest, ?_⟩
    rw [createFunction, hout, hrest]
    rfl

theorem createFunction_sort (h : createFunction voc o inputs = some stack) :
    ∀ input ∈ inputs, images voc o input.1 .true input.2 = [] → voc.imageSort input.1 ≠ [] := by
  induction inputs generalizing stack with
  | nil => exact fun input hinput => absurd hinput List.not_mem_nil
  | cons input inputs ih =>
    obtain ⟨out, rest, hout, hrest, rfl⟩ := createFunction_cons h
    refine List.forall_mem_cons.mpr ⟨fun hnone hsort => ?_, ih hrest⟩
    rw [createInput, if_neg (not_not.mpr hnone), FunctionSymbolIterator.new, hsort] at hout
    exact absurd hout nofun

theorem create_start (h : create voc o = some stack) : AtStart voc o (choices voc o) stack := by
  obtain ⟨out, hout, rfl⟩ := Option.map_eq_some_iff.mp h
  exact List.rel_append createPredicate_start (createFunction_start hout)

end Create

section Enumerates

variable (voc : Vocabulary P F D) (o : Interpretation P F D)

-- calling next until the iterator is finished returns the two-valued structures that extend the structure, each once
def Enumerates : Prop :=
  ∃ it results, TwoValuedStructureIterator.new voc o = some it ∧
    (∃ enough, ∀ fuel, enough < fuel → it.all voc fuel = some results) ∧ Enough voc o 0 results ∧
    ∀ t, (∃ r ∈ results, Same voc r t) ↔ ∃ r ∈ generateEnoughTwoValuedExtensions voc o 0 0, Same voc r t

variable {voc o} {stack : List (TwoValuedSymbolIterator P F D)}

theorem Enough.subset {results results' : List (Interpretation P F D)} (h : Enough voc o 0 results)
    (h' : Enough voc o 0 results') (t : Interpretation P F D) (ht : ∃ r ∈ results, Same voc r t) :
    ∃ r ∈ results', Same voc r t := by
  obtain ⟨r, hr, hsame⟩ := ht
  obtain ⟨r', hr', hsame'⟩ := (h'.enough.resolve_left fun hzero => hzero.1 rfl) r (h.extensions r hr)
  exact ⟨r', hr', fun a ha => (hsame' a ha).trans (hsame a ha)⟩

theorem AtStart.iterator {cs : List (Choice P F D)} {c : Choice P F D} (h : AtStart voc o cs stack) (hc : c ∈ cs) :
    ∃ it ∈ stack, c.At voc o 0 it := by
  induction h with
  | nil => exact absurd hc List.not_mem_nil
  | @cons c' it cs stack hat _ ih =>
    rcases List.mem_cons.mp hc with rfl | hc
    · exact ⟨it, List.mem_cons_self, hat⟩
    · obtain ⟨it', hit', hat'⟩ := ih hc
      exact ⟨it', List.mem_cons_of_mem _ hit', hat'⟩

theorem doNexts_finished {it : TwoValuedSymbolIterator P F D} (hit : it ∈ stack) (h : it.isFinished = true)
    (s : Interpretation P F D) : TwoValuedStructureIterator.doNexts voc stack s = none := by
  induction stack generalizing s with
  | nil => exact absurd hit List.not_mem_nil
  | cons it' stack ih =>
    rw [TwoValuedStructureIterator.doNexts]
    rcases List.mem_cons.mp hit with rfl | hit
    · rw [doNext_of_isFinished h]
      rfl
    · cases it'.doNext voc s with
      | none => rfl
      | some next =>
        have hrest := ih hit next.2
        simp only [Option.bind_eq_bind, Option.bind_some, hrest, Option.bind_none]

theorem enumerates_of_startable (h : WellFormed voc o) (hstart : Startable voc o) : Enumerates voc o := by
  obtain ⟨out, hout⟩ := @createFunction_isSome P F D _ _ _ voc o (functionInputs voc o)
    fun input hinput hnone => by
      obtain ⟨hf, htable, hd⟩ := mem_functionInputs.mp hinput
      exact (hstart input.1 hf htable input.2 hd hnone).1
  have hcreate : create voc o = some (createPredicate voc o ++ out) := by rw [create, hout, Option.map_some]
  obtain ⟨digits, hsorted, hmem, hall⟩ :=
    TwoValuedStructureIterator.all_start (choosable_choices hstart) (create_start hcreate)
  have henough := enough_of_digits (choosable_choices hstart) h.good
    (fun c hv hc => settled_of_not_mem h hv hc) hsorted hmem
  have hgenerate : Enough voc o 0 (generateEnoughTwoValuedExtensions voc o 0 0) :=
    enough_generate h (by decide) (Or.inl rfl)
  refine ⟨⟨o, createPredicate voc o ++ out, some 0⟩, _, ?_, ⟨_, hall⟩, henough, fun t =>
    ⟨henough.subset hgenerate t, hgenerate.subset henough t⟩⟩
  rw [TwoValuedStructureIterator.new, hcreate, Option.map_some]

theorem startable_of_enumerates (h : Enumerates voc o) : Startable voc o := by
  obtain ⟨it, results, hnew, ⟨enough, hall⟩, -, -⟩ := h
  obtain ⟨stack, hstack, rfl⟩ := Option.map_eq_some_iff.mp hnew
  obtain ⟨out, hout, -⟩ := Option.map_eq_some_iff.mp hstack
  intro f hf htable d hd hnone
  have hsort := createFunction_sort hout (f, d) (mem_functionInputs.mpr ⟨hf, htable, hd⟩) hnone
  refine ⟨hsort, fun hp => ?_⟩
  by_contra himages
  have hwidth : (Choice.input f d).width voc o = 0 := by
    rw [Choice.width, hp, if_neg Bool.false_ne_true, Nat.add_zero, List.length_eq_zero_iff, unknowns,
      images, List.filter_eq_nil_iff]
    intro e he hun
    exact himages ⟨e, he, fun hv => TruthValue.noConfusion (hv.symm.trans (of_decide_eq_true hun))⟩
  have hmem : (Choice.input f d : Choice P F D) ∈ choices voc o := input_mem_choices.mpr ⟨hf, htable, hd, hnone⟩
  obtain ⟨it, hit, hat⟩ := (create_start hstack).iterator hmem
  have hfinished : it.isFinished = true := (hat.isFinished (Nat.zero_le _)).mpr hwidth.symm
  have hfails := hall (enough + 1) (Nat.lt_succ_self _)
  have hnext : TwoValuedStructureIterator.next voc ⟨o, stack, some 0⟩ = none := by
    simp only [TwoValuedStructureIterator.next, List.drop_zero, doNexts_finished hit hfinished,
      Option.bind_eq_bind, Option.bind_none]
  rw [TwoValuedStructureIterator.all, hnext] at hfails
  cases hfails

end Enumerates

end TwoValued
