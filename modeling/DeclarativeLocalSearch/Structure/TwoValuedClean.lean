import DeclarativeLocalSearch.Structure.TwoValued

set_option linter.unusedSectionVars false

namespace TwoValued

variable {P F D : Type} [DecidableEq P] [DecidableEq F] [DecidableEq D]

section Extends

variable (voc : Vocabulary P F D)

def InUniverse : Atom P F D → Prop
  | .pred p t => p ∈ voc.preds ∧ t ∈ voc.predUniverse p
  | .graph f d e => f ∈ voc.funcs ∧ d ∈ voc.domain f ∧ e ∈ voc.imageSort f

def Extends (t s : Interpretation P F D) : Prop :=
  ∀ a, InUniverse voc a → s.value a ≠ .unknown → t.value a = s.value a

def Functional (s : Interpretation P F D) : Prop :=
  ∀ f ∈ voc.funcs, ∀ d ∈ voc.domain f, ∀ e ∈ voc.imageSort f, ∀ e' ∈ voc.imageSort f,
    s.value (.graph f d e) = .true → s.value (.graph f d e') = .true → e = e'

structure IsTwoValued (t : Interpretation P F D) : Prop where
  decided : ∀ a, InUniverse voc a → t.value a ≠ .unknown
  functional : Functional voc t
  total : ∀ f ∈ voc.funcs, voc.isPartial f = false → ∀ d ∈ voc.domain f,
    ∃ e ∈ voc.imageSort f, t.value (.graph f d e) = .true

structure Extension (s t : Interpretation P F D) : Prop where
  twoValued : IsTwoValued voc t
  extends_ : Extends voc t s

variable {voc} {s s' t : Interpretation P F D} {a : Atom P F D} {v : TruthValue}

theorem Extends.refl : Extends voc s s := fun _ _ _ => rfl

theorem Extends.trans (h : Extends voc t s') (h' : Extends voc s' s) : Extends voc t s := by
  intro a ha hs
  have hs' := h' a ha hs
  rw [h a ha (hs' ▸ hs), hs']

theorem Extension.weaken (h : Extension voc s' t) (h' : Extends voc s' s) : Extension voc s t :=
  ⟨h.twoValued, h.extends_.trans h'⟩

theorem Extends.true (h : Extends voc t s) (ha : InUniverse voc a) (hs : s.value a = .true) :
    t.value a = .true :=
  (h a ha (by rw [hs]; exact TruthValue.noConfusion)).trans hs

theorem Extends.false (h : Extends voc t s) (ha : InUniverse voc a) (hs : s.value a = .false) :
    t.value a = .false :=
  (h a ha (by rw [hs]; exact TruthValue.noConfusion)).trans hs

end Extends

section Set

variable {voc : Vocabulary P F D} {s t : Interpretation P F D} {a b : Atom P F D} {v : TruthValue}

theorem set_same : (s.set a v).value a = v := if_pos rfl

theorem set_other (h : b ≠ a) : (s.set a v).value b = s.value b := if_neg h

theorem extends_set (h : s.value a = .unknown) : Extends voc (s.set a v) s := by
  intro b _ hb
  exact set_other fun hba => hb (hba ▸ h)

theorem extension_set (h : Extension voc s t) (ht : t.value a = v) : Extension voc (s.set a v) t := by
  refine ⟨h.twoValued, fun b hb hs => ?_⟩
  by_cases hba : b = a
  · rw [hba, set_same, ht]
  · rw [set_other hba] at hs ⊢
    exact h.extends_ b hb hs

end Set

theorem sum_map_eq_iff {α : Type} {l : List α} {g h : α → ℕ} (hle : ∀ a ∈ l, g a ≤ h a) :
    (l.map g).sum = (l.map h).sum ↔ ∀ a ∈ l, g a = h a := by
  induction l with
  | nil => simp
  | cons a l ih =>
    obtain ⟨ha, hl⟩ := List.forall_mem_cons.mp hle
    have hsum : (l.map g).sum ≤ (l.map h).sum := List.sum_le_sum hl
    rw [List.forall_mem_cons, ← ih hl, List.map_cons, List.map_cons, List.sum_cons, List.sum_cons]
    omega

section Tables

variable {voc : Vocabulary P F D} {s : Interpretation P F D} {f : F} {d : List D} {e : D}

theorem mem_images {v : TruthValue} :
    e ∈ images voc s f v d ↔ e ∈ voc.imageSort f ∧ s.value (.graph f d e) = v := by
  simp [images]

theorem images_length_le (hs : Functional voc s) (hf : f ∈ voc.funcs) (hd : d ∈ voc.domain f) :
    (images voc s f .true d).length ≤ 1 := by
  have hnodup : (images voc s f .true d).Nodup := (voc.imageSort_nodup f).filter _
  by_contra hlt
  obtain ⟨e, e', rest, heq⟩ : ∃ e e' rest, images voc s f .true d = e :: e' :: rest := by
    rcases h : images voc s f .true d with _ | ⟨e, _ | ⟨e', rest⟩⟩
    · simp [h] at hlt
    · simp [h] at hlt
    · exact ⟨e, e', rest, rfl⟩
  have he := mem_images.mp (heq ▸ List.mem_cons_self : e ∈ images voc s f .true d)
  have he' := mem_images.mp
    (heq ▸ List.mem_cons_of_mem e List.mem_cons_self : e' ∈ images voc s f .true d)
  rw [heq, hs f hf d hd e he.1 e' he'.1 he.2 he'.2] at hnodup
  exact (List.nodup_cons.mp hnodup).1 List.mem_cons_self

theorem approxTotalityCheck_iff (hs : Functional voc s) (hf : f ∈ voc.funcs) :
    approxTotalityCheck voc s f = Bool.true ↔
      ∀ d ∈ voc.domain f, ∃ e ∈ voc.imageSort f, s.value (.graph f d e) = .true := by
  have hone : (voc.domain f).length = ((voc.domain f).map fun _ => 1).sum := by simp
  rw [approxTotalityCheck, decide_eq_true_iff, tableSize, hone,
    sum_map_eq_iff fun d hd => images_length_le hs hf hd]
  refine forall₂_congr fun d hd => ?_
  have hle := images_length_le hs hf hd
  constructor
  · intro h
    obtain ⟨e, he⟩ := List.exists_mem_of_length_pos (by omega : 0 < (images voc s f .true d).length)
    exact ⟨e, mem_images.mp he⟩
  · rintro ⟨e, he⟩
    have hpos := List.length_pos_of_mem (mem_images.mpr he)
    omega

theorem isInverse_iff : isInverse voc s f = Bool.true ↔
    ∀ d ∈ voc.domain f, ∀ e ∈ voc.imageSort f, s.value (.graph f d e) ≠ .unknown := by
  have hcount : ∀ (l : List D) (d : List D),
      (l.filter fun e => s.value (.graph f d e) = .true).length +
        (l.filter fun e => s.value (.graph f d e) = .false).length ≤ l.length ∧
      ((l.filter fun e => s.value (.graph f d e) = .true).length +
        (l.filter fun e => s.value (.graph f d e) = .false).length = l.length ↔
          ∀ e ∈ l, s.value (.graph f d e) ≠ .unknown) := by
    intro l d
    induction l with
    | nil => simp
    | cons e l ih =>
      obtain ⟨hle, hiff⟩ := ih
      rw [List.forall_mem_cons, ← hiff]
      cases hv : s.value (.graph f d e)
      · simp [hv]
        omega
      · simp [hv]
        omega
      · simp [hv]
        omega
  have hall : (voc.domain f).length * (voc.imageSort f).length =
      ((voc.domain f).map fun _ => (voc.imageSort f).length).sum := by simp
  have hsum : tableSize voc s f .true + tableSize voc s f .false =
      ((voc.domain f).map fun d =>
        (images voc s f .true d).length + (images voc s f .false d).length).sum := by
    rw [tableSize, tableSize, List.sum_map_add]
  have hle : ∀ d ∈ voc.domain f, (images voc s f .true d).length + (images voc s f .false d).length ≤
      (voc.imageSort f).length := fun d _ => (hcount (voc.imageSort f) d).1
  rw [isInverse, decide_eq_true_iff, hsum, hall, sum_map_eq_iff hle]
  exact forall₂_congr fun d _ => (hcount (voc.imageSort f) d).2

end Tables

section Clean

variable (voc : Vocabulary P F D)

def Assigned (s : Interpretation P F D) (f : F) (d : List D) : Prop :=
  (∃ e ∈ voc.imageSort f, s.value (.graph f d e) = .true) ∨
    voc.isPartial f = Bool.true ∧ ∀ e ∈ voc.imageSort f, s.value (.graph f d e) = .false

def DecidedFunc (s : Interpretation P F D) (f : F) : Prop :=
  ∀ d ∈ voc.domain f, ∀ e ∈ voc.imageSort f, s.value (.graph f d e) ≠ .unknown

-- a function with a table is decided
def Tables (s : Interpretation P F D) : Prop :=
  ∀ f ∈ voc.funcs, s.functable f = Bool.true →
    DecidedFunc voc s f ∧ ∀ d ∈ voc.domain f, Assigned voc s f d

-- what cleaning does to a structure
structure Cleans (s s' : Interpretation P F D) : Prop where
  refines : Extends voc s' s
  keeps : ∀ t, Extension voc s t → Extension voc s' t
  true_of : ∀ a, s'.value a = .true → s.value a = .true
  pred : ∀ p t, s'.value (.pred p t) = s.value (.pred p t)
  pending : ∀ f d, (∀ e ∈ voc.imageSort f, s.value (.graph f d e) ≠ .true) →
    (∃ e ∈ voc.imageSort f, s.value (.graph f d e) = .unknown) → d ∈ voc.domain f →
      ∀ e ∈ voc.imageSort f, s'.value (.graph f d e) = s.value (.graph f d e)

variable {voc} {s s' s'' : Interpretation P F D} {f : F}

theorem Cleans.refl : Cleans voc s s :=
  ⟨Extends.refl, fun _ h => h, fun _ h => h, fun _ _ => rfl, fun _ _ _ _ _ _ _ => rfl⟩

theorem Cleans.trans (h : Cleans voc s s') (h' : Cleans voc s' s'') : Cleans voc s s'' where
  refines := h'.refines.trans h.refines
  keeps t ht := h'.keeps t (h.keeps t ht)
  true_of a ha := h.true_of a (h'.true_of a ha)
  pred p t := (h'.pred p t).trans (h.pred p t)
  pending f d hno hun hd e he := by
    have heq := h.pending f d hno hun hd
    obtain ⟨u, hu, huv⟩ := hun
    rw [h'.pending f d (fun e he => (heq e he).symm ▸ hno e he) ⟨u, hu, (heq u hu).trans huv⟩ hd e he,
      heq e he]

theorem Cleans.functional (h : Cleans voc s s') (hs : Functional voc s) : Functional voc s' :=
  fun f hf d hd e he e' he' ht ht' =>
    hs f hf d hd e he e' he' (h.true_of _ ht) (h.true_of _ ht')

theorem Assigned.of_extends {d : List D} (h : Assigned voc s f d) (he : Extends voc s' s)
    (hf : f ∈ voc.funcs) (hd : d ∈ voc.domain f) : Assigned voc s' f d := by
  rcases h with ⟨e, hmem, ht⟩ | ⟨hp, hall⟩
  · exact Or.inl ⟨e, hmem, he.true ⟨hf, hd, hmem⟩ ht⟩
  · exact Or.inr ⟨hp, fun e hmem => he.false ⟨hf, hd, hmem⟩ (hall e hmem)⟩

theorem DecidedFunc.of_extends (h : DecidedFunc voc s f) (he : Extends voc s' s)
    (hf : f ∈ voc.funcs) : DecidedFunc voc s' f :=
  fun d hd e hmem => he (.graph f d e) ⟨hf, hd, hmem⟩ (h d hd e hmem) ▸ h d hd e hmem

end Clean

section CleanFunc

variable {voc : Vocabulary P F D} {s s' t : Interpretation P F D} {f : F}

theorem cleans_of_false (f : F) (hs : ∀ a, s'.value a = s.value a ∨
      s'.value a = .false ∧ s.value a ≠ .true ∧ ∃ d e, a = .graph f d e ∧
        (d ∈ voc.domain f → (∃ e ∈ voc.imageSort f, s.value (.graph f d e) = .true) ∨
          ∀ e ∈ voc.imageSort f, s.value (.graph f d e) ≠ .unknown) ∧
        ∀ t, InUniverse voc a → Extension voc s t → t.value a = .false) :
    Cleans voc s s' where
  refines a _ hne := by
    rcases hs a with heq | ⟨hfalse, hnot, -⟩
    · exact heq
    · cases hv : s.value a with
      | true => exact absurd hv hnot
      | false => exact hfalse
      | unknown => exact absurd hv hne
  keeps t ht := by
    refine ⟨ht.twoValued, fun a ha hne => ?_⟩
    rcases hs a with heq | ⟨hfalse, -, -, -, -, -, hall⟩
    · rw [heq] at hne ⊢
      exact ht.extends_ a ha hne
    · rw [hfalse, hall t ha ht]
  true_of a ha := by
    rcases hs a with heq | ⟨hfalse, -⟩
    · exact heq ▸ ha
    · exact absurd (hfalse.symm.trans ha) TruthValue.noConfusion
  pred p t := by
    rcases hs (.pred p t) with heq | ⟨-, -, d, e, h, -⟩
    · exact heq
    · exact absurd h nofun
  pending g d hno hun hd e he := by
    rcases hs (.graph g d e) with heq | ⟨-, -, d', e', h, hor, -⟩
    · exact heq
    · obtain ⟨rfl, rfl, rfl⟩ := Atom.graph.inj h
      obtain ⟨u, hu, huv⟩ := hun
      rcases hor hd with ⟨e', he', ht⟩ | hdec
      · exact absurd ht (hno e' he')
      · exact absurd huv (hdec u hu)

theorem Extension.false_of_other (h : Extension voc s t) (hf : f ∈ voc.funcs) {d : List D}
    (hd : d ∈ voc.domain f) {e e' : D} (he : e ∈ voc.imageSort f) (he' : e' ∈ voc.imageSort f)
    (hne : e' ≠ e) (ht : t.value (.graph f d e') = .true) : t.value (.graph f d e) = .false := by
  cases hv : t.value (.graph f d e) with
  | true => exact absurd (h.twoValued.functional f hf d hd e' he' e he ht hv) hne
  | false => rfl
  | unknown => exact absurd hv (h.twoValued.decided _ ⟨hf, hd, he⟩)

theorem excludeOthers_cleans (hs : Functional voc s) (hf : f ∈ voc.funcs) :
    Cleans voc s (excludeOthers voc s f) := by
  refine cleans_of_false f fun a => ?_
  cases a with
  | pred p t => exact Or.inl rfl
  | graph g d e =>
    by_cases h : g = f ∧ d ∈ voc.domain f ∧ e ∈ voc.imageSort f ∧ ∃ e' ∈ images voc s f .true d, e' ≠ e
    · refine Or.inr ⟨if_pos h, ?_⟩
      obtain ⟨rfl, hd, he, e', hmem, hne⟩ := h
      obtain ⟨he', ht⟩ := mem_images.mp hmem
      refine ⟨fun hv => hne (hs g hf d hd e' he' e he ht hv), d, e, rfl,
        fun _ => Or.inl ⟨e', he', ht⟩, fun t _ hext => ?_⟩
      exact hext.false_of_other hf hd he he' hne (hext.extends_.true ⟨hf, hd, he'⟩ ht)
    · exact Or.inl (if_neg h)

theorem setFuncTable_cleans (hf : f ∈ voc.funcs)
    (h : (∀ d ∈ voc.domain f, ∃ e ∈ voc.imageSort f, s.value (.graph f d e) = .true) ∨
      DecidedFunc voc s f) : Cleans voc s (setFuncTable s f) := by
  refine cleans_of_false f fun a => ?_
  cases a with
  | pred p t => exact Or.inl rfl
  | graph g d e =>
    by_cases hg : g = f ∧ s.value (.graph f d e) ≠ .true
    · refine Or.inr ⟨if_pos hg, ?_⟩
      obtain ⟨rfl, hnot⟩ := hg
      refine ⟨hnot, d, e, rfl, fun hd => h.imp (fun h => h d hd) (fun h => h d hd), fun t ha hext => ?_⟩
      obtain ⟨-, hd, he⟩ := ha
      rcases h with h | h
      · obtain ⟨e', he', ht⟩ := h d hd
        refine hext.false_of_other hf hd he he' (fun heq => hnot (heq ▸ ht)) ?_
        exact hext.extends_.true ⟨hf, hd, he'⟩ ht
      · refine hext.extends_.false ⟨hf, hd, he⟩ ?_
        cases hv : s.value (.graph g d e) with
        | true => exact absurd hv hnot
        | false => rfl
        | unknown => exact absurd hv (h d hd e he)
    · exact Or.inl (if_neg hg)

theorem setFuncTable_decided : DecidedFunc voc (setFuncTable s f) f := by
  intro d _ e _
  by_cases hv : s.value (.graph f d e) = .true
  · have heq : (setFuncTable s f).value (.graph f d e) = s.value (.graph f d e) :=
      if_neg fun h => h.2 hv
    rw [heq, hv]
    exact TruthValue.noConfusion
  · have heq : (setFuncTable s f).value (.graph f d e) = .false := if_pos ⟨rfl, hv⟩
    rw [heq]
    exact TruthValue.noConfusion

-- the structure between the two steps of the cleaning
def excluded (voc : Vocabulary P F D) (s : Interpretation P F D) (f : F) : Interpretation P F D :=
  if voc.isPartial f then excludeOthers voc s f else s

theorem excluded_cleans (hs : Functional voc s) (hf : f ∈ voc.funcs) :
    Cleans voc s (excluded voc s f) := by
  unfold excluded
  split_ifs
  · exact excludeOthers_cleans hs hf
  · exact Cleans.refl

theorem excluded_functable : (excluded voc s f).functable = s.functable := by
  unfold excluded
  split_ifs
  · rfl
  · rfl

theorem all_one_image (hs : Functional voc s) (hf : f ∈ voc.funcs) :
    ((voc.domain f).all fun d => (images voc s f .true d).length ≤ 1) = Bool.true :=
  List.all_eq_true.mpr fun _ hd => decide_eq_true (images_length_le hs hf hd)

theorem cleanFunc_cases (hs : Functional voc s) (hf : f ∈ voc.funcs) :
    (s.functable f = Bool.true ∧ cleanFunc voc s f = s) ∨
    (s.functable f = Bool.false ∧ cleanFunc voc s f = setFuncTable (excluded voc s f) f ∧
      ((∀ d ∈ voc.domain f, ∃ e ∈ voc.imageSort f, (excluded voc s f).value (.graph f d e) = .true) ∨
        voc.isPartial f = Bool.true ∧ DecidedFunc voc (excluded voc s f) f)) ∨
    (s.functable f = Bool.false ∧ cleanFunc voc s f = excluded voc s f ∧
      ¬ ∀ d ∈ voc.domain f, ∃ e ∈ voc.imageSort f, (excluded voc s f).value (.graph f d e) = .true) := by
  have hex := (excluded_cleans hs hf).functional hs
  cases ht : s.functable f with
  | true => exact Or.inl ⟨rfl, by rw [cleanFunc, if_pos ht]⟩
  | false =>
    have hdef : cleanFunc voc s f =
        if (voc.isPartial f && isInverse voc (excluded voc s f) f) ||
          approxTotalityCheck voc (excluded voc s f) f then setFuncTable (excluded voc s f) f
        else excluded voc s f := by
      rw [cleanFunc, if_neg (by simp [ht])]
      simp only [← excluded.eq_1 voc s f, all_one_image hex hf, if_true]
    refine Or.inr ?_
    rw [hdef]
    split_ifs with hcond
    · refine Or.inl ⟨rfl, rfl, ?_⟩
      rcases Bool.or_eq_true_iff.mp hcond with hinv | htotal
      · obtain ⟨hp, hinv⟩ := Bool.and_eq_true_iff.mp hinv
        exact Or.inr ⟨hp, isInverse_iff.mp hinv⟩
      · exact Or.inl ((approxTotalityCheck_iff hex hf).mp htotal)
    · refine Or.inr ⟨rfl, rfl, fun hall => hcond (Bool.or_eq_true_iff.mpr (Or.inr ?_))⟩
      exact (approxTotalityCheck_iff hex hf).mpr hall

theorem cleanFunc_cleans (hs : Functional voc s) (hf : f ∈ voc.funcs) :
    Cleans voc s (cleanFunc voc s f) := by
  have hex := excluded_cleans hs hf
  rcases cleanFunc_cases hs hf with ⟨-, heq⟩ | ⟨-, heq, h⟩ | ⟨-, heq, -⟩
  · rw [heq]
    exact Cleans.refl
  · rw [heq]
    exact hex.trans (setFuncTable_cleans hf (h.imp_right And.right))
  · rw [heq]
    exact hex

theorem cleanFunc_tables (hs : Functional voc s) (ht : Tables voc s) (hf : f ∈ voc.funcs) :
    Tables voc (cleanFunc voc s f) := by
  have hcleans := cleanFunc_cleans hs hf
  have old : ∀ g ∈ voc.funcs, s.functable g = Bool.true →
      DecidedFunc voc (cleanFunc voc s f) g ∧
        ∀ d ∈ voc.domain g, Assigned voc (cleanFunc voc s f) g d := by
    intro g hg hgt
    obtain ⟨hdec, hass⟩ := ht g hg hgt
    exact ⟨hdec.of_extends hcleans.refines hg, fun d hd => (hass d hd).of_extends hcleans.refines hg hd⟩
  intro g hg hgt
  rcases cleanFunc_cases hs hf with ⟨-, heq⟩ | ⟨-, heq, h⟩ | ⟨-, heq, -⟩
  · exact old g hg (heq ▸ hgt)
  · by_cases hgf : g = f
    · subst hgf
      rw [heq]
      refine ⟨setFuncTable_decided, fun d hd => ?_⟩
      refine Assigned.of_extends ?_ (setFuncTable_cleans hg (h.imp_right And.right)).refines hg hd
      by_cases htrue : ∃ e ∈ voc.imageSort g, (excluded voc s g).value (.graph g d e) = .true
      · exact Or.inl htrue
      · obtain ⟨hp, hdec⟩ := h.resolve_left fun h => htrue (h d hd)
        refine Or.inr ⟨hp, fun e he => ?_⟩
        cases hv : (excluded voc s g).value (.graph g d e) with
        | true => exact absurd ⟨e, he, hv⟩ htrue
        | false => rfl
        | unknown => exact absurd hv (hdec d hd e he)
    · refine old g hg ?_
      have htable : (cleanFunc voc s f).functable g = (excluded voc s f).functable g :=
        heq ▸ if_neg hgf
      rw [← hgt, htable, excluded_functable]
  · exact old g hg (by rw [← hgt, heq, excluded_functable])

theorem cleanFunc_decided (hs : Functional voc s) (ht : Tables voc s) (hf : f ∈ voc.funcs)
    (ha : ∀ d ∈ voc.domain f, Assigned voc s f d) : DecidedFunc voc (cleanFunc voc s f) f := by
  rcases cleanFunc_cases hs hf with ⟨htab, heq⟩ | ⟨-, heq, -⟩ | ⟨-, heq, h⟩
  · rw [heq]
    exact (ht f hf htab).1
  · rw [heq]
    exact setFuncTable_decided
  · have hex := excluded_cleans hs hf
    have hass := fun d hd => (ha d hd).of_extends hex.refines hf hd
    have hp : voc.isPartial f = Bool.true := by
      by_contra hp
      exact h fun d hd => (hass d hd).resolve_right fun h => hp h.1
    rw [heq]
    intro d hd e he
    rcases ha d hd with ⟨e', he', htrue⟩ | ⟨-, hfalse⟩
    · by_cases heq' : e' = e
      · have hin : InUniverse voc (.graph f d e) := ⟨hf, hd, he⟩
        rw [hex.refines.true hin (heq' ▸ htrue)]
        exact TruthValue.noConfusion
      · have hother : (excluded voc s f).value (.graph f d e) = .false := by
          rw [excluded, if_pos hp]
          exact if_pos ⟨rfl, hd, he, e', mem_images.mpr ⟨he', htrue⟩, heq'⟩
        rw [hother]
        exact TruthValue.noConfusion
    · have hin : InUniverse voc (.graph f d e) := ⟨hf, hd, he⟩
      rw [hex.refines.false hin (hfalse e he)]
      exact TruthValue.noConfusion

theorem cleanFuncs_spec {fs : List F} (hs : Functional voc s) (ht : Tables voc s)
    (hfs : ∀ f ∈ fs, f ∈ voc.funcs) :
    Cleans voc s (fs.foldl (cleanFunc voc) s) ∧ Tables voc (fs.foldl (cleanFunc voc) s) ∧
      ∀ f ∈ fs, (∀ d ∈ voc.domain f, Assigned voc s f d) →
        DecidedFunc voc (fs.foldl (cleanFunc voc) s) f := by
  induction fs generalizing s with
  | nil => exact ⟨Cleans.refl, ht, fun _ hf => absurd hf List.not_mem_nil⟩
  | cons g fs ih =>
    obtain ⟨hg, hfs⟩ := List.forall_mem_cons.mp hfs
    have hfirst := cleanFunc_cleans hs hg
    obtain ⟨hcleans, htables, hdec⟩ := ih (hfirst.functional hs) (cleanFunc_tables hs ht hg) hfs
    refine ⟨hfirst.trans hcleans, htables, List.forall_mem_cons.mpr ⟨fun ha => ?_, fun f hf ha => ?_⟩⟩
    · exact (cleanFunc_decided hs ht hg ha).of_extends hcleans.refines hg
    · exact hdec f hf fun d hd => (ha d hd).of_extends hfirst.refines (hfs f hf) hd

theorem clean_cleans (hs : Functional voc s) (ht : Tables voc s) : Cleans voc s (clean voc s) :=
  (cleanFuncs_spec hs ht fun _ h => h).1

theorem clean_tables (hs : Functional voc s) (ht : Tables voc s) : Tables voc (clean voc s) :=
  (cleanFuncs_spec hs ht fun _ h => h).2.1

theorem clean_decided (hs : Functional voc s) (ht : Tables voc s) (hf : f ∈ voc.funcs)
    (ha : ∀ d ∈ voc.domain f, Assigned voc s f d) : DecidedFunc voc (clean voc s) f :=
  (cleanFuncs_spec hs ht fun _ h => h).2.2 f hf ha

end CleanFunc

end TwoValued
