import DeclarativeLocalSearch.Structure.TwoValuedExtensions

set_option linter.unusedSectionVars false

namespace TwoValued

variable {P F D : Type} [DecidableEq P] [DecidableEq F] [DecidableEq D]

-- one image is chosen for every input, and one truth value for every atom of a predicate
inductive Choice (P F D : Type) where
  | input (f : F) (d : List D)
  | atom (p : P) (t : List D)

section Invariant

variable (voc : Vocabulary P F D)

def Choice.Valid : Choice P F D → Prop
  | .input f d => f ∈ voc.funcs ∧ d ∈ voc.domain f
  | .atom p t => p ∈ voc.preds ∧ t ∈ voc.predUniverse p

def Choice.Settled (s : Interpretation P F D) : Choice P F D → Prop
  | .input f d => Assigned voc s f d
  | .atom p t => s.value (.pred p t) ≠ .unknown

def Choice.Pending (o s : Interpretation P F D) : Choice P F D → Prop
  | .input f d => ∀ e ∈ voc.imageSort f, s.value (.graph f d e) = o.value (.graph f d e)
  | .atom p t => s.value (.pred p t) = o.value (.pred p t)

def Apart (s s' : Interpretation P F D) : Prop := ∀ t, Extension voc s t → ¬ Extension voc s' t

def AtMost (need : ℕ → Bool) (n : ℕ) : Prop := ∀ k < n, need k = Bool.true

-- the extensions found so far, with the choices that are still to be made
structure Invariant (o : Interpretation P F D) (need : ℕ → Bool)
    (extensions : List (Interpretation P F D)) (todo : Set (Choice P F D)) : Prop where
  good : ∀ s ∈ extensions, Good voc o s
  apart : extensions.Pairwise (Apart voc)
  atMost : AtMost need extensions.length
  pending : ∀ s ∈ extensions, ∀ c ∈ todo, c.Valid voc → ¬ c.Settled voc o → c.Pending voc o s
  all : need extensions.length = Bool.true → ∀ t, Extension voc o t →
    ∃ s ∈ extensions, Extension voc s t
  settled : need extensions.length = Bool.true → ∀ s ∈ extensions, ∀ c, c.Valid voc → c ∉ todo →
    c.Settled voc s

-- what a choice does to one of the extensions
structure Child (o : Interpretation P F D) (c : Choice P F D) (s s' : Interpretation P F D) :
    Prop where
  good : Good voc o s'
  refines : Extends voc s' s
  settled : c.Settled voc s'
  pending : ∀ c', c' ≠ c → c'.Valid voc → ¬ c'.Settled voc o → c'.Pending voc o s → c'.Pending voc o s'

variable {voc} {o s s' t : Interpretation P F D} {need : ℕ → Bool}
  {extensions extensions' : List (Interpretation P F D)} {todo todo' : Set (Choice P F D)}
  {c : Choice P F D}

theorem Choice.Settled.of_extends (h : c.Settled voc s) (he : Extends voc s' s) (hc : c.Valid voc) :
    c.Settled voc s' := by
  cases c with
  | input f d => exact Assigned.of_extends h he hc.1 hc.2
  | atom p t =>
    have hs : s.value (.pred p t) ≠ .unknown := h
    have heq := he (.pred p t) hc hs
    exact fun hun => hs (heq ▸ hun)

theorem Invariant.stop (h : Invariant voc o need extensions todo)
    (hn : need extensions.length = Bool.false) (hsub : todo' ⊆ todo) :
    Invariant voc o need extensions todo' where
  good := h.good
  apart := h.apart
  atMost := h.atMost
  pending s hs c hc := h.pending s hs c (hsub hc)
  all hneed := absurd (hneed.symm.trans hn) Bool.noConfusion
  settled hneed := absurd (hneed.symm.trans hn) Bool.noConfusion

theorem Invariant.skip (h : Invariant voc o need extensions todo) (hsub : todo' ⊆ todo)
    (hc : ∀ c ∈ todo, c ∉ todo' → c.Valid voc → c.Settled voc o) :
    Invariant voc o need extensions todo' where
  good := h.good
  apart := h.apart
  atMost := h.atMost
  pending s hs c hc' := h.pending s hs c (hsub hc')
  all := h.all
  settled hneed s hs c hv hnot := by
    by_cases hmem : c ∈ todo
    · exact (hc c hmem hnot hv).of_extends (h.good s hs).refines hv
    · exact h.settled hneed s hs c hv hmem

theorem Invariant.step (h : Invariant voc o need extensions todo)
    (hn : need extensions.length = Bool.true)
    (hchild : ∀ s' ∈ extensions', ∃ s ∈ extensions, Child voc o c s s')
    (hapart : extensions'.Pairwise (Apart voc)) (hmost : AtMost need extensions'.length)
    (hall : need extensions'.length = Bool.true → ∀ s ∈ extensions, ∀ t, Extension voc s t →
      ∃ s' ∈ extensions', Extension voc s' t) :
    Invariant voc o need extensions' (todo \ {c}) where
  good s' hs' := by
    obtain ⟨s, -, hc⟩ := hchild s' hs'
    exact hc.good
  apart := hapart
  atMost := hmost
  pending s' hs' c' hc' hv hopen := by
    obtain ⟨s, hs, hc⟩ := hchild s' hs'
    exact hc.pending c' hc'.2 hv hopen (h.pending s hs c' hc'.1 hv hopen)
  all hneed t ht := by
    obtain ⟨s, hs, hext⟩ := h.all hn t ht
    exact hall hneed s hs t hext
  settled _ s' hs' c' hv hc' := by
    obtain ⟨s, hs, hc⟩ := hchild s' hs'
    by_cases heq : c' = c
    · exact heq ▸ hc.settled
    · have hold := h.settled hn s hs c' hv fun hmem => hc' ⟨hmem, heq⟩
      exact hold.of_extends hc.refines hv

end Invariant

section Lists

variable {need : ℕ → Bool} {S : Type}

theorem AtMost.succ {n : ℕ} (h : AtMost need n) (hn : need n = Bool.true) : AtMost need (n + 1) := by
  intro k hk
  rcases Nat.lt_succ_iff_lt_or_eq.mp hk with hk | rfl
  · exact h k hk
  · exact hn

theorem need_of_le (hanti : ∀ k, need (k + 1) = Bool.true → need k = Bool.true) {m n : ℕ}
    (hle : m ≤ n) (hn : need n = Bool.true) : need m = Bool.true := by
  induction hle with
  | refl => exact hn
  | step _ ih => exact ih (hanti _ hn)

theorem addModels_spec (make : Interpretation P F D → Interpretation P F D) (others : ℕ)
    (extensions newstructs : List (Interpretation P F D)) :
    ∃ l, addModels need make others extensions newstructs = newstructs ++ l ∧
      l.Sublist (extensions.map make) ∧
      (need (others + (newstructs ++ l).length) = Bool.true → l = extensions.map make) ∧
      (AtMost need (others + newstructs.length) → AtMost need (others + (newstructs ++ l).length)) := by
  induction extensions generalizing newstructs with
  | nil => exact ⟨[], by simp [addModels], List.Sublist.refl _, fun _ => rfl, by simp⟩
  | cons s extensions ih =>
    rw [addModels]
    split_ifs with hneed
    · obtain ⟨l, heq, hsub, hfull, hmost⟩ := ih (newstructs ++ [make s])
      refine ⟨make s :: l, by rw [heq]; simp, hsub.cons_cons _, fun h => ?_, fun h => ?_⟩
      · rw [hfull (by simpa using h), List.map_cons]
      · have hlen : AtMost need (others + (newstructs ++ [make s]).length) := by
          simpa [Nat.add_assoc] using h.succ hneed
        simpa using hmost hlen
    · refine ⟨[], by simp, List.nil_sublist _, fun h => ?_, by simp⟩
      exact absurd (by simpa using h) hneed

theorem decideAtom_spec (need : ℕ → Bool) (a : Atom P F D) (extensions newstructs : List (Interpretation P F D)) :
    ∃ l, decideAtom need a extensions newstructs = newstructs ++ l ∧
      l.Sublist (extensions.flatMap fun s => [s.set a .true, s.set a .false]) ∧
      (need (newstructs ++ l).length = Bool.true →
        l = extensions.flatMap fun s => [s.set a .true, s.set a .false]) ∧
      (AtMost need newstructs.length → AtMost need (newstructs ++ l).length) := by
  induction extensions generalizing newstructs with
  | nil => exact ⟨[], by simp [decideAtom], List.Sublist.refl _, fun _ => rfl, by simp⟩
  | cons s extensions ih =>
    rw [decideAtom]
    split_ifs with hneed hneed'
    · obtain ⟨l, heq, hsub, hfull, hmost⟩ := ih (newstructs ++ [s.set a .true] ++ [s.set a .false])
      refine ⟨s.set a .true :: s.set a .false :: l, by rw [heq]; simp,
        (hsub.cons_cons _).cons_cons _, fun h => ?_, fun h => ?_⟩
      · rw [hfull (by simpa using h)]
        rfl
      · have hlen := (h.succ hneed).succ (by simpa using hneed')
        simpa using hmost (by simpa using hlen)
    · refine ⟨[s.set a .true], rfl, (List.nil_sublist _).cons_cons _, fun h => absurd h hneed',
        fun h => ?_⟩
      simpa using h.succ hneed
    · refine ⟨[], by simp, List.nil_sublist _, fun h => ?_, by simp⟩
      exact absurd (by simpa using h) hneed

variable {voc : Vocabulary P F D} {o : Interpretation P F D} {f : F} {d : List D}

-- the images of the sort that are still possible
def possible (o : Interpretation P F D) (f : F) (d : List D) (images : List D) : List D :=
  images.filter fun e => o.value (.graph f d e) ≠ .false

def exclude (f : F) (d : List D) (images : List D) (s : Interpretation P F D) :
    Interpretation P F D :=
  images.foldl (fun s e => s.set (.graph f d e) .false) s

def choose (voc : Vocabulary P F D) (f : F) (d : List D) (e : D) (s : Interpretation P F D) :
    Interpretation P F D :=
  clean voc (s.set (.graph f d e) .true)

theorem possible_cons (e : D) (images : List D) : possible o f d (e :: images) =
    if o.value (.graph f d e) = .false then possible o f d images
    else e :: possible o f d images := by
  rw [possible, possible, List.filter_cons]
  split_ifs <;> simp_all

theorem chooseImages_spec (voc : Vocabulary P F D) (o : Interpretation P F D) (f : F) (d : List D)
    (hanti : ∀ k, need (k + 1) = Bool.true → need k = Bool.true) (extensions : List (Interpretation P F D)) (images : List D)
    (partials newstructs : List (Interpretation P F D)) :
    ∃ l, chooseImages voc need o f d extensions images partials newstructs =
        newstructs ++ l ++ partials.map (exclude f d (possible o f d images)) ∧
      l.Sublist ((possible o f d images).flatMap fun e => extensions.map (choose voc f d e)) ∧
      (need (partials.length + (newstructs ++ l).length) = Bool.true →
        l = (possible o f d images).flatMap fun e => extensions.map (choose voc f d e)) ∧
      (AtMost need (partials.length + newstructs.length) →
        AtMost need (partials.length + (newstructs ++ l).length)) := by
  induction images generalizing partials newstructs with
  | nil =>
    have hid : partials.map (exclude f d []) = partials :=
      List.map_id partials
    exact ⟨[], by simp [chooseImages, possible, hid], List.Sublist.refl _, fun _ => rfl, by simp⟩
  | cons e images ih =>
    rw [chooseImages, possible_cons]
    by_cases hfalse : o.value (.graph f d e) = .false
    · rw [if_pos hfalse, if_pos hfalse]
      exact ih partials newstructs
    · rw [if_neg hfalse, if_neg hfalse]
      obtain ⟨l1, heq1, hsub1, hfull1, hmost1⟩ := addModels_spec
        (fun s => clean voc (s.set (.graph f d e) .true)) partials.length extensions newstructs
      obtain ⟨l2, heq2, hsub2, hfull2, hmost2⟩ :=
        ih (partials.map fun s => s.set (.graph f d e) .false) (newstructs ++ l1)
      rw [List.length_map] at hfull2 hmost2
      rw [heq1]
      refine ⟨l1 ++ l2, ?_, ?_, fun h => ?_, fun h => ?_⟩
      · rw [heq2, List.map_map]
        simp only [List.append_assoc]
        rfl
      · exact hsub1.append hsub2
      · have hle : partials.length + (newstructs ++ l1).length ≤
            partials.length + (newstructs ++ (l1 ++ l2)).length := by
          simp only [List.length_append]
          omega
        rw [List.flatMap_cons, hfull2 (by simpa using h), hfull1 (need_of_le hanti hle h)]
        rfl
      · simpa using hmost2 (hmost1 h)

end Lists

section Children

variable {voc : Vocabulary P F D} {o s s' t : Interpretation P F D} {f : F} {d : List D} {e : D}
  {c : Choice P F D}

theorem not_true_of_not_settled (hc : ¬ (Choice.input f d : Choice P F D).Settled voc o)
    (hs : (Choice.input f d : Choice P F D).Pending voc o s) :
    ∀ e ∈ voc.imageSort f, s.value (.graph f d e) ≠ .true :=
  fun e he hv => hc (Or.inl ⟨e, he, (hs e he).symm.trans hv⟩)

theorem Cleans.choice (h : Cleans voc s s') (hv : c.Valid voc) (hc : ¬ c.Settled voc o)
    (hp : c.Pending voc o s) : c.Pending voc o s' := by
  cases c with
  | atom p t => exact (h.pred p t).trans hp
  | input g d =>
    have hno := not_true_of_not_settled hc hp
    intro e he
    rw [← hp e he]
    by_cases hun : ∃ e ∈ voc.imageSort g, s.value (.graph g d e) = .unknown
    · exact h.pending g d hno hun hv.2 e he
    · refine h.refines (.graph g d e) ⟨hv.1, hv.2, he⟩ fun hv => hun ⟨e, he, hv⟩

theorem set_choice {a : Atom P F D} {v : TruthValue} (hp : c.Pending voc o s)
    (ha : ∀ g d e, c = .input g d → (.graph g d e : Atom P F D) ≠ a)
    (ha' : ∀ p t, c = .atom p t → (.pred p t : Atom P F D) ≠ a) : c.Pending voc o (s.set a v) := by
  cases c with
  | atom p t => exact (set_other (ha' p t rfl)).trans hp
  | input g d => exact fun e he => (set_other (ha g d e rfl)).trans (hp e he)

theorem choose_child (h : Good voc o s) (hf : f ∈ voc.funcs) (hd : d ∈ voc.domain f)
    (he : e ∈ voc.imageSort f) (ha : s.value (.graph f d e) = .unknown)
    (hno : ∀ e' ∈ voc.imageSort f, s.value (.graph f d e') ≠ .true) :
    Child voc o (.input f d) s (choose voc f d e s) := by
  have hset := h.set_true ha hno
  have hcleans := clean_cleans hset.functional hset.tables
  refine ⟨hset.clean, hcleans.refines.trans (extends_set ha), Or.inl ⟨e, he, ?_⟩, ?_⟩
  · exact hcleans.refines.true ⟨hf, hd, he⟩ set_same
  · intro c' hne hv hopen hp
    refine hcleans.choice hv hopen (set_choice hp ?_ ?_)
    · rintro g d' e' rfl heq
      obtain ⟨rfl, rfl, -⟩ := Atom.graph.inj heq
      exact hne rfl
    · exact fun p t _ heq => absurd heq nofun

theorem foldl_set_value {images : List D} {a : Atom P F D} {v : TruthValue} :
    (images.foldl (fun s e => s.set (.graph f d e) v) s).value a =
      if ∃ e ∈ images, a = .graph f d e then v else s.value a := by
  induction images generalizing s with
  | nil => simp
  | cons e images ih =>
    have hcons : (∃ e' ∈ e :: images, a = .graph f d e') ↔
        a = .graph f d e ∨ ∃ e' ∈ images, a = .graph f d e' := List.exists_mem_cons_iff _ _ _
    rw [List.foldl_cons, ih]
    by_cases htail : ∃ e ∈ images, a = .graph f d e
    · rw [if_pos htail, if_pos (hcons.mpr (Or.inr htail))]
    · by_cases hhead : a = .graph f d e
      · rw [if_neg htail, if_pos (hcons.mpr (Or.inl hhead)), hhead, set_same]
      · rw [if_neg htail, if_neg (mt hcons.mp (not_or.mpr ⟨hhead, htail⟩)), set_other hhead]

theorem foldl_set_fields (images : List D) (v : TruthValue) :
    (images.foldl (fun s e => s.set (.graph f d e) v) s).functable = s.functable ∧
      (images.foldl (fun s e => s.set (.graph f d e) v) s).approxTwoValued = s.approxTwoValued := by
  induction images generalizing s with
  | nil => exact ⟨rfl, rfl⟩
  | cons e images ih => exact ih

theorem exclude_value {images : List D} {a : Atom P F D} :
    (exclude f d images s).value a =
      if ∃ e ∈ images, a = .graph f d e then .false else s.value a := foldl_set_value

theorem exclude_good {images : List D} (h : Good voc o s) (hp : voc.isPartial f = Bool.true)
    (hnodup : images.Nodup) (hun : ∀ e ∈ images, s.value (.graph f d e) = .unknown) :
    Good voc o (exclude f d images s) := by
  induction images generalizing s with
  | nil => exact h
  | cons e images ih =>
    obtain ⟨he, hrest⟩ := List.forall_mem_cons.mp hun
    obtain ⟨hnot, hnodup⟩ := List.nodup_cons.mp hnodup
    refine ih (h.set_of he fun g d' e' heq => ?_) hnodup fun e' he' => ?_
    · obtain ⟨rfl, -, -⟩ := Atom.graph.inj heq
      exact ⟨rfl, hp⟩
    · refine (set_other fun heq => hnot ?_).trans (hrest e' he')
      exact (Atom.graph.inj heq).2.2 ▸ he'

theorem mem_possible {images : List D} :
    e ∈ possible o f d images ↔ e ∈ images ∧ o.value (.graph f d e) ≠ .false := by
  simp [possible]

theorem exclude_child (h : Good voc o s) (hp : voc.isPartial f = Bool.true)
    (hpending : (Choice.input f d : Choice P F D).Pending voc o s)
    (hun : ∀ e ∈ possible o f d (voc.imageSort f), s.value (.graph f d e) = .unknown) :
    Child voc o (.input f d) s (exclude f d (possible o f d (voc.imageSort f)) s) where
  good := exclude_good h hp ((voc.imageSort_nodup f).filter _) hun
  refines a _ hne := by
    rw [exclude_value, if_neg]
    rintro ⟨e, he, rfl⟩
    exact hne (hun e he)
  settled := by
    refine Or.inr ⟨hp, fun e he => ?_⟩
    rw [exclude_value]
    split_ifs with hmem
    · rfl
    · rw [hpending e he]
      by_contra hv
      exact hmem ⟨e, mem_possible.mpr ⟨he, hv⟩, rfl⟩
  pending c' hne _ _ hp' := by
    cases c' with
    | atom p t =>
      refine (exclude_value.trans (if_neg ?_)).trans hp'
      rintro ⟨e, -, heq⟩
      exact absurd heq nofun
    | input g d' =>
      intro e' he'
      refine (exclude_value.trans (if_neg ?_)).trans (hp' e' he')
      rintro ⟨e, -, heq⟩
      obtain ⟨rfl, rfl, -⟩ := Atom.graph.inj heq
      exact hne rfl

theorem atom_child {p : P} {t : List D} {v : TruthValue} (h : Good voc o s)
    (ha : s.value (.pred p t) = .unknown) (hv : v ≠ .unknown) :
    Child voc o (.atom p t) s (s.set (.pred p t) v) where
  good := h.set_of ha fun _ _ _ heq => absurd heq nofun
  refines := extends_set ha
  settled := by
    have heq : (s.set (.pred p t) v).value (.pred p t) = v := set_same
    exact fun hun => hv (heq.symm.trans hun)
  pending c' hne _ _ hp := by
    refine set_choice hp (fun _ _ _ _ heq => absurd heq nofun) ?_
    rintro q t' rfl heq
    obtain ⟨rfl, rfl⟩ := Atom.pred.inj heq
    exact hne rfl

end Children

section Steps

variable {voc : Vocabulary P F D} {o : Interpretation P F D} {need : ℕ → Bool}
  {extensions : List (Interpretation P F D)} {todo : Set (Choice P F D)} {f : F} {d : List D}

theorem Apart.of_extends {s s' t t' : Interpretation P F D} (h : Apart voc s s')
    (ht : Extends voc t s) (ht' : Extends voc t' s') : Apart voc t t' :=
  fun u hu hu' => h u (hu.weaken ht) (hu'.weaken ht')

theorem apart_of_values {s s' : Interpretation P F D} {a : Atom P F D} {v v' : TruthValue}
    (ha : InUniverse voc a) (hs : s.value a = v) (hs' : s'.value a = v') (hv : v ≠ .unknown)
    (hv' : v' ≠ .unknown) (hne : v ≠ v') : Apart voc s s' := by
  intro t ht ht'
  have h1 := ht.extends_ a ha (hs.symm ▸ hv)
  have h2 := ht'.extends_ a ha (hs'.symm ▸ hv')
  exact hne (by rw [← hs, ← hs', ← h1, ← h2])

theorem Invariant.input (hanti : ∀ k, need (k + 1) = Bool.true → need k = Bool.true)
    (h : Invariant voc o need extensions todo) (hn : need extensions.length = Bool.true)
    (hf : f ∈ voc.funcs) (hd : d ∈ voc.domain f) (hc : .input f d ∈ todo)
    (hopen : ¬ (Choice.input f d : Choice P F D).Settled voc o) :
    Invariant voc o need (generateMorePreciseStructures voc need o f d extensions)
      (todo \ {.input f d}) := by
  have hpending : ∀ s ∈ extensions, (Choice.input f d : Choice P F D).Pending voc o s :=
    fun s hs => h.pending s hs _ hc ⟨hf, hd⟩ hopen
  have hno := fun s hs => not_true_of_not_settled hopen (hpending s hs)
  have hun : ∀ s ∈ extensions, ∀ e ∈ possible o f d (voc.imageSort f),
      s.value (.graph f d e) = .unknown := by
    intro s hs e he
    obtain ⟨he, hne⟩ := mem_possible.mp he
    cases hv : s.value (.graph f d e) with
    | true => exact absurd hv (hno s hs e he)
    | false => exact absurd ((hpending s hs e he).symm.trans hv) hne
    | unknown => rfl
  have hplist : ∀ s, s ∈ (if voc.isPartial f then extensions else []) →
      s ∈ extensions ∧ voc.isPartial f = Bool.true := by
    intro s hs
    split_ifs at hs with hp
    · exact ⟨hs, hp⟩
    · exact absurd hs List.not_mem_nil
  have hpairs : (if voc.isPartial f then extensions else []).Pairwise (Apart voc) := by
    split_ifs
    · exact h.apart
    · exact List.Pairwise.nil
  obtain ⟨l, heq, hsub, hfull, hmost⟩ := chooseImages_spec voc o f d hanti extensions
    (voc.imageSort f) (if voc.isPartial f then extensions else []) []
  have hchosen : ∀ s' ∈ (possible o f d (voc.imageSort f)).flatMap
      fun e => extensions.map (choose voc f d e), ∃ e ∈ possible o f d (voc.imageSort f),
        ∃ s ∈ extensions, s' = choose voc f d e s ∧ Child voc o (.input f d) s s' := by
    intro s' hs'
    obtain ⟨e, he, hs'⟩ := List.mem_flatMap.mp hs'
    obtain ⟨s, hs, rfl⟩ := List.mem_map.mp hs'
    exact ⟨e, he, s, hs, rfl, choose_child (h.good s hs) hf hd (mem_possible.mp he).1
      (hun s hs e he) (hno s hs)⟩
  have hexcluded : ∀ s' ∈ (if voc.isPartial f then extensions else []).map
      (exclude f d (possible o f d (voc.imageSort f))), ∃ s ∈ extensions,
        s' = exclude f d (possible o f d (voc.imageSort f)) s ∧ Child voc o (.input f d) s s' := by
    intro s' hs'
    obtain ⟨s, hs, rfl⟩ := List.mem_map.mp hs'
    obtain ⟨hs, hp⟩ := hplist s hs
    exact ⟨s, hs, rfl, exclude_child (h.good s hs) hp (hpending s hs) (hun s hs)⟩
  have htrue : ∀ s ∈ extensions, ∀ e ∈ possible o f d (voc.imageSort f),
      (choose voc f d e s).value (.graph f d e) = .true := by
    intro s hs e he
    have hset := (h.good s hs).set_true (hun s hs e he) (hno s hs)
    exact (clean_cleans hset.functional hset.tables).refines.true
      ⟨hf, hd, (mem_possible.mp he).1⟩ set_same
  rw [generateMorePreciseStructures, heq, List.nil_append]
  have hlen : (l ++ (if voc.isPartial f then extensions else []).map
      (exclude f d (possible o f d (voc.imageSort f)))).length =
      (if voc.isPartial f then extensions else []).length + l.length := by
    rw [List.length_append, List.length_map, Nat.add_comm]
  refine h.step hn ?_ ?_ ?_ ?_
  · intro s' hs'
    rcases List.mem_append.mp hs' with hs' | hs'
    · obtain ⟨-, -, s, hs, -, hchild⟩ := hchosen s' (hsub.subset hs')
      exact ⟨s, hs, hchild⟩
    · obtain ⟨s, hs, -, hchild⟩ := hexcluded s' hs'
      exact ⟨s, hs, hchild⟩
  · refine List.pairwise_append.mpr ⟨List.Pairwise.sublist hsub ?_, ?_, ?_⟩
    · refine List.pairwise_flatMap.mpr ⟨fun e he => ?_, ?_⟩
      · refine List.pairwise_map.mpr (h.apart.imp_of_mem fun hs hs' hap => ?_)
        have hchild := fun s hs => choose_child (h.good s hs) hf hd (mem_possible.mp he).1
          (hun s hs e he) (hno s hs)
        exact hap.of_extends (hchild _ hs).refines (hchild _ hs').refines
      · have hnodup : (possible o f d (voc.imageSort f)).Nodup := (voc.imageSort_nodup f).filter _
        refine hnodup.imp_of_mem fun {e e'} he he' hne x hx y hy t ht ht' => ?_
        obtain ⟨s, hs, rfl⟩ := List.mem_map.mp hx
        obtain ⟨s', hs', rfl⟩ := List.mem_map.mp hy
        have hmem := (mem_possible.mp he).1
        have hmem' := (mem_possible.mp he').1
        exact hne (ht.twoValued.functional f hf d hd e hmem e' hmem'
          (ht.extends_.true ⟨hf, hd, hmem⟩ (htrue s hs e he))
          (ht'.extends_.true ⟨hf, hd, hmem'⟩ (htrue s' hs' e' he')))
    · refine List.pairwise_map.mpr (List.Pairwise.imp_of_mem ?_ hpairs)
      intro s s' hs hs' hap
      have hchild := fun s hs => exclude_child (h.good s (hplist s hs).1) (hplist s hs).2
        (hpending s (hplist s hs).1) (hun s (hplist s hs).1)
      exact hap.of_extends (hchild s hs).refines (hchild s' hs').refines
    · intro x hx y hy
      obtain ⟨e, he, s, hs, rfl, -⟩ := hchosen x (hsub.subset hx)
      obtain ⟨s', -, rfl, -⟩ := hexcluded y hy
      refine apart_of_values (a := .graph f d e) ⟨hf, hd, (mem_possible.mp he).1⟩ (htrue s hs e he)
        (exclude_value.trans (if_pos ⟨e, he, rfl⟩)) TruthValue.noConfusion TruthValue.noConfusion
        TruthValue.noConfusion
  · rw [hlen]
    have hle : (if voc.isPartial f then extensions else []).length ≤ extensions.length := by
      split_ifs
      · exact Nat.le_refl _
      · exact Nat.zero_le _
    have := hmost fun k hk => h.atMost k (Nat.lt_of_lt_of_le hk hle)
    simpa using this
  · intro hneed s hs t ht
    rw [hlen] at hneed
    have hfull := hfull (by simpa using hneed)
    by_cases hex : ∃ e ∈ voc.imageSort f, t.value (.graph f d e) = .true
    · obtain ⟨e, he, hv⟩ := hex
      have hin : InUniverse voc (.graph f d e) := ⟨hf, hd, he⟩
      have hposs : e ∈ possible o f d (voc.imageSort f) := by
        refine mem_possible.mpr ⟨he, fun hfalse => ?_⟩
        have hext := ht.extends_.false hin ((hpending s hs e he).trans hfalse)
        exact absurd (hv.symm.trans hext) TruthValue.noConfusion
      have hset := (h.good s hs).set_true (hun s hs e hposs) (hno s hs)
      refine ⟨choose voc f d e s, List.mem_append_left _ ?_,
        (clean_cleans hset.functional hset.tables).keeps t (extension_set ht hv)⟩
      rw [hfull]
      exact List.mem_flatMap.mpr ⟨e, hposs, List.mem_map_of_mem hs⟩
    · have hp : voc.isPartial f = Bool.true := by
        by_contra hp
        exact hex (ht.twoValued.total f hf (by simpa using hp) d hd)
      refine ⟨exclude f d (possible o f d (voc.imageSort f)) s,
        List.mem_append_right _ (List.mem_map_of_mem (by rw [if_pos hp]; exact hs)), ht.twoValued, ?_⟩
      intro a ha hne
      rw [exclude_value] at hne ⊢
      split_ifs at hne ⊢ with hmem
      · obtain ⟨e, he, rfl⟩ := hmem
        have he := (mem_possible.mp he).1
        cases hv : t.value (.graph f d e) with
        | true => exact absurd ⟨e, he, hv⟩ hex
        | false => rfl
        | unknown => exact absurd hv (ht.twoValued.decided _ ha)
      · exact ht.extends_ a ha hne

theorem Invariant.atom {p : P} {t : List D} (h : Invariant voc o need extensions todo)
    (hn : need extensions.length = Bool.true) (hp : p ∈ voc.preds) (ht : t ∈ voc.predUniverse p)
    (hc : .atom p t ∈ todo) (hopen : o.value (.pred p t) = .unknown) :
    Invariant voc o need (decideAtom need (.pred p t) extensions []) (todo \ {.atom p t}) := by
  have hun : ∀ s ∈ extensions, s.value (.pred p t) = .unknown := fun s hs =>
    (h.pending s hs _ hc ⟨hp, ht⟩ fun hdec => hdec hopen).trans hopen
  have hchild : ∀ s ∈ extensions, ∀ v ≠ .unknown, Child voc o (.atom p t) s (s.set (.pred p t) v) :=
    fun s hs v hv => atom_child (h.good s hs) (hun s hs) hv
  obtain ⟨l, heq, hsub, hfull, hmost⟩ := decideAtom_spec need (.pred p t) extensions []
  rw [heq, List.nil_append] at *
  refine h.step hn ?_ (List.Pairwise.sublist hsub ?_) (hmost fun k hk => absurd hk (Nat.not_lt_zero k)) ?_
  · intro s' hs'
    obtain ⟨s, hs, hs'⟩ := List.mem_flatMap.mp (hsub.subset hs')
    rcases List.mem_cons.mp hs' with rfl | hs'
    · exact ⟨s, hs, hchild s hs _ TruthValue.noConfusion⟩
    · rw [List.mem_singleton.mp hs']
      exact ⟨s, hs, hchild s hs _ TruthValue.noConfusion⟩
  · refine List.pairwise_flatMap.mpr ⟨fun s _ => ?_, h.apart.imp_of_mem fun {s s'} hs hs' hap => ?_⟩
    · refine List.pairwise_pair.mpr ?_
      exact apart_of_values (a := .pred p t) ⟨hp, ht⟩ set_same set_same TruthValue.noConfusion
        TruthValue.noConfusion TruthValue.noConfusion
    · have hext : ∀ {s}, s ∈ extensions →
          ∀ x ∈ [s.set (.pred p t) .true, s.set (.pred p t) .false], Extends voc x s := by
        intro s hs x hx
        rcases List.mem_cons.mp hx with rfl | hx
        · exact extends_set (hun s hs)
        · rw [List.mem_singleton.mp hx]
          exact extends_set (hun s hs)
      exact fun x hx y hy => hap.of_extends (hext hs x hx) (hext hs' y hy)
  · intro hneed s hs u hu
    rw [hfull hneed]
    cases hv : u.value (.pred p t) with
    | true => exact ⟨_, List.mem_flatMap.mpr ⟨s, hs, List.mem_cons_self⟩, extension_set hu hv⟩
    | false => exact ⟨_, List.mem_flatMap.mpr ⟨s, hs, by simp⟩, extension_set hu hv⟩
    | unknown => exact absurd hv (hu.twoValued.decided (.pred p t) ⟨hp, ht⟩)

end Steps

end TwoValued
