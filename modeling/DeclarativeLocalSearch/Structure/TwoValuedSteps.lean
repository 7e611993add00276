import DeclarativeLocalSearch.Structure.PartialStructureIterator

set_option linter.unusedSectionVars false

namespace TwoValued

variable {P F D : Type} [DecidableEq P] [DecidableEq F] [DecidableEq D]

section Choices

variable (voc : Vocabulary P F D) (o : Interpretation P F D)

def unknowns (f : F) (d : List D) : List D := images voc o f .unknown d

-- the number of values that an iterator goes through
def Choice.width : Choice P F D → ℕ
  | .atom _ _ => 2
  | .input f d => (unknowns voc o f d).length + if voc.isPartial f then 1 else 0

-- a choice that an iterator is made for
def Choice.Open : Choice P F D → Prop
  | .atom p t => p ∈ voc.preds ∧ t ∈ voc.predUniverse p ∧ o.value (.pred p t) = .unknown
  | .input f d => f ∈ voc.funcs ∧ d ∈ voc.domain f ∧ images voc o f .true d = []

-- the structure after so many steps of the iterator
def Choice.after (c : Choice P F D) (k : ℕ) (s : Interpretation P F D) : Interpretation P F D :=
  match k, c with
  | 0, _ => s
  | k + 1, .atom p t => s.set (.pred p t) (if k = 0 then .true else .false)
  | k + 1, .input f d =>
    match (unknowns voc o f d)[k]? with
    | some e => (exclude f d ((unknowns voc o f d).take k) s).set (.graph f d e) .true
    | none => exclude f d (unknowns voc o f d) s

-- the images that are left, the unknown ones of them and the first of these
def Left (f : F) (d : List D) (iterator : Option (List D)) : List D → Prop
  | [] => iterator = none
  | e :: images => ∃ rest, iterator = some (e :: rest) ∧
      (rest.filter fun e => o.value (.graph f d e) = .unknown) = images

structure AtImage (f : F) (d : List D) (k : ℕ) (it : FunctionSymbolIterator F D) : Prop where
  function : it.function = f
  tuple : it.tuple = d
  left : Left o f d it.iterator ((unknowns voc o f d).drop k)
  doPartial : it.doPartial = (decide (k = (unknowns voc o f d).length) && voc.isPartial f)
  subset : ∀ images, it.iterator = some images → ∀ e ∈ images, e ∈ voc.imageSort f
  first : k = 0 ∨ unknowns voc o f d = [] →
    (it.prevTuple ∈ voc.imageSort f ∧ o.value (.graph f d it.prevTuple) = .false) ∨
      (unknowns voc o f d).head? = some it.prevTuple
  prev : ∀ n, k = n + 1 → n < (unknowns voc o f d).length → (unknowns voc o f d)[n]? = some it.prevTuple
  falsied : ∀ e ∈ it.falsied, e ∈ unknowns voc o f d
  undone : ∀ e ∈ (unknowns voc o f d).take k, e ∈ it.falsied

-- the iterator has made so many steps
def Choice.At (k : ℕ) : Choice P F D → TwoValuedSymbolIterator P F D → Prop
  | .atom p t, .pred it => it = ⟨p, t, k⟩
  | .input f d, .func it => AtImage voc o f d k it
  | _, _ => False

end Choices

section Set

variable {s : Interpretation P F D} {a b : Atom P F D} {v w : TruthValue} {f : F} {d : List D}

theorem set_set (s : Interpretation P F D) (a : Atom P F D) (v w : TruthValue) : (s.set a v).set a w = s.set a w := by
  simp only [Interpretation.set, Interpretation.mk.injEq, and_true]
  funext b
  split_ifs <;> rfl

theorem set_self (h : s.value a = v) : s.set a v = s := by
  have hvalue : (fun b => if b = a then v else s.value b) = s.value := by
    funext b
    split_ifs with hb
    · rw [hb, h]
    · rfl
  rw [Interpretation.set, hvalue]

theorem exclude_append (images images' : List D) : exclude f d (images ++ images') s =
    exclude f d images' (exclude f d images s) := List.foldl_append

theorem makeUnknown_value (it : FunctionSymbolIterator F D) (images : List D) :
    (it.makeUnknown images s).value a =
      if ∃ e ∈ images, a = .graph it.function it.tuple e then .unknown else s.value a := foldl_set_value

end Set

section Init

variable {voc : Vocabulary P F D} {o s : Interpretation P F D} {f : F} {d : List D}
  {it : FunctionSymbolIterator F D}

theorem filter_dropWhile {α : Type} (p : α → Bool) (l : List α) :
    l.filter p = match l.dropWhile fun x => ! p x with
      | [] => []
      | x :: rest => x :: rest.filter p := by
  induction l with
  | nil => rfl
  | cons x l ih =>
    cases hp : p x with
    | true => simp [hp]
    | false => simp [hp, ih]

theorem init_left {images : List D} (hit : it.iterator = some images) (hf : it.function = f) (hd : it.tuple = d)
    (hpart : it.doPartial = false)
    (hsame : ∀ e ∈ images, s.value (.graph f d e) = .unknown ↔ o.value (.graph f d e) = .unknown) :
    Left o f d (it.init voc s).iterator (images.filter fun e => o.value (.graph f d e) = .unknown) ∧
      (it.init voc s).doPartial =
        (decide ((images.filter fun e => o.value (.graph f d e) = .unknown) = []) && voc.isPartial f) ∧
      (it.init voc s).function = f ∧ (it.init voc s).tuple = d ∧ (it.init voc s).prevTuple = it.prevTuple ∧
      (it.init voc s).falsied = it.falsied ∧
      ∀ images', (it.init voc s).iterator = some images' → ∀ e ∈ images', e ∈ images := by
  subst hf hd
  have hfilter : (images.filter fun e => o.value (.graph it.function it.tuple e) = .unknown) =
      images.filter fun e => s.value (.graph it.function it.tuple e) = .unknown :=
    List.filter_congr fun e he => by simp [hsame e he]
  have hdrop := filter_dropWhile (fun e => decide (s.value (.graph it.function it.tuple e) = .unknown)) images
  have hstays : ∀ e ∈ images.dropWhile fun e => decide (s.value (.graph it.function it.tuple e) ≠ .unknown),
      e ∈ images := fun e he => (List.dropWhile_sublist _).subset he
  simp only [← decide_not, ← ne_eq] at hdrop
  rw [hfilter, hdrop]
  unfold FunctionSymbolIterator.init
  rw [hit, Option.getD_some]
  rcases hcase : images.dropWhile fun e => decide (s.value (.graph it.function it.tuple e) ≠ .unknown) with
    _ | ⟨e, rest⟩
  · dsimp only
    refine ⟨rfl, ?_, rfl, rfl, rfl, rfl, nofun⟩
    cases voc.isPartial it.function <;> simp [hpart]
  · dsimp only
    refine ⟨⟨rest, rfl, List.filter_congr fun x hx => ?_⟩, by simp [hpart], rfl, rfl, rfl, rfl, ?_⟩
    · have hx := hstays x (hcase ▸ List.mem_cons_of_mem _ hx)
      simp [hsame x hx]
    · rintro images' heq x hx
      obtain rfl := Option.some.inj heq
      exact hstays x (hcase ▸ hx)

end Init

section Steps

variable {voc : Vocabulary P F D} {o s : Interpretation P F D} {f : F} {d : List D} {k : ℕ} {a : Atom P F D}
  {it : FunctionSymbolIterator F D}

theorem mem_unknowns {e : D} : e ∈ unknowns voc o f d ↔ e ∈ voc.imageSort f ∧ o.value (.graph f d e) = .unknown :=
  mem_images

theorem unknowns_nodup : (unknowns voc o f d).Nodup := (voc.imageSort_nodup f).filter _

theorem after_image {e : D} (he : (unknowns voc o f d)[k]? = some e) :
    (Choice.input f d).after voc o (k + 1) s =
      (exclude f d ((unknowns voc o f d).take k) s).set (.graph f d e) .true := by
  rw [Choice.after, he]

theorem after_last : (Choice.input f d).after voc o ((unknowns voc o f d).length + 1) s =
    exclude f d (unknowns voc o f d) s := by
  have hnone : (unknowns voc o f d)[(unknowns voc o f d).length]? = none := List.getElem?_eq_none (Nat.le_refl _)
  rw [Choice.after, hnone]

theorem after_input_changes : ((Choice.input f d).after voc o k s).value a = s.value a ∨
    ∃ e ∈ (unknowns voc o f d).take k, a = .graph f d e ∧
      ((Choice.input f d).after voc o k s).value a ≠ .unknown := by
  cases k with
  | zero => exact Or.inl rfl
  | succ k =>
    cases hk : (unknowns voc o f d)[k]? with
    | some e =>
      rw [after_image hk, List.take_add_one, hk]
      by_cases heq : a = .graph f d e
      · refine Or.inr ⟨e, List.mem_append_right _ (List.mem_singleton.mpr rfl), heq, ?_⟩
        rw [heq, set_same]
        exact TruthValue.noConfusion
      · rw [set_other heq, exclude_value]
        split_ifs with hmem
        · obtain ⟨e', he', heq'⟩ := hmem
          exact Or.inr ⟨e', List.mem_append_left _ he', heq', TruthValue.noConfusion⟩
        · exact Or.inl rfl
    | none =>
      have hle : (unknowns voc o f d).length ≤ k := List.getElem?_eq_none_iff.mp hk
      rw [Choice.after, hk, List.take_of_length_le (Nat.le_succ_of_le hle)]
      dsimp only
      rw [exclude_value]
      split_ifs with hmem
      · obtain ⟨e', he', heq'⟩ := hmem
        exact Or.inr ⟨e', he', heq', TruthValue.noConfusion⟩
      · exact Or.inl rfl

theorem after_fields (c : Choice P F D) : (c.after voc o k s).functable = s.functable ∧
    (c.after voc o k s).approxTwoValued = s.approxTwoValued := by
  cases k with
  | zero => exact ⟨rfl, rfl⟩
  | succ k =>
    cases c with
    | atom p t => exact ⟨rfl, rfl⟩
    | input f d =>
      rw [Choice.after]
      split
      · exact foldl_set_fields _ _
      · exact foldl_set_fields _ _

theorem AtImage.exclude_prev (h : AtImage voc o f d (k + 1) it) (hk : k < (unknowns voc o f d).length) :
    ((Choice.input f d).after voc o (k + 1) s).set (.graph f d it.prevTuple) .false =
      exclude f d ((unknowns voc o f d).take (k + 1)) s := by
  have hprev := h.prev k rfl hk
  rw [after_image hprev, set_set, List.take_add_one, hprev, exclude_append]
  rfl

theorem AtImage.next_image (h : AtImage voc o f d k it) (hs : (Choice.input f d : Choice P F D).Pending voc o s)
    {e : D} (he : (unknowns voc o f d)[k]? = some e) :
    ((((Choice.input f d).after voc o k s).set (.graph f d it.prevTuple) .false).set (.graph f d e) .true) =
      (Choice.input f d).after voc o (k + 1) s := by
  rw [after_image he]
  cases k with
  | zero =>
    rw [Choice.after, List.take_zero]
    rcases h.first (Or.inl rfl) with ⟨hmem, hfalse⟩ | hhead
    · rw [set_self ((hs _ hmem).trans hfalse)]
      rfl
    · rw [List.head?_eq_getElem?, he] at hhead
      rw [← Option.some.inj hhead, set_set]
      rfl
  | succ k =>
    have hk : k < (unknowns voc o f d).length := Nat.lt_of_succ_lt (List.getElem?_eq_some_iff.mp he).1
    rw [h.exclude_prev hk]

theorem AtImage.next_partial (h : AtImage voc o f d (unknowns voc o f d).length it)
    (hs : (Choice.input f d : Choice P F D).Pending voc o s) :
    ((Choice.input f d).after voc o (unknowns voc o f d).length s).set (.graph f d it.prevTuple) .false =
      (Choice.input f d).after voc o ((unknowns voc o f d).length + 1) s := by
  rw [after_last]
  rcases hlength : (unknowns voc o f d).length with _ | k
  · have hnil := List.length_eq_zero_iff.mp hlength
    rw [Choice.after, hnil]
    rcases h.first (Or.inr hnil) with ⟨hmem, hfalse⟩ | hhead
    · rw [set_self ((hs _ hmem).trans hfalse)]
      rfl
    · rw [hnil] at hhead
      exact absurd hhead nofun
  · rw [hlength] at h
    have hk : k < (unknowns voc o f d).length := by omega
    rw [h.exclude_prev hk, List.take_of_length_le (Nat.le_of_eq hlength)]

theorem after_left (hs : (Choice.input f d : Choice P F D).Pending voc o s) {rest : List D}
    (hsubset : ∀ e ∈ rest, e ∈ voc.imageSort f)
    (hrest : (rest.filter fun e => o.value (.graph f d e) = .unknown) = (unknowns voc o f d).drop k) :
    ∀ e ∈ rest, ((Choice.input f d).after voc o k s).value (.graph f d e) = .unknown ↔
      o.value (.graph f d e) = .unknown := by
  intro e he
  rcases @after_input_changes P F D _ _ _ voc o s f d k (.graph f d e) with
    hsame | ⟨e', he', heq, hne⟩
  · rw [hsame, hs e (hsubset e he)]
  · obtain ⟨-, -, rfl⟩ := Atom.graph.inj heq
    refine ⟨fun hun => absurd hun hne, fun hun => ?_⟩
    have hmem : e ∈ (unknowns voc o f d).drop k := hrest ▸ List.mem_filter.mpr ⟨he, decide_eq_true hun⟩
    exact absurd hmem ((List.disjoint_take_drop unknowns_nodup (Nat.le_refl k)) he')

theorem AtImage.isFinished (h : AtImage voc o f d k it) (hk : k ≤ (Choice.input f d).width voc o) :
    it.isFinished = true ↔ k = (Choice.input f d).width voc o := by
  have hleft := h.left
  rw [FunctionSymbolIterator.isFinished, h.doPartial, Choice.width]
  rw [Choice.width] at hk
  rcases hdrop : (unknowns voc o f d).drop k with _ | ⟨e, rest⟩
  · rw [hdrop, Left] at hleft
    have hle : (unknowns voc o f d).length ≤ k := List.drop_eq_nil_iff.mp hdrop
    rw [hleft]
    cases hp : voc.isPartial f <;> simp [hp] at hk ⊢ <;> omega
  · rw [hdrop] at hleft
    obtain ⟨rest, hit, -⟩ := hleft
    have hlt : k < (unknowns voc o f d).length := by
      by_contra hge
      rw [List.drop_eq_nil_of_le (Nat.le_of_not_lt hge)] at hdrop
      exact absurd hdrop nofun
    rw [hit]
    refine ⟨fun h => by simp at h, fun heq => ?_⟩
    omega

theorem AtImage.doNext_partial (h : AtImage voc o f d (unknowns voc o f d).length it) (hp : voc.isPartial f = true)
    (hs : (Choice.input f d : Choice P F D).Pending voc o s) :
    ∃ it', it.doNext voc ((Choice.input f d).after voc o (unknowns voc o f d).length s) =
        some (it', (Choice.input f d).after voc o ((unknowns voc o f d).length + 1) s) ∧
      AtImage voc o f d ((unknowns voc o f d).length + 1) it' := by
  have hdo : it.doPartial = true := by rw [h.doPartial, hp, decide_eq_true rfl, Bool.and_self]
  have hleft := h.left
  rw [List.drop_length, Left] at hleft
  refine ⟨{ it with doPartial := false }, ?_, ?_⟩
  · rw [FunctionSymbolIterator.doNext, if_pos hdo, h.function, h.tuple, h.next_partial hs]
  · exact {
      function := h.function
      tuple := h.tuple
      left := by
        rw [List.drop_eq_nil_of_le (Nat.le_succ _)]
        exact hleft
      doPartial := by simp
      subset := fun images himages => absurd (hleft.symm.trans himages) nofun
      first := fun hcase => h.first (hcase.imp_left fun h0 => absurd h0 (Nat.succ_ne_zero _))
      prev := fun n hn hlt => by omega
      falsied := h.falsied
      undone := fun e he => by
        rw [List.take_of_length_le (Nat.le_succ _)] at he
        exact h.undone e (by rwa [List.take_length]) }

theorem AtImage.doNext_image (h : AtImage voc o f d k it) (hs : (Choice.input f d : Choice P F D).Pending voc o s)
    (hk : k < (unknowns voc o f d).length) :
    ∃ it', it.doNext voc ((Choice.input f d).after voc o k s) =
        some (it', (Choice.input f d).after voc o (k + 1) s) ∧ AtImage voc o f d (k + 1) it' := by
  have hdrop : (unknowns voc o f d).drop k = (unknowns voc o f d)[k] :: (unknowns voc o f d).drop (k + 1) :=
    List.drop_eq_getElem_cons hk
  have he : (unknowns voc o f d)[k]? = some (unknowns voc o f d)[k] := List.getElem?_eq_getElem hk
  have hmem : (unknowns voc o f d)[k] ∈ unknowns voc o f d := List.getElem_mem hk
  generalize (unknowns voc o f d)[k] = e at hdrop he hmem
  have hleft := h.left
  rw [hdrop] at hleft
  obtain ⟨rest, hit, hrest⟩ := hleft
  have hdo : it.doPartial = false := by
    rw [h.doPartial, decide_eq_false (Nat.ne_of_lt hk), Bool.false_and]
  have hsubset : ∀ x ∈ rest, x ∈ voc.imageSort f := fun x hx => h.subset _ hit x (List.mem_cons_of_mem _ hx)
  obtain ⟨hleft', hpart', hfunction, htuple, hprev, hfalsied, hsubset'⟩ :=
    @init_left P F D _ _ _ voc o ((Choice.input f d).after voc o (k + 1) s) f d
      { it with falsied := it.falsied ++ [e], prevTuple := e, iterator := some rest } _ rfl h.function h.tuple hdo
      (after_left hs hsubset hrest)
  refine ⟨FunctionSymbolIterator.init voc
    { it with falsied := it.falsied ++ [e], prevTuple := e, iterator := some rest }
    ((Choice.input f d).after voc o (k + 1) s), ?_, ?_⟩
  · rw [FunctionSymbolIterator.doNext, if_neg (ne_true_of_eq_false hdo), hit, h.function, h.tuple]
    dsimp only
    rw [h.next_image hs he]
  · exact {
      function := hfunction
      tuple := htuple
      left := hrest ▸ hleft'
      doPartial := by
        rw [hpart', hrest]
        congr 1
        exact decide_eq_decide.mpr (by rw [List.drop_eq_nil_iff]; omega)
      subset := fun images himages x hx => hsubset x (hsubset' images himages x hx)
      first := fun hcase => by
        rcases hcase with hcase | hnil
        · exact absurd hcase (Nat.succ_ne_zero k)
        · rw [hnil] at hmem
          exact absurd hmem List.not_mem_nil
      prev := fun n hn _ => by
        obtain rfl : k = n := Nat.succ_injective hn
        rw [hprev, he]
      falsied := fun x hx => by
        rw [hfalsied] at hx
        rcases List.mem_append.mp hx with hx | hx
        · exact h.falsied x hx
        · exact List.mem_singleton.mp hx ▸ hmem
      undone := fun x hx => by
        rw [hfalsied]
        rw [List.take_add_one, he] at hx
        rcases List.mem_append.mp hx with hx | hx
        · exact List.mem_append_left _ (h.undone x hx)
        · exact List.mem_append_right _ hx }

theorem AtImage.doNext (h : AtImage voc o f d k it) (hk : k < (Choice.input f d).width voc o)
    (hs : (Choice.input f d : Choice P F D).Pending voc o s) :
    ∃ it', it.doNext voc ((Choice.input f d).after voc o k s) = some (it', (Choice.input f d).after voc o (k + 1) s) ∧
      AtImage voc o f d (k + 1) it' := by
  rw [Choice.width] at hk
  by_cases hlt : k < (unknowns voc o f d).length
  · exact h.doNext_image hs hlt
  · split_ifs at hk with hp
    · obtain rfl : k = (unknowns voc o f d).length := by omega
      exact h.doNext_partial hp hs
    · omega

theorem AtImage.makeUnknown (h : AtImage voc o f d k it) (hs : (Choice.input f d : Choice P F D).Pending voc o s) :
    it.makeUnknown it.falsied ((Choice.input f d).after voc o k s) = s := by
  have hvalue : (it.makeUnknown it.falsied ((Choice.input f d).after voc o k s)).value = s.value := by
    funext a
    rw [makeUnknown_value, h.function, h.tuple]
    split_ifs with hmem
    · obtain ⟨e, he, rfl⟩ := hmem
      obtain ⟨hsort, hun⟩ := mem_unknowns.mp (h.falsied e he)
      rw [hs e hsort, hun]
    · rcases @after_input_changes P F D _ _ _ voc o s f d k a with
        hsame | ⟨e, he, heq, -⟩
      · exact hsame
      · exact absurd ⟨e, h.undone e he, heq⟩ hmem
  have hfields := foldl_set_fields (s := (Choice.input f d).after voc o k s) (f := it.function) (d := it.tuple)
    it.falsied .unknown
  have hafter := @after_fields P F D _ _ _ voc o s k (.input f d)
  cases hs' : it.makeUnknown it.falsied ((Choice.input f d).after voc o k s)
  cases s
  rw [FunctionSymbolIterator.makeUnknown] at hs' hvalue
  simp_all

theorem init_at (hit : it.iterator = some (voc.imageSort f)) (hf : it.function = f) (hd : it.tuple = d)
    (hdo : it.doPartial = false) (hs : (Choice.input f d : Choice P F D).Pending voc o s)
    (hfirst : (it.prevTuple ∈ voc.imageSort f ∧ o.value (.graph f d it.prevTuple) = .false) ∨
      (unknowns voc o f d).head? = some it.prevTuple)
    (hfalsied : ∀ e ∈ it.falsied, e ∈ unknowns voc o f d) : AtImage voc o f d 0 (it.init voc s) := by
  obtain ⟨hleft, hpart, hfunction, htuple, hprev, hfalsied', hsubset⟩ :=
    @init_left P F D _ _ _ voc o s _ _ _ _ hit hf hd hdo fun e he => by rw [hs e he]
  exact {
    function := hfunction
    tuple := htuple
    left := hleft
    doPartial := by
      rw [hpart]
      congr 1
      exact decide_eq_decide.mpr ⟨fun h => (List.length_eq_zero_iff.mpr h).symm,
        fun h => List.length_eq_zero_iff.mp h.symm⟩
    subset := hsubset
    first := fun _ => hprev ▸ hfirst
    prev := fun n hn => absurd hn.symm (Nat.succ_ne_zero n)
    falsied := hfalsied' ▸ hfalsied
    undone := fun e he => absurd he (by simp) }

theorem init_prevTuple (e : D) : { it.init voc s with prevTuple := e } =
    FunctionSymbolIterator.init voc { it with prevTuple := e } s := by
  unfold FunctionSymbolIterator.init
  dsimp only
  rcases (it.iterator.getD []).dropWhile fun e => decide (s.value (.graph it.function it.tuple e) ≠ .unknown) with
    _ | ⟨e', images⟩
  · rfl
  · rfl

theorem AtImage.undo (h : AtImage voc o f d ((Choice.input f d).width voc o) it)
    (hs : (Choice.input f d : Choice P F D).Pending voc o s) :
    ∃ it', it.undo voc ((Choice.input f d).after voc o ((Choice.input f d).width voc o) s) = (it', s) ∧
      AtImage voc o f d 0 it' := by
  have hdo : it.doPartial = false := by
    rw [h.doPartial, Choice.width]
    cases hp : voc.isPartial f <;> simp
  have hit : some (voc.imageSort it.function) = some (voc.imageSort f) := by rw [h.function]
  have hleft := (@init_left P F D _ _ _ voc o s f d
    { it with iterator := some (voc.imageSort it.function) } _ hit h.function h.tuple hdo
    fun e he => by rw [hs e he]).1
  rw [FunctionSymbolIterator.undo, h.makeUnknown hs]
  rcases hun : unknowns voc o f d with _ | ⟨e, images⟩
  · rw [unknowns, images] at hun
    rw [hun, Left] at hleft
    rw [hleft]
    exact ⟨_, rfl, init_at hit h.function h.tuple hdo hs (h.first (Or.inr hun)) h.falsied⟩
  · rw [unknowns, TwoValued.images] at hun
    rw [hun] at hleft
    obtain ⟨rest, hrest, -⟩ := hleft
    refine ⟨{ FunctionSymbolIterator.init voc { it with iterator := some (voc.imageSort it.function) } s with
      prevTuple := e }, ?_, ?_⟩
    · dsimp only
      rw [hrest]
    · rw [init_prevTuple]
      refine init_at hit h.function h.tuple hdo hs (Or.inr ?_) h.falsied
      rw [unknowns, TwoValued.images, hun]
      rfl

end Steps

section SymbolIterators

variable {voc : Vocabulary P F D} {o s : Interpretation P F D} {k : ℕ} {c : Choice P F D}
  {it : TwoValuedSymbolIterator P F D}

theorem Choice.At.isFinished (h : c.At voc o k it) (hk : k ≤ c.width voc o) :
    it.isFinished = true ↔ k = c.width voc o := by
  cases c with
  | atom p t =>
    cases it with
    | pred it =>
      obtain rfl : it = ⟨p, t, k⟩ := h
      exact decide_eq_true_iff
    | func it => exact absurd h id
  | input f d =>
    cases it with
    | pred it => exact absurd h id
    | func it => exact AtImage.isFinished h hk

theorem Choice.At.doNext (h : c.At voc o k it) (hk : k < c.width voc o) (hs : c.Pending voc o s) :
    ∃ it', it.doNext voc (c.after voc o k s) = some (it', c.after voc o (k + 1) s) ∧ c.At voc o (k + 1) it' := by
  cases c with
  | atom p t =>
    cases it with
    | pred it =>
      obtain rfl : it = ⟨p, t, k⟩ := h
      refine ⟨.pred ⟨p, t, k + 1⟩, ?_, rfl⟩
      have hcases : k = 0 ∨ k = 1 := by
        have : k < 2 := hk
        omega
      rcases hcases with rfl | rfl
      · rfl
      · have hset : ((Choice.atom p t).after voc o 1 s).set (.pred p t) .false =
            (Choice.atom p t).after voc o 2 s := set_set _ _ _ _
        rw [← hset]
        rfl
    | func it => exact absurd h id
  | input f d =>
    cases it with
    | pred it => exact absurd h id
    | func it =>
      obtain ⟨it', hnext, hat⟩ := AtImage.doNext h hk hs
      exact ⟨.func it', by rw [TwoValuedSymbolIterator.doNext, hnext]; rfl, hat⟩

theorem Choice.At.undo (h : c.At voc o (c.width voc o) it) (hs : c.Pending voc o s)
    (hopen : c.Open voc o) :
    ∃ it', it.undo voc (c.after voc o (c.width voc o) s) = (it', s) ∧ c.At voc o 0 it' := by
  cases c with
  | atom p t =>
    cases it with
    | pred it =>
      obtain rfl : it = ⟨p, t, 2⟩ := h
      refine ⟨.pred ⟨p, t, 0⟩, ?_, rfl⟩
      have hset : ((Choice.atom p t).after voc o 2 s).set (.pred p t) .unknown = s := by
        have hback : s.value (.pred p t) = .unknown := Eq.trans hs hopen.2.2
        exact (set_set _ _ _ _).trans (set_self hback)
      exact congrArg (Prod.mk _) hset
    | func it => exact absurd h id
  | input f d =>
    cases it with
    | pred it => exact absurd h id
    | func it =>
      obtain ⟨it', hundo, hat⟩ := AtImage.undo h hs
      exact ⟨.func it', by rw [TwoValuedSymbolIterator.undo, hundo], hat⟩

theorem doNext_of_isFinished (h : it.isFinished = true) : it.doNext voc s = none := by
  cases it with
  | pred it =>
    have hstate : it.state = 2 := of_decide_eq_true h
    rw [TwoValuedSymbolIterator.doNext, PredicateSymbolIterator.doNext, hstate]
    rfl
  | func it =>
    obtain ⟨hpart, hnone⟩ := Bool.and_eq_true_iff.mp h
    rw [TwoValuedSymbolIterator.doNext, FunctionSymbolIterator.doNext, if_neg (by simpa using hpart),
      Option.isNone_iff_eq_none.mp hnone]
    rfl

end SymbolIterators

end TwoValued
