import DeclarativeLocalSearch.Structure.Clean

namespace FunctionCheck

variable {A E : Type}

-- the sorts of the arguments together and the sort of the images, in the order in which they are walked over
structure Sorts (A E : Type) where
  domain : List A
  image : List E
  domain_nodup : domain.Nodup
  image_nodup : image.Nodup

def Sorts.universe (sorts : Sorts A E) : List (A × E) := sorts.domain ×ˢ sorts.image

-- a set of tuples in increasing order
structure SortedElementTable (A E : Type) [LinearOrder A] [LinearOrder E] where
  tuples : List (A × E)
  sorted : tuples.Pairwise fun t u => t.1 < u.1 ∨ t.1 = u.1 ∧ t.2 < u.2

variable [LinearOrder A] [LinearOrder E]

-- an enumerated table, or the inverse of one
structure PredTable (A E : Type) [LinearOrder A] [LinearOrder E] where
  table : SortedElementTable A E
  inverse : Bool

def PredTable.tuples (table : PredTable A E) (sorts : Sorts A E) : List (A × E) :=
  if table.inverse then (sorts.domain ×ˢ sorts.image).filter fun tuple => !decide (tuple ∈ table.table.tuples)
  else table.table.tuples

inductive Representation (sorts : Sorts A E) where
  | funcTable (table : List (A × E)) (nodup : (table.map Prod.fst).Nodup) (subset : table ⊆ sorts.universe)
  | graphInter (ct cf : PredTable A E) (ct_subset : ct.table.tuples ⊆ sorts.universe)
      (cf_subset : cf.table.tuples ⊆ sorts.universe)

structure FuncInter (A E : Type) [LinearOrder A] [LinearOrder E] where
  sorts : Sorts A E
  representation : Representation sorts

namespace FuncInter

variable (inter : FuncInter A E)

def ct : List (A × E) :=
  match inter.representation with
  | .funcTable table _ _ => table
  | .graphInter ct _ _ _ => ct.tuples inter.sorts

def cf : List (A × E) :=
  match inter.representation with
  | .funcTable table _ _ => inter.sorts.universe.filter fun tuple => !decide (tuple ∈ table)
  | .graphInter _ cf _ _ => cf.tuples inter.sorts

def approxTwoValued : Bool :=
  match inter.representation with
  | .funcTable _ _ _ => true
  | .graphInter _ _ _ _ => false

end FuncInter

-- two tuples that an iterator finds one after the other
def sameInput : List (A × E) → Bool
  | t :: u :: tuples => t.1 = u.1 || sameInput (u :: tuples)
  | _ => false

-- no input is found as often as there are images
def countImages (maxnbimages : ℕ) : List (A × E) → (A → ℕ) → Bool
  | [], _ => true
  | tuple :: tuples, domain2numberofimages =>
    let count := domain2numberofimages tuple.1 + 1
    if count = maxnbimages then false
    else countImages maxnbimages tuples (Function.update domain2numberofimages tuple.1 count)

-- no interpretation: the universe is infinite
def functionCheck (builtin isPartial throwErrors : Bool) (inter : Option (FuncInter A E)) : Bool :=
  if builtin then true
  else
    match inter with
    | none => true
    | some inter =>
      if !throwErrors && inter.approxTwoValued then true
      else if !inter.approxTwoValued && sameInput inter.ct then false
      else if isPartial then true
      else if inter.approxTwoValued then inter.sorts.domain.length = inter.ct.length
      else if inter.sorts.image.length = 0 && inter.sorts.domain.length ≠ 0 then false
      else countImages inter.sorts.image.length inter.cf fun _ => 0

-- it can be extended to a function, which is a total one unless it is declared partial
def Extendable (isPartial : Bool) (inter : FuncInter A E) : Prop :=
  (∀ a e e', (a, e) ∈ inter.ct → (a, e') ∈ inter.ct → e = e') ∧
    (isPartial = false → ∀ a ∈ inter.sorts.domain, ∃ e ∈ inter.sorts.image, (a, e) ∉ inter.cf)

section Adjacent

omit [LinearOrder E] in
theorem sameInput_eq_false_iff {R : A → A → Prop} (hR : ∀ a b, R a b → R b a → a = b) {tuples : List (A × E)}
    (h : tuples.Pairwise fun t u => R t.1 u.1) : sameInput tuples = false ↔ (tuples.map Prod.fst).Nodup := by
  induction tuples with
  | nil => simp [sameInput]
  | cons t tuples ih =>
    obtain ⟨ht, htail⟩ := List.pairwise_cons.mp h
    cases tuples with
    | nil => simp [sameInput]
    | cons u tuples =>
      have hcons : ((t :: u :: tuples).map Prod.fst).Nodup ↔
          t.1 ∉ (u :: tuples).map Prod.fst ∧ ((u :: tuples).map Prod.fst).Nodup := List.nodup_cons
      rw [sameInput, Bool.or_eq_false_iff, ih htail, hcons, decide_eq_false_iff_not]
      refine and_congr_left fun _ => not_congr ⟨fun heq => ?_, fun hmem => ?_⟩
      · rw [heq]
        exact List.mem_map_of_mem List.mem_cons_self
      · obtain ⟨v, hv, heq⟩ := List.mem_map.mp hmem
        rcases List.mem_cons.mp hv with rfl | hv
        · exact heq.symm
        · have huv := (List.pairwise_cons.mp htail).1 v hv
          rw [heq] at huv
          exact hR _ _ (ht u List.mem_cons_self) huv

omit [LinearOrder A] [LinearOrder E] in
theorem nodup_fst_iff {tuples : List (A × E)} (h : tuples.Nodup) :
    (tuples.map Prod.fst).Nodup ↔ ∀ a e e', (a, e) ∈ tuples → (a, e') ∈ tuples → e = e' := by
  constructor
  · intro hnodup a e e' he he'
    exact congrArg Prod.snd (List.inj_on_of_nodup_map hnodup he he' rfl)
  · rintro hfunctional
    refine h.map_on ?_
    rintro ⟨a, e⟩ he ⟨a', e'⟩ he' (rfl : a = a')
    rw [hfunctional a e e' he he']

theorem sorted_rank (table : SortedElementTable A E) :
    table.tuples.Pairwise fun t u => t.1 ≤ u.1 :=
  table.sorted.imp fun h => h.elim le_of_lt fun h => h.1.le

omit [LinearOrder E] in
theorem universe_rank (sorts : Sorts A E) : sorts.universe.Pairwise fun t u =>
    t.1 ∈ sorts.domain ∧ u.1 ∈ sorts.domain ∧ sorts.domain.idxOf t.1 ≤ sorts.domain.idxOf u.1 := by
  obtain ⟨domain, image, hdomain, -⟩ := sorts
  change (domain ×ˢ image).Pairwise _
  induction domain with
  | nil => exact .nil
  | cons a domain ih =>
    obtain ⟨ha, htail⟩ := List.nodup_cons.mp hdomain
    have hmem : ∀ t ∈ domain ×ˢ image, t.1 ∈ domain := fun t ht => (List.mem_product.mp ht).1
    rw [List.product_cons, List.pairwise_append]
    refine ⟨?_, (ih htail).imp fun {t u} h => ?_, fun t ht u hu => ?_⟩
    · refine List.pairwise_map.mpr (List.pairwise_of_forall fun e e' => ?_)
      exact ⟨List.mem_cons_self, List.mem_cons_self, Nat.le_refl _⟩
    · obtain ⟨ht, hu, hle⟩ := h
      refine ⟨List.mem_cons_of_mem _ ht, List.mem_cons_of_mem _ hu, ?_⟩
      have hnet : a ≠ t.1 := fun heq => ha (heq ▸ ht)
      have hneu : a ≠ u.1 := fun heq => ha (heq ▸ hu)
      rw [List.idxOf_cons_ne _ hnet, List.idxOf_cons_ne _ hneu]
      exact Nat.succ_le_succ hle
    · obtain ⟨e, -, rfl⟩ := List.mem_map.mp ht
      refine ⟨List.mem_cons_self, List.mem_cons_of_mem _ (hmem u hu), ?_⟩
      rw [List.idxOf_cons_self]
      exact Nat.zero_le _

theorem rank_antisymm {domain : List A} : ∀ a b, (a ∈ domain ∧ b ∈ domain ∧ domain.idxOf a ≤ domain.idxOf b) →
    (b ∈ domain ∧ a ∈ domain ∧ domain.idxOf b ≤ domain.idxOf a) → a = b := by
  rintro a b ⟨ha, -, hab⟩ ⟨-, -, hba⟩
  exact (List.idxOf_inj ha).mp (Nat.le_antisymm hab hba)

omit [LinearOrder A] [LinearOrder E] in
theorem universe_nodup (sorts : Sorts A E) : sorts.universe.Nodup := sorts.domain_nodup.product sorts.image_nodup

theorem tuples_nodup (table : PredTable A E) (sorts : Sorts A E) : (table.tuples sorts).Nodup := by
  unfold PredTable.tuples
  split_ifs
  · exact (universe_nodup sorts).filter _
  · refine table.table.sorted.imp ?_
    rintro t _ h rfl
    exact h.elim (lt_irrefl _) fun h => lt_irrefl _ h.2

theorem sameInput_tuples (table : PredTable A E) (sorts : Sorts A E) : sameInput (table.tuples sorts) = false ↔
    ∀ a e e', (a, e) ∈ table.tuples sorts → (a, e') ∈ table.tuples sorts → e = e' := by
  rw [← nodup_fst_iff (tuples_nodup table sorts)]
  cases hinverse : table.inverse with
  | true =>
    have htuples : table.tuples sorts = sorts.universe.filter fun tuple => !decide (tuple ∈ table.table.tuples) := by
      rw [PredTable.tuples, hinverse]
      rfl
    rw [htuples]
    exact sameInput_eq_false_iff rank_antisymm ((universe_rank sorts).sublist List.filter_sublist)
  | false =>
    have htuples : table.tuples sorts = table.table.tuples := by
      rw [PredTable.tuples, hinverse]
      rfl
    rw [htuples]
    exact sameInput_eq_false_iff (fun a b => le_antisymm) (sorted_rank table.table)

end Adjacent

section Count

omit [LinearOrder E] in
theorem countImages_iff {maxnbimages : ℕ} {tuples : List (A × E)} {counts : A → ℕ} (h : ∀ a, counts a < maxnbimages) :
    countImages maxnbimages tuples counts = true ↔
      ∀ a, counts a + tuples.countP (fun tuple => tuple.1 = a) < maxnbimages := by
  induction tuples generalizing counts with
  | nil => simpa [countImages] using h
  | cons tuple tuples ih =>
    rw [countImages]
    split_ifs with hcount
    · refine iff_of_false not_false fun hall => ?_
      have htuple := hall tuple.1
      simp only [List.countP_cons, decide_true, if_true] at htuple
      omega
    · have hlt := h tuple.1
      rw [ih]
      · refine forall_congr' fun a => ?_
        by_cases ha : tuple.1 = a
        · subst ha
          simp only [Function.update_self, List.countP_cons, decide_true, if_true]
          omega
        · rw [Function.update_of_ne (Ne.symm ha), List.countP_cons_of_neg (by simpa using ha)]
      · intro a
        by_cases ha : a = tuple.1
        · subst ha
          rw [Function.update_self]
          omega
        · rw [Function.update_of_ne ha]
          exact h a

omit [LinearOrder E] in
theorem countP_lt_iff {sorts : Sorts A E} {tuples : List (A × E)} (hnodup : tuples.Nodup)
    (hsubset : tuples ⊆ sorts.universe) (a : A) :
    tuples.countP (fun tuple => tuple.1 = a) < sorts.image.length ↔ ∃ e ∈ sorts.image, (a, e) ∉ tuples := by
  have hfilter : ((tuples.filter fun tuple => tuple.1 = a).map Prod.snd).Nodup := by
    refine (hnodup.filter _).map_on ?_
    rintro ⟨b, e⟩ he ⟨b', e'⟩ he' (rfl : e = e')
    simp only [List.mem_filter, decide_eq_true_eq] at he he'
    rw [he.2, he'.2]
  have hmem : ∀ e, e ∈ (tuples.filter fun tuple => tuple.1 = a).map Prod.snd ↔ (a, e) ∈ tuples := by
    intro e
    simp
  have hsub : (tuples.filter fun tuple => tuple.1 = a).map Prod.snd ⊆ sorts.image := fun e he =>
    (List.mem_product.mp (hsubset ((hmem e).mp he))).2
  have hall := Clean.length_eq_iff hfilter sorts.image_nodup hsub
  have hle := (List.subperm_of_subset hfilter hsub).length_le
  rw [List.length_map, ← List.countP_eq_length_filter] at hall hle
  rw [Nat.lt_iff_le_and_ne, and_iff_right hle, ne_eq, hall]
  simp only [hmem, not_forall, exists_prop]

end Count

section Main

def Functional (inter : FuncInter A E) : Prop := ∀ a e e', (a, e) ∈ inter.ct → (a, e') ∈ inter.ct → e = e'

def Possible (inter : FuncInter A E) : Prop :=
  ∀ a ∈ inter.sorts.domain, ∃ e ∈ inter.sorts.image, (a, e) ∉ inter.cf

section FuncTable

variable {sorts : Sorts A E} {table : List (A × E)} (nodup : (table.map Prod.fst).Nodup)
  (subset : table ⊆ sorts.universe)

theorem funcTable_functional : Functional (⟨sorts, .funcTable table nodup subset⟩ : FuncInter A E) :=
  (nodup_fst_iff nodup.of_map).mp nodup

theorem funcTable_possible : sorts.domain.length = table.length ↔
    Possible (⟨sorts, .funcTable table nodup subset⟩ : FuncInter A E) := by
  have hsub : table.map Prod.fst ⊆ sorts.domain := by
    intro a ha
    obtain ⟨t, ht, rfl⟩ := List.mem_map.mp ha
    exact (List.mem_product.mp (subset ht)).1
  have hall := Clean.length_eq_iff nodup sorts.domain_nodup hsub
  rw [List.length_map, eq_comm] at hall
  rw [hall]
  refine forall₂_congr fun a ha => ⟨fun hmem => ?_, ?_⟩
  · obtain ⟨⟨a, e⟩, ht, rfl⟩ := List.mem_map.mp hmem
    exact ⟨e, (List.mem_product.mp (subset ht)).2, by simp [FuncInter.cf, ht]⟩
  · rintro ⟨e, he, hcf⟩
    have huniverse : (a, e) ∈ sorts.universe := List.mem_product.mpr ⟨ha, he⟩
    have htable : (a, e) ∈ table := by simpa [FuncInter.cf, huniverse] using hcf
    exact List.mem_map_of_mem (f := Prod.fst) htable

end FuncTable

section GraphInter

variable {sorts : Sorts A E} {ct cf : PredTable A E} (ct_subset : ct.table.tuples ⊆ sorts.universe)
  (cf_subset : cf.table.tuples ⊆ sorts.universe)

theorem graphInter_possible :
    (!(sorts.image.length = 0 && sorts.domain.length ≠ 0) &&
        countImages sorts.image.length (cf.tuples sorts) fun _ => 0) = true ↔
      Possible (⟨sorts, .graphInter ct cf ct_subset cf_subset⟩ : FuncInter A E) := by
  have hsubset : cf.tuples sorts ⊆ sorts.universe := by
    unfold PredTable.tuples
    split_ifs
    · exact List.filter_sublist.subset
    · exact cf_subset
  by_cases himage : sorts.image = []
  · have huniverse : sorts.universe = [] := by rw [Sorts.universe, himage, List.product_nil]
    have htuples : cf.tuples sorts = [] := List.subset_nil.mp (huniverse ▸ hsubset)
    rw [htuples, countImages, Bool.and_true]
    simp [Possible, himage, List.eq_nil_iff_forall_not_mem]
  · have hpos : 0 < sorts.image.length := List.length_pos_iff.mpr himage
    have htest : (!(sorts.image.length = 0 && sorts.domain.length ≠ 0)) = true := by simp [himage]
    rw [htest, Bool.true_and, countImages_iff fun _ => hpos]
    simp only [Nat.zero_add]
    constructor
    · exact fun hall a _ => (countP_lt_iff (tuples_nodup cf sorts) hsubset a).mp (hall a)
    · intro hpossible a
      by_cases ha : a ∈ sorts.domain
      · exact (countP_lt_iff (tuples_nodup cf sorts) hsubset a).mpr (hpossible a ha)
      · have hzero : (cf.tuples sorts).countP (fun tuple => tuple.1 = a) = 0 := by
          refine List.countP_eq_zero.mpr fun t ht heq => ha ?_
          rw [← of_decide_eq_true heq]
          exact (List.mem_product.mp (hsubset ht)).1
        rwa [hzero]

end GraphInter

end Main

end FunctionCheck
