import Mathlib.Data.Fintype.Prod
import Mathlib.Data.Set.Finite.Basic

namespace Clean

-- the tuples of a finite table in the order in which an iterator finds them; the size of another one is not exact
inductive Table (T : Type) where
  | finite (tuples : List T) (nodup : tuples.Nodup)
  | infinite (contains : T → Bool)

namespace Table

variable {T : Type}

def tuples : Table T → Option (List T)
  | .finite tuples _ => some tuples
  | .infinite _ => none

def size (table : Table T) : Option ℕ := table.tuples.map List.length

variable [DecidableEq T]

def contains : Table T → T → Bool
  | .finite tuples _, tuple => tuple ∈ tuples
  | .infinite contains, tuple => contains tuple

def add (tuple : T) : Table T → Table T
  | .finite tuples nodup => .finite (tuples.insert tuple) nodup.insert
  | .infinite contains => .infinite fun t => t == tuple || contains t

def remove (tuple : T) : Table T → Table T
  | .finite tuples nodup => .finite (tuples.erase tuple) (nodup.erase tuple)
  | .infinite contains => .infinite fun t => t != tuple && contains t

def inverse (univ table : Table T) : Table T :=
  match univ with
  | .finite tuples nodup => .finite (tuples.filter (!table.contains ·)) (nodup.filter _)
  | .infinite contains => .infinite fun t => contains t && !table.contains t

@[simp]
theorem contains_finite {tuples : List T} {nodup : tuples.Nodup} {t : T} :
    (Table.finite tuples nodup).contains t = true ↔ t ∈ tuples := decide_eq_true_iff

theorem add_finite {tuples : List T} (nodup : tuples.Nodup) (tuple : T) :
    ∃ added nodup', (Table.finite tuples nodup).add tuple = .finite added nodup' ∧
      ∀ t, t ∈ added ↔ t = tuple ∨ t ∈ tuples :=
  ⟨_, _, rfl, fun _ => List.mem_insert_iff⟩

@[simp]
theorem contains_add {table : Table T} {tuple t : T} :
    (table.add tuple).contains t = (t == tuple || table.contains t) := by
  cases table with
  | finite tuples nodup =>
    rw [Bool.eq_iff_iff]
    simp [add, contains]
  | infinite contains => rfl

@[simp]
theorem contains_remove {table : Table T} {tuple t : T} :
    (table.remove tuple).contains t = (t != tuple && table.contains t) := by
  cases table with
  | finite tuples nodup =>
    rw [Bool.eq_iff_iff]
    simp [remove, contains, nodup.mem_erase_iff]
  | infinite contains => rfl

@[simp]
theorem contains_inverse {univ table : Table T} {t : T} :
    (inverse univ table).contains t = (univ.contains t && !table.contains t) := by
  cases univ with
  | finite tuples nodup =>
    rw [Bool.eq_iff_iff]
    simp [inverse, contains]
  | infinite contains => rfl

theorem remove_of_not_contains {table : Table T} {tuple : T} (h : table.contains tuple = false) :
    table.remove tuple = table := by
  cases table with
  | finite tuples nodup =>
    have hmem : tuple ∉ tuples := by simpa [contains] using h
    simp [remove, List.erase_of_not_mem hmem]
  | infinite contains =>
    have heq : (fun t => t != tuple && contains t) = contains := by
      funext t
      by_cases ht : t = tuple
      · rw [ht, bne_self_eq_false, Bool.false_and]
        exact h.symm
      · simp [ht]
    rw [remove, heq]

end Table

variable {A E : Type}

structure Function (A E : Type) where
  isPartial : Bool
  domain : Table A
  image : Table E

structure PredInter (T : Type) where
  ct : Table T
  cf : Table T
  inconsistentElements : List T

structure FuncInter (A E : Type) where
  graphInter : PredInter (A × E)
  functable : Bool

inductive IdpException where
  | notPartOfTable
  | newImage

variable [DecidableEq A] [DecidableEq E]

def Function.univ (function : Function A E) : Table (A × E) :=
  match function.domain, function.image with
  | .finite domain hdomain, .finite image himage => .finite (domain ×ˢ image) (hdomain.product himage)
  | domain, image => .infinite fun t => domain.contains t.1 && image.contains t.2

section PredInter

variable {T : Type} [DecidableEq T] (univ : Table T)

def PredInter.isConsistent (inter : PredInter T) : Bool := inter.inconsistentElements.isEmpty

def PredInter.makeFalseExactly (inter : PredInter T) (tuple : T) : Except IdpException (PredInter T) :=
  if univ.contains tuple then
    .ok ⟨inter.ct.remove tuple, inter.cf.add tuple, inter.inconsistentElements.erase tuple⟩
  else .error .notPartOfTable

-- the sizes of the tables are compared, whatever tuples they have
def isInverse (pt1 pt2 : Table T) : Bool :=
  match univ.size, pt1.size, pt2.size with
  | some univsize, some pt1size, some pt2size => pt1size + pt2size = univsize
  | _, _, _ => false

def cleanPredicate (inter : PredInter T) : PredInter T :=
  if inter.isConsistent && isInverse univ inter.ct inter.cf then
    { inter with cf := Table.inverse univ inter.ct }
  else inter

end PredInter

section Function

variable (function : Function A E)

-- the other images of an input become false
def excludeImages (tuple : A × E) : List E → PredInter (A × E) → Except IdpException (PredInter (A × E))
  | [], inter => .ok inter
  | cfvalue :: images, inter =>
    if cfvalue ≠ tuple.2 then
      match inter.makeFalseExactly function.univ (tuple.1, cfvalue) with
      | .ok inter => excludeImages tuple images inter
      | .error e => .error e
    else excludeImages tuple images inter

-- a tuple that is removed in the meantime is still found in a table that is shared, as its copy is changed
def excludeOthers (shared : Bool) (images : List E) :
    List (A × E) → PredInter (A × E) → Except IdpException (PredInter (A × E))
  | [], inter => .ok inter
  | tuple :: tuples, inter =>
    if shared || inter.ct.contains tuple then
      match excludeImages function tuple images inter with
      | .ok inter => excludeOthers shared images tuples inter
      | .error e => .error e
    else excludeOthers shared images tuples inter

-- EnumeratedInternalFuncTable::add for one tuple after the other
def addAll : List (A × E) → Table (A × E) → Except IdpException (Table (A × E))
  | [], table => .ok table
  | tuple :: tuples, table =>
    match (table.tuples.getD []).find? fun t => t.1 = tuple.1 with
    | none => addAll tuples (table.add tuple)
    | some t => if t.2 = tuple.2 then addAll tuples table else .error .newImage

def approxTotalityCheck (ct : Table (A × E)) : Bool :=
  match function.domain.size, ct.size with
  | some nroftuples, some nrofvalues => nroftuples = nrofvalues
  | _, _ => false

def toFuncTable (inter : PredInter (A × E)) : Except IdpException (FuncInter A E) :=
  if (function.isPartial && isInverse function.univ inter.ct inter.cf) ||
      (approxTotalityCheck function inter.ct && inter.isConsistent) then
    match addAll (inter.ct.tuples.getD []) (.finite [] .nil) with
    | .ok eift =>
      if eift.size = inter.ct.size then .ok ⟨⟨eift, Table.inverse function.univ eift, []⟩, true⟩
      else .ok ⟨inter, false⟩
    | .error e => .error e
  else .ok ⟨inter, false⟩

-- no result: an infinite table is walked over
def excludePartial (shared : Bool) (inter : PredInter (A × E)) : Option (Except IdpException (PredInter (A × E))) :=
  if function.isPartial then
    match inter.ct.tuples, function.image.tuples with
    | some [], _ => some (.ok inter)
    | some ct, some images => some (excludeOthers function shared images ct inter)
    | _, _ => none
  else some (.ok inter)

def cleanFunction (shared : Bool) (inter : FuncInter A E) : Option (Except IdpException (FuncInter A E)) :=
  if inter.functable || !inter.graphInter.isConsistent then some (.ok inter)
  else (excludePartial function shared inter.graphInter).map fun
    | .ok graphInter => toFuncTable function graphInter
    | .error e => .error e

end Function

section Falsified

variable {T : Type} [DecidableEq T] {univ : Table T} {inter inter' : PredInter T} {P P' : T → Prop}

-- tuples that are not certainly true have become certainly false
structure Falsified (inter inter' : PredInter T) (P : T → Prop) : Prop where
  ct : inter'.ct = inter.ct
  cf : ∀ t, inter'.cf.contains t = true ↔ inter.cf.contains t = true ∨ P t
  size : inter'.cf.size.isSome = inter.cf.size.isSome
  inconsistentElements : inter'.inconsistentElements = inter.inconsistentElements

theorem Falsified.refl (h : ∀ t, ¬ P t) : Falsified inter inter P :=
  ⟨rfl, fun t => (or_iff_left (h t)).symm, rfl, rfl⟩

theorem Falsified.trans {inter'' : PredInter T} {P'' : T → Prop} (h : Falsified inter inter' P)
    (h' : Falsified inter' inter'' P') (hP : ∀ t, P'' t ↔ P t ∨ P' t) : Falsified inter inter'' P'' where
  ct := h'.ct.trans h.ct
  cf t := by rw [h'.cf, h.cf, hP, or_assoc]
  size := h'.size.trans h.size
  inconsistentElements := h'.inconsistentElements.trans h.inconsistentElements

theorem makeFalseExactly_falsified {tuple : T} (huniv : univ.contains tuple = true)
    (hct : inter.ct.contains tuple = false) (hinconsistent : inter.inconsistentElements = []) :
    ∃ inter', inter.makeFalseExactly univ tuple = .ok inter' ∧ Falsified inter inter' (· = tuple) := by
  refine ⟨_, if_pos huniv, Table.remove_of_not_contains hct, fun t => ?_, ?_, ?_⟩
  · simp [or_comm]
  · cases inter.cf <;> rfl
  · rw [hinconsistent, List.erase_nil]

end Falsified

section Exclude

variable {function : Function A E} {inter : PredInter (A × E)}

theorem contains_univ {t : A × E} :
    function.univ.contains t = (function.domain.contains t.1 && function.image.contains t.2) := by
  unfold Function.univ
  split
  · next hdomain himage =>
    rw [hdomain, himage, Bool.eq_iff_iff]
    simp only [Table.contains, decide_eq_true_eq, Bool.and_eq_true]
    exact List.mem_product
  · rfl

def Functional (ct : Table (A × E)) : Prop :=
  ∀ a e e', ct.contains (a, e) = true → ct.contains (a, e') = true → e = e'

theorem excludeImages_falsified {tuple : A × E} (hct : Functional inter.ct) (htuple : inter.ct.contains tuple = true)
    (hinconsistent : inter.inconsistentElements = []) (hdomain : function.domain.contains tuple.1 = true) :
    ∀ {images : List E}, (∀ e ∈ images, function.image.contains e = true) →
      ∃ inter', excludeImages function tuple images inter = .ok inter' ∧
        Falsified inter inter' fun t => t.1 = tuple.1 ∧ t.2 ∈ images ∧ t.2 ≠ tuple.2 := by
  intro images himages
  induction images generalizing inter with
  | nil => exact ⟨inter, rfl, Falsified.refl (by simp)⟩
  | cons cfvalue images ih =>
    have htail : ∀ e ∈ images, function.image.contains e = true := fun e he => himages e (List.mem_cons_of_mem _ he)
    rw [excludeImages]
    split_ifs with hne
    · have hnot : inter.ct.contains (tuple.1, cfvalue) = false := by
        by_contra h
        exact hne (hct _ _ _ (by simpa using h) htuple)
      have huniv : function.univ.contains (tuple.1, cfvalue) = true := by
        rw [contains_univ, hdomain, himages cfvalue List.mem_cons_self, Bool.and_self]
      obtain ⟨inter₁, hinter₁, hstep⟩ := makeFalseExactly_falsified huniv hnot hinconsistent
      rw [← hstep.ct] at hct htuple
      obtain ⟨inter', hinter', hrest⟩ := ih hct htuple (hstep.inconsistentElements.trans hinconsistent) htail
      refine ⟨inter', ?_, hstep.trans hrest fun t => ?_⟩
      · rw [hinter₁]
        exact hinter'
      · simp only [List.mem_cons, Prod.ext_iff]
        constructor
        · rintro ⟨ht, rfl | hmem, hother⟩
          · exact .inl ⟨ht, rfl⟩
          · exact .inr ⟨ht, hmem, hother⟩
        · rintro (⟨ht, rfl⟩ | ⟨ht, hmem, hother⟩)
          · exact ⟨ht, .inl rfl, hne⟩
          · exact ⟨ht, .inr hmem, hother⟩
    · obtain ⟨inter', hinter', hrest⟩ := ih hct htuple hinconsistent htail
      refine ⟨inter', hinter', (Falsified.refl fun _ => not_false).trans hrest fun t => ?_⟩
      rw [false_or, List.mem_cons]
      have heq := not_not.mp hne
      constructor
      · rintro ⟨ht, rfl | hmem, hother⟩
        · exact absurd heq hother
        · exact ⟨ht, hmem, hother⟩
      · exact fun ⟨ht, hmem, hother⟩ => ⟨ht, .inr hmem, hother⟩

theorem excludeOthers_falsified {shared : Bool} {images : List E} (hct : Functional inter.ct)
    (hinconsistent : inter.inconsistentElements = []) (himages : ∀ e ∈ images, function.image.contains e = true) :
    ∀ {tuples : List (A × E)},
      (∀ tuple ∈ tuples, inter.ct.contains tuple = true ∧ function.domain.contains tuple.1 = true) →
      ∃ inter', excludeOthers function shared images tuples inter = .ok inter' ∧
        Falsified inter inter' fun t => t.2 ∈ images ∧ ∃ tuple ∈ tuples, t.1 = tuple.1 ∧ t.2 ≠ tuple.2 := by
  intro tuples htuples
  induction tuples generalizing inter with
  | nil => exact ⟨inter, rfl, Falsified.refl (by simp)⟩
  | cons tuple tuples ih =>
    obtain ⟨htuple, hdomain⟩ := htuples tuple List.mem_cons_self
    obtain ⟨inter₁, hinter₁, hstep⟩ := excludeImages_falsified hct htuple hinconsistent hdomain himages
    have htail : ∀ t ∈ tuples, inter₁.ct.contains t = true ∧ function.domain.contains t.1 = true := by
      rw [hstep.ct]
      exact fun t ht => htuples t (List.mem_cons_of_mem _ ht)
    obtain ⟨inter', hinter', hrest⟩ := ih (hstep.ct ▸ hct) (hstep.inconsistentElements.trans hinconsistent) htail
    refine ⟨inter', ?_, hstep.trans hrest fun t => ?_⟩
    · rw [excludeOthers, htuple, Bool.or_true, if_pos rfl, hinter₁]
      exact hinter'
    · simp only [List.mem_cons, exists_eq_or_imp]
      tauto

end Exclude

section Count

variable {T : Type} [DecidableEq T] {univ ct cf : Table T}

omit [DecidableEq T] in
theorem length_eq_iff {l l' : List T} (h : l.Nodup) (h' : l'.Nodup) (hsub : l ⊆ l') :
    l.length = l'.length ↔ ∀ t ∈ l', t ∈ l := by
  constructor
  · intro hlength t ht
    exact ((List.subperm_of_subset h hsub).perm_of_length_le hlength.ge).mem_iff.mpr ht
  · intro hall
    exact ((List.perm_ext_iff_of_nodup h h').mpr fun t => ⟨@hsub t, hall t⟩).length_eq

omit [DecidableEq T] in
theorem exists_tuples {table : Table T} (h : table.size.isSome = true) :
    ∃ tuples nodup, table = .finite tuples nodup := by
  cases table with
  | finite tuples nodup => exact ⟨tuples, nodup, rfl⟩
  | infinite contains => cases h

omit [DecidableEq T] in
theorem isSome_of_isInverse (h : isInverse univ ct cf = true) : ct.size.isSome = true := by
  unfold isInverse at h
  split at h
  · next hct _ => exact hct ▸ rfl
  · cases h

theorem isInverse_iff (hct : ∀ t, ct.contains t = true → univ.contains t = true)
    (hcf : ∀ t, cf.contains t = true → univ.contains t = true)
    (hdisjoint : ∀ t, ct.contains t = true → cf.contains t = false)
    (hexact : univ.size.isSome = true → ct.size.isSome = true ∧ cf.size.isSome = true) :
    isInverse univ ct cf = true ↔
      univ.size.isSome = true ∧ ∀ t, univ.contains t = true → ct.contains t = true ∨ cf.contains t = true := by
  cases huniv : univ.size with
  | none => simp [isInverse, huniv]
  | some n =>
    obtain ⟨tuples, nodup, rfl⟩ := exists_tuples (by rw [huniv]; rfl)
    obtain ⟨hct', hcf'⟩ := hexact rfl
    obtain ⟨l, hl, rfl⟩ := exists_tuples hct'
    obtain ⟨l', hl', rfl⟩ := exists_tuples hcf'
    simp only [Table.contains, decide_eq_true_eq, decide_eq_false_iff_not] at hct hcf hdisjoint
    have hnodup : (l ++ l').Nodup := hl.append hl' fun t ht ht' => hdisjoint t ht ht'
    have hsub : l ++ l' ⊆ tuples := List.append_subset.mpr ⟨hct, hcf⟩
    have hall := length_eq_iff hnodup nodup hsub
    rw [List.length_append] at hall
    simp only [isInverse, Table.size, Table.tuples, Option.map_some, decide_eq_true_eq, hall, List.mem_append,
      Table.contains, Option.isSome_some, true_and]

end Count

section Total

variable {function : Function A E} {ct : Table (A × E)}

def Total (function : Function A E) (ct : Table (A × E)) : Prop :=
  function.domain.size.isSome = true ∧
    ∀ a, function.domain.contains a = true → ∃ e, ct.contains (a, e) = true

theorem approxTotalityCheck_iff (hfunctional : Functional ct)
    (hct : ∀ t, ct.contains t = true → function.univ.contains t = true)
    (hexact : {t | ct.contains t = true}.Finite → ct.size.isSome = true) :
    approxTotalityCheck function ct = true ↔ Total function ct := by
  cases hdomain : function.domain.size with
  | none => simp [approxTotalityCheck, Total, hdomain]
  | some n =>
    obtain ⟨domain, hnodup, hfinite⟩ := @exists_tuples _ function.domain (by rw [hdomain]; rfl)
    have hmem : ∀ t, ct.contains t = true → t.1 ∈ domain := by
      intro t ht
      have huniv := hct t ht
      rw [contains_univ, hfinite, Bool.and_eq_true] at huniv
      simpa [Table.contains] using huniv.1
    have hinj : Set.InjOn Prod.fst {t | ct.contains t = true} := by
      rintro ⟨a, e⟩ ht ⟨a', e'⟩ ht' (rfl : a = a')
      rw [hfunctional a e e' ht ht']
    have himage : (Prod.fst '' {t | ct.contains t = true}).Finite :=
      domain.finite_toSet.subset (Set.image_subset_iff.mpr hmem)
    obtain ⟨l, hl, rfl⟩ := exists_tuples (hexact (himage.of_finite_image hinj))
    have hfst : (l.map Prod.fst).Nodup := hl.map_on fun t ht t' ht' => by
      exact @hinj t (Table.contains_finite.mpr ht) t' (Table.contains_finite.mpr ht')
    have hsub : l.map Prod.fst ⊆ domain := by
      intro a ha
      obtain ⟨t, ht, rfl⟩ := List.mem_map.mp ha
      exact hmem t (Table.contains_finite.mpr ht)
    have hall := length_eq_iff hfst hnodup hsub
    rw [List.length_map] at hall
    have hsizes : approxTotalityCheck function (.finite l hl) = true ↔ l.length = domain.length := by
      simp [approxTotalityCheck, hfinite, Table.size, Table.tuples, eq_comm]
    rw [hsizes, hall, Total, hfinite]
    simp [Table.size, Table.tuples]

end Total

section Add

theorem addAll_ok {tuples added : List (A × E)} {nodup : added.Nodup}
    (hfunctional : ∀ t ∈ tuples, ∀ u ∈ added ++ tuples, t.1 = u.1 → t = u) :
    ∃ added' nodup', addAll tuples (.finite added nodup) = .ok (.finite added' nodup') ∧
      ∀ t, t ∈ added' ↔ t ∈ added ∨ t ∈ tuples := by
  induction tuples generalizing added with
  | nil => exact ⟨added, nodup, rfl, by simp⟩
  | cons tuple tuples ih =>
    have htail : ∀ {l : List (A × E)}, l ⊆ tuple :: added → ∀ t ∈ tuples, ∀ u ∈ l ++ tuples, t.1 = u.1 → t = u := by
      intro l hl t ht u hu
      refine hfunctional t (List.mem_cons_of_mem _ ht) u ?_
      have := @hl u
      grind
    cases hfind : added.find? fun t => t.1 = tuple.1 with
    | none =>
      obtain ⟨added₁, nodup₁, hadd, hadded₁⟩ := Table.add_finite nodup tuple
      have hstep : addAll (tuple :: tuples) (.finite added nodup) = addAll tuples (.finite added₁ nodup₁) := by
        simp [addAll, Table.tuples, hfind, hadd]
      rw [hstep]
      obtain ⟨added', nodup', hadded', hmem⟩ := @ih _ nodup₁ (htail fun u hu =>
        List.mem_cons.mpr ((hadded₁ u).mp hu))
      refine ⟨added', nodup', hadded', fun t => ?_⟩
      rw [hmem, hadded₁, List.mem_cons]
      tauto
    | some t =>
      have ht : t ∈ added := List.mem_of_find?_eq_some hfind
      have hfst : t.1 = tuple.1 := by simpa using List.find?_some hfind
      obtain rfl : tuple = t := hfunctional tuple List.mem_cons_self t (List.mem_append_left _ ht) hfst.symm
      have hstep : addAll (tuple :: tuples) (.finite added nodup) = addAll tuples (.finite added nodup) := by
        simp [addAll, Table.tuples, hfind]
      rw [hstep]
      obtain ⟨added', nodup', hadded', hmem⟩ := @ih _ nodup (htail fun u hu => List.mem_cons_of_mem _ hu)
      refine ⟨added', nodup', hadded', fun u => ?_⟩
      rw [hmem, List.mem_cons]
      constructor
      · tauto
      · rintro (h | rfl | h)
        · exact .inl h
        · exact .inl ht
        · exact .inr h

end Add

section Main

variable {T : Type} [DecidableEq T]

-- tables of tuples of the universe, which say how many there are if they are finite
structure PredInter.Valid (univ : Table T) (inter : PredInter T) : Prop where
  ct : ∀ t, inter.ct.contains t = true → univ.contains t = true
  cf : ∀ t, inter.cf.contains t = true → univ.contains t = true
  exact_ct : {t | inter.ct.contains t = true}.Finite → inter.ct.size.isSome = true
  exact_cf : {t | inter.cf.contains t = true}.Finite → inter.cf.size.isSome = true

structure PredInter.Consistent (inter : PredInter T) : Prop where
  inconsistentElements : inter.inconsistentElements = []
  disjoint : ∀ t, inter.ct.contains t = true → inter.cf.contains t = false

theorem PredInter.Valid.exact {univ : Table T} {inter : PredInter T} (h : inter.Valid univ)
    (huniv : univ.size.isSome = true) : inter.ct.size.isSome = true ∧ inter.cf.size.isSome = true := by
  obtain ⟨tuples, nodup, rfl⟩ := exists_tuples huniv
  have hfinite : {t | (Table.finite tuples nodup).contains t = true}.Finite :=
    tuples.finite_toSet.subset fun t ht => Table.contains_finite.mp ht
  exact ⟨h.exact_ct (hfinite.subset h.ct), h.exact_cf (hfinite.subset h.cf)⟩

theorem cleanPredicate_keeps {univ : Table T} {inter : PredInter T} (hvalid : inter.Valid univ)
    (hconsistent : inter.Consistent) (t : T) :
    (cleanPredicate univ inter).ct.contains t = inter.ct.contains t ∧
      (cleanPredicate univ inter).cf.contains t = inter.cf.contains t := by
  unfold cleanPredicate
  split_ifs with h
  · rw [Bool.and_eq_true, isInverse_iff hvalid.ct hvalid.cf hconsistent.disjoint hvalid.exact] at h
    refine ⟨rfl, ?_⟩
    rw [Table.contains_inverse, Bool.eq_iff_iff, Bool.and_eq_true, Bool.not_eq_true']
    constructor
    · rintro ⟨huniv, hct⟩
      exact (h.2.2 t huniv).resolve_left (by rw [hct]; exact Bool.false_ne_true)
    · intro hcf
      refine ⟨hvalid.cf t hcf, ?_⟩
      by_contra hct
      exact absurd (hconsistent.disjoint t (by simpa using hct)) (by rw [hcf]; exact Bool.false_ne_true.symm)
  · exact ⟨rfl, rfl⟩

variable {function : Function A E} {inter : PredInter (A × E)}

-- another tuple of the same input is certainly true
def Excluded (function : Function A E) (ct : Table (A × E)) (t : A × E) : Prop :=
  function.univ.contains t = true ∧ ∃ e, e ≠ t.2 ∧ ct.contains (t.1, e) = true

theorem excludePartial_falsified {shared : Bool} (hvalid : inter.Valid function.univ) (hconsistent : inter.Consistent)
    (hfunctional : Functional inter.ct)
    (hfinite : function.isPartial = true → inter.ct.size.isSome = true ∧ function.image.size.isSome = true) :
    ∃ inter', excludePartial function shared inter = some (.ok inter') ∧
      Falsified inter inter' fun t => function.isPartial = true ∧ Excluded function inter.ct t := by
  cases hpart : function.isPartial with
  | false => exact ⟨inter, by simp [excludePartial, hpart], Falsified.refl (by simp)⟩
  | true =>
    obtain ⟨hct, himage⟩ := hfinite hpart
    obtain ⟨tuples, nodup, htuples⟩ := exists_tuples hct
    obtain ⟨images, hnodup, himages⟩ := exists_tuples himage
    have hmem : ∀ t, t ∈ tuples ↔ inter.ct.contains t = true := fun t => by rw [htuples, Table.contains_finite]
    have hdomain : ∀ t ∈ tuples, inter.ct.contains t = true ∧ function.domain.contains t.1 = true := by
      intro t ht
      have huniv := hvalid.ct t ((hmem t).mp ht)
      rw [contains_univ, Bool.and_eq_true] at huniv
      exact ⟨(hmem t).mp ht, huniv.1⟩
    have hcontains : ∀ e ∈ images, function.image.contains e = true := fun e he => by
      rwa [himages, Table.contains_finite]
    obtain ⟨inter', hinter', hfalsified⟩ := @excludeOthers_falsified _ _ _ _ _ _ shared _ hfunctional
      hconsistent.inconsistentElements hcontains _ hdomain
    refine ⟨inter', ?_, (Falsified.refl fun _ => not_false).trans hfalsified fun t => ?_⟩
    · cases tuples with
      | nil => simpa [excludePartial, hpart, htuples, Table.tuples, excludeOthers] using hinter'
      | cons tuple tuples => simpa [excludePartial, hpart, htuples, himages, Table.tuples] using hinter'
    · rw [false_or, eq_self_iff_true, true_and, Excluded, contains_univ, Bool.and_eq_true]
      constructor
      · rintro ⟨⟨-, himage⟩, e, hne, he⟩
        rw [himages, Table.contains_finite] at himage
        exact ⟨himage, (t.1, e), (hmem _).mpr he, rfl, hne.symm⟩
      · rintro ⟨himage, ⟨a, e⟩, ht, rfl, hne⟩
        exact ⟨⟨(hdomain _ ht).2, hcontains _ himage⟩, e, hne.symm, (hmem _).mp ht⟩

def BecomesFuncTable (function : Function A E) (inter : PredInter (A × E)) : Prop :=
  (function.isPartial = true ∧ isInverse function.univ inter.ct inter.cf = true) ∨ Total function inter.ct

theorem toFuncTable_ok (hct : ∀ t, inter.ct.contains t = true → function.univ.contains t = true)
    (hexact : {t | inter.ct.contains t = true}.Finite → inter.ct.size.isSome = true)
    (hfunctional : Functional inter.ct) (hinconsistent : inter.inconsistentElements = []) :
    ∃ inter', toFuncTable function inter = .ok inter' ∧
      (inter'.functable = true ↔ BecomesFuncTable function inter) ∧
      (∀ t, inter'.graphInter.ct.contains t = inter.ct.contains t) ∧
      ∀ t, inter'.graphInter.cf.contains t = true ↔
        (BecomesFuncTable function inter ∧ function.univ.contains t = true ∧ inter.ct.contains t = false) ∨
        (¬ BecomesFuncTable function inter ∧ inter.cf.contains t = true) := by
  have htest : ((function.isPartial && isInverse function.univ inter.ct inter.cf) ||
      (approxTotalityCheck function inter.ct && inter.isConsistent)) = true ↔ BecomesFuncTable function inter := by
    rw [Bool.or_eq_true, Bool.and_eq_true, Bool.and_eq_true, approxTotalityCheck_iff hfunctional hct hexact,
      PredInter.isConsistent, hinconsistent, BecomesFuncTable]
    simp
  unfold toFuncTable
  split_ifs with h
  · have hbecomes := htest.mp h
    have hsize : inter.ct.size.isSome = true := by
      rcases hbecomes with ⟨-, hinverse⟩ | htotal
      · exact isSome_of_isInverse hinverse
      · have hcheck := (approxTotalityCheck_iff hfunctional hct hexact).mpr htotal
        unfold approxTotalityCheck at hcheck
        split at hcheck
        · next hsize => exact hsize ▸ rfl
        · cases hcheck
    obtain ⟨tuples, nodup, htuples⟩ := exists_tuples hsize
    have hmem : ∀ t, t ∈ tuples ↔ inter.ct.contains t = true := fun t => by rw [htuples, Table.contains_finite]
    have hadd : ∀ t ∈ tuples, ∀ u ∈ [] ++ tuples, t.1 = u.1 → t = u := by
      rintro ⟨a, e⟩ ht ⟨a', e'⟩ hu (rfl : a = a')
      rw [hfunctional a e e' ((hmem _).mp ht) ((hmem _).mp hu)]
    obtain ⟨eift, nodup', heift, hadded⟩ := @addAll_ok _ _ _ _ _ _ .nil hadd
    have hcontains : ∀ t, (Table.finite eift nodup').contains t = inter.ct.contains t := by
      intro t
      rw [Bool.eq_iff_iff, Table.contains_finite, hadded, ← hmem]
      simp
    have hlength : (Table.finite eift nodup').size = inter.ct.size := by
      have hperm := (List.perm_ext_iff_of_nodup nodup' nodup).mpr fun t => by simpa using hadded t
      simp [htuples, Table.size, Table.tuples, hperm.length_eq]
    refine ⟨⟨⟨.finite eift nodup', Table.inverse function.univ (.finite eift nodup'), []⟩, true⟩, ?_, ?_, hcontains, ?_⟩
    · have htuples' : inter.ct.tuples.getD [] = tuples := by rw [htuples, Table.tuples, Option.getD_some]
      simp [htuples', heift, hlength]
    · exact iff_of_true rfl hbecomes
    · intro t
      rw [Table.contains_inverse, hcontains]
      simp [hbecomes]
  · have hnot : ¬ BecomesFuncTable function inter := fun hbecomes => h (htest.mpr hbecomes)
    exact ⟨_, rfl, iff_of_false Bool.false_ne_true hnot, fun _ => rfl, fun t => by simp [hnot]⟩

-- what cleaning a function does to an interpretation in which no input has two images
structure Cleaned (function : Function A E) (inter inter' : FuncInter A E) : Prop where
  ct : ∀ t, inter'.graphInter.ct.contains t = inter.graphInter.ct.contains t
  cf : ∀ t, inter'.graphInter.cf.contains t = true ↔ inter.graphInter.cf.contains t = true ∨
    (function.isPartial = true ∨ Total function inter.graphInter.ct) ∧ Excluded function inter.graphInter.ct t
  functable : inter'.functable = true ↔ Total function inter.graphInter.ct ∨
    function.isPartial = true ∧ function.univ.size.isSome = true ∧
      ∀ t, function.univ.contains t = true → inter.graphInter.cf.contains t = true ∨
        ∃ e, inter.graphInter.ct.contains (t.1, e) = true

theorem cleanFunction_cleaned {shared : Bool} {inter : FuncInter A E} (hvalid : inter.graphInter.Valid function.univ)
    (hconsistent : inter.graphInter.Consistent) (hfunctional : Functional inter.graphInter.ct)
    (hfinite : function.isPartial = true → inter.graphInter.ct.size.isSome = true ∧ function.image.size.isSome = true)
    (hfunctable : inter.functable = false) :
    ∃ inter', cleanFunction function shared inter = some (.ok inter') ∧ Cleaned function inter inter' := by
  obtain ⟨original, functable⟩ := inter
  simp only at hvalid hconsistent hfunctional hfinite hfunctable
  obtain ⟨graph, hgraph, hfalsified⟩ := @excludePartial_falsified _ _ _ _ _ _ shared hvalid hconsistent hfunctional hfinite
  have hexcluded : ∀ t, Excluded function original.ct t → original.ct.contains t = false := by
    rintro t ⟨-, e, hne, he⟩
    by_contra ht
    exact hne (hfunctional _ _ _ he (by simpa using ht))
  have hgraphct : ∀ t, graph.ct.contains t = true → function.univ.contains t = true := hfalsified.ct ▸ hvalid.ct
  have hgraphcf : ∀ t, graph.cf.contains t = true → function.univ.contains t = true := by
    intro t ht
    rcases (hfalsified.cf t).mp ht with ht | ⟨-, ht⟩
    · exact hvalid.cf t ht
    · exact ht.1
  have hdisjoint : ∀ t, graph.ct.contains t = true → graph.cf.contains t = false := by
    intro t ht
    rw [hfalsified.ct] at ht
    by_contra hcf
    rcases (hfalsified.cf t).mp (by simpa using hcf) with hcf | ⟨-, hcf⟩
    · exact absurd (hconsistent.disjoint t ht) (by rw [hcf]; exact Bool.false_ne_true.symm)
    · exact absurd (hexcluded t hcf) (by rw [ht]; exact Bool.false_ne_true.symm)
  have hexact : function.univ.size.isSome = true → graph.ct.size.isSome = true ∧ graph.cf.size.isSome = true := by
    rw [hfalsified.ct, hfalsified.size]
    exact hvalid.exact
  have hgraphexact : {t | graph.ct.contains t = true}.Finite → graph.ct.size.isSome = true := by
    rw [hfalsified.ct]
    exact hvalid.exact_ct
  obtain ⟨inter', hinter', hfunctable', hct', hcf'⟩ := toFuncTable_ok hgraphct hgraphexact (hfalsified.ct ▸ hfunctional)
    (hfalsified.inconsistentElements.trans hconsistent.inconsistentElements)
  have hbecomes : BecomesFuncTable function graph ↔ Total function original.ct ∨ function.isPartial = true ∧
      function.univ.size.isSome = true ∧ ∀ t, function.univ.contains t = true → original.cf.contains t = true ∨
        ∃ e, original.ct.contains (t.1, e) = true := by
    rw [BecomesFuncTable, isInverse_iff hgraphct hgraphcf hdisjoint hexact, hfalsified.ct, or_comm]
    refine or_congr_right (and_congr_right fun hpart => and_congr_right fun _ => forall₂_congr fun t ht => ?_)
    rw [hfalsified.cf]
    constructor
    · rintro (hct | hcf | ⟨-, -, e, -, he⟩)
      · exact .inr ⟨t.2, hct⟩
      · exact .inl hcf
      · exact .inr ⟨e, he⟩
    · rintro (hcf | ⟨e, he⟩)
      · exact .inr (.inl hcf)
      · by_cases hne : e = t.2
        · rw [hne] at he
          exact .inl he
        · exact .inr (.inr ⟨hpart, ht, e, hne, he⟩)
  refine ⟨inter', ?_, fun t => ?_, fun t => ?_, hfunctable'.trans hbecomes⟩
  · rw [cleanFunction, hgraph]
    simp [hfunctable, PredInter.isConsistent, hconsistent.inconsistentElements, hinter']
  · rw [hct', hfalsified.ct]
  · rw [hcf', hfalsified.cf, hfalsified.ct]
    constructor
    · rintro (⟨hfunc, huniv, hct⟩ | ⟨hnot, hcf | hcf⟩)
      · have hother : ∀ e, original.ct.contains (t.1, e) = true → e ≠ t.2 := by
          rintro e he rfl
          exact absurd he (by rw [hct]; exact Bool.false_ne_true)
        rcases hbecomes.mp hfunc with htotal | ⟨hpart, -, hall⟩
        · rw [contains_univ, Bool.and_eq_true] at huniv
          obtain ⟨e, he⟩ := htotal.2 t.1 huniv.1
          exact .inr ⟨.inr htotal, by rw [contains_univ, huniv.1, huniv.2, Bool.and_self], e, hother e he, he⟩
        · exact (hall t huniv).imp_right fun ⟨e, he⟩ => ⟨.inl hpart, huniv, e, hother e he, he⟩
      · exact .inl hcf
      · exact .inr ⟨.inl hcf.1, hcf.2⟩
    · intro h
      by_cases hfunc : BecomesFuncTable function graph
      · refine .inl ⟨hfunc, ?_⟩
        rcases h with hcf | ⟨-, hexcl⟩
        · refine ⟨hvalid.cf t hcf, ?_⟩
          by_contra hct
          exact absurd (hconsistent.disjoint t (by simpa using hct)) (by rw [hcf]; exact Bool.false_ne_true.symm)
        · exact ⟨hexcl.1, hexcluded t hexcl⟩
      · refine .inr ⟨hfunc, h.imp_right fun ⟨hcase, hexcl⟩ => ⟨hcase.resolve_right fun htotal => ?_, hexcl⟩⟩
        exact hfunc (hbecomes.mpr (.inl htotal))

def partialConstant : Function Unit Bool :=
  ⟨true, .finite [()] (by decide), .finite [false, true] (by decide)⟩

-- the image false is known, and nothing of the image true
def knownImage : FuncInter Unit Bool :=
  ⟨⟨.finite [((), false)] (by decide), .finite [] (by decide), []⟩, false⟩

def booleans : Table Bool := .finite [false, true] (by decide)

def trueOnly : PredInter Bool := ⟨.finite [true] (by decide), .finite [false] (by decide), []⟩

end Main

end Clean
