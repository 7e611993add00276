import DeclarativeLocalSearch.Structure.FiniteTables

namespace SortTables

open CheckedInt DomainElement

variable {C : Type} [LinearOrder C] {table : Finset (DomainElement C)} {d : DomainElement C}
  {f l n : IntValue} {nrRefs : ℕ}

section Remove

theorem intRangeAdd_next (hrefs : nrRefs < 2) (hf : minInt < f.1) (hle : f.1 ≤ l.1) {j : IntValue}
    (hj : j.1 = l.1 + 1) :
    (intRangeAdd nrRefs f l (int j) : Option (ℕ × FiniteTable C)) = some (nrRefs, .intRange f j) := by
  have hc : ¬ (FiniteTable.intRange f l : FiniteTable C).contains (int j) = true := by
    rw [contains_intRange]
    rintro ⟨i, hi, -, h2⟩
    have h2 : i.1 ≤ l.1 := h2
    rw [← DomainElement.int.inj hi] at h2
    omega
  obtain ⟨before, hb⟩ := Option.isSome_iff_exists.mp
    (checked_isSome.mpr (show minInt ≤ f.1 - 1 ∧ f.1 - 1 ≤ maxInt by have := f.2; omega))
  have hbefore := checked_eq_some.mp hb
  have hne : j ≠ before := fun h => by rw [h] at hj; omega
  have ha : (checked (l.1 + 1) : Option IntValue) = some j := checked_eq_some.mpr hj
  rw [intRangeAdd, if_neg hc]
  simp only [hb, Option.bind_eq_bind, Option.bind_some, if_neg hne, ha, true_and, if_pos hrefs]

theorem intRangeAdd_gap (hf : minInt < f.1) (hle : f.1 ≤ l.1) {j : IntValue} (hj : j.1 = l.1 + 2) :
    (intRangeAdd 0 f l (int j) : Option (ℕ × FiniteTable C)) =
      (insertRange f l {int j}).map fun table => (0, .enumerated table) := by
  have hc : ¬ (FiniteTable.intRange f l : FiniteTable C).contains (int j) = true := by
    rw [contains_intRange]
    rintro ⟨i, hi, -, h2⟩
    have h2 : i.1 ≤ l.1 := h2
    rw [← DomainElement.int.inj hi] at h2
    omega
  obtain ⟨before, hb⟩ := Option.isSome_iff_exists.mp
    (checked_isSome.mpr (show minInt ≤ f.1 - 1 ∧ f.1 - 1 ≤ maxInt by have := f.2; omega))
  have hbefore := checked_eq_some.mp hb
  have hne : j ≠ before := fun h => by rw [h] at hj; omega
  obtain ⟨after, ha⟩ := Option.isSome_iff_exists.mp
    (checked_isSome.mpr (show minInt ≤ l.1 + 1 ∧ l.1 + 1 ≤ maxInt by have := l.2; have := j.2; omega))
  have hafter := checked_eq_some.mp ha
  have hne' : ¬ (j = after ∧ 0 < 2) := fun h => by rw [h.1] at hj; omega
  rw [intRangeAdd, if_neg hc]
  simp only [hb, Option.bind_eq_bind, Option.bind_some, if_neg hne, ha, if_neg hne']

-- what the loop that copies a range without n has made when it comes to j
inductive Copied (f n : IntValue) : ℤ → ℕ × FiniteTable C → Prop where
  | start {j : ℤ} : j = f.1 → Copied f n j (0, .enumerated ∅)
  | range {j : ℤ} {m : IntValue} : f.1 < j → j ≤ n.1 + 1 → m.1 = min (j - 1) (n.1 - 1) →
      Copied f n j (0, .intRange f m)
  | split {j : ℤ} {table : Finset (DomainElement C)} : n.1 + 1 < j →
      (∀ x, x ∈ table ↔ ∃ i, x = int i ∧ f ≤ i ∧ i.1 < j ∧ i ≠ n) →
      Copied f n j (0, .enumerated table)

def copyBody (n i : IntValue) (ist : ℕ × FiniteTable C) : Option (ℕ × FiniteTable C) :=
  if i = n then some ist else ist.2.add ist.1 (int i)

theorem copied_bounds {j : IntValue} (hn : n.1 + 1 < j.1) (hf : f < n)
    (h : ∀ x, x ∈ table ↔ ∃ i, x = int i ∧ f ≤ i ∧ i.1 < j.1 ∧ i ≠ n) {m : IntValue} (hm : m.1 = j.1 - 1) :
    Ints table ∧ IsLeast (table : Set (DomainElement C)) (int f) ∧
      IsGreatest (table : Set (DomainElement C)) (int m) := by
  have hfn : f.1 < n.1 := hf
  refine ⟨fun d hd => ?_, ⟨?_, ?_⟩, ?_, ?_⟩
  · obtain ⟨i, rfl, -⟩ := (h d).mp hd
    exact ⟨i, rfl⟩
  · exact (h _).mpr ⟨f, rfl, le_rfl, by omega, hf.ne⟩
  · intro d hd
    obtain ⟨i, rfl, hi, -⟩ := (h d).mp hd
    exact int_le_int.mpr hi
  · refine (h _).mpr ⟨m, rfl, show f.1 ≤ m.1 by omega, by omega, fun heq => ?_⟩
    rw [heq] at hm
    omega
  · intro d hd
    obtain ⟨i, rfl, -, hi, -⟩ := (h d).mp hd
    exact int_le_int.mpr (show i.1 ≤ m.1 by omega)

theorem copied_not_range {j : IntValue} (hn : n.1 + 1 < j.1) (hf : f < n)
    (h : ∀ x, x ∈ table ↔ ∃ i, x = int i ∧ f ≤ i ∧ i.1 < j.1 ∧ i ≠ n) {r : Option (IntValue × IntValue)}
    (hr : isRange table = some r) : r = none := by
  have hfn : f.1 < n.1 := hf
  cases r with
  | none => rfl
  | some bounds =>
    obtain ⟨first, last⟩ := bounds
    have hmem := fun x => mem_of_isRange (x := x) hr
    obtain ⟨i, hi, hfirst, -⟩ := (hmem (int f)).mp ((h _).mpr ⟨f, rfl, le_rfl, by omega, hf.ne⟩)
    have hj := j.2
    have hf2 := f.2
    obtain ⟨k, hk, -, hlast⟩ := (hmem (int ⟨n.1 + 1, by omega, by omega⟩)).mp
      ((h _).mpr ⟨_, rfl, show f.1 ≤ n.1 + 1 by omega, hn, fun heq => by
        have := congrArg Subtype.val heq
        simp only at this
        omega⟩)
    obtain rfl := DomainElement.int.inj hi
    obtain rfl := DomainElement.int.inj hk
    have hlast : n.1 + 1 ≤ last.1 := hlast
    have hmemn : int n ∈ table :=
      (hmem _).mpr ⟨n, rfl, hfirst.trans hf.le, show n.1 ≤ last.1 by omega⟩
    obtain ⟨i, hi, -, -, hne⟩ := (h _).mp hmemn
    exact absurd (DomainElement.int.inj hi).symm hne

theorem Copied.step (hn : f < n) {j : IntValue} {s : ℕ × FiniteTable C} (hj : f ≤ j)
    (hmin : f < j → j.1 ≤ n.1 + 1 → j ≠ n → minInt < f.1)
    (hwidth : n.1 + 1 < j.1 → j.1 - 1 - f.1 ≤ maxInt) (h : Copied f n j.1 s) :
    ∃ s', copyBody n j s = some s' ∧ Copied f n (j.1 + 1) s' := by
  have hn' : f.1 < n.1 := hn
  have hjb := j.2
  have hnb := n.2
  cases h with
  | start heq =>
    obtain rfl : j = f := Subtype.ext heq
    refine ⟨(0, .intRange j j), ?_, Copied.range (by omega) (by omega) (by omega)⟩
    rw [copyBody, if_neg hn.ne, FiniteTable.add, enumeratedAdd, if_neg (Finset.notMem_empty _)]
    exact if_pos rfl
  | @range m hlt hle hm =>
    by_cases hjn : j = n
    · refine ⟨_, if_pos hjn, Copied.range (by omega) ?_ (hm.trans ?_)⟩
      · rw [hjn]
      · rw [hjn]
        omega
    · have hne : j.1 ≠ n.1 := fun h => hjn (Subtype.ext h)
      have hmin := hmin hlt hle hjn
      rw [copyBody, if_neg hjn, FiniteTable.add]
      by_cases hlast : j.1 = n.1 + 1
      · rw [intRangeAdd_gap hmin (by omega) (by omega)]
        have hsome : (insertRange f m {(int j : DomainElement C)}).isSome :=
          insertRange_isSome.mpr (by omega)
        obtain ⟨table, ht⟩ := Option.isSome_iff_exists.mp hsome
        refine ⟨(0, .enumerated table), by rw [ht]; rfl, Copied.split (by omega) fun x => ?_⟩
        rw [mem_insertRange ht, Finset.mem_singleton]
        constructor
        · rintro (rfl | ⟨i, rfl, h1, h2⟩)
          · exact ⟨j, rfl, hj, by omega, hjn⟩
          · have h2 : i.1 ≤ m.1 := h2
            exact ⟨i, rfl, h1, by omega, fun heq => by rw [heq] at h2; omega⟩
        · rintro ⟨i, rfl, h1, h2, h3⟩
          have h3 : i.1 ≠ n.1 := fun h => h3 (Subtype.ext h)
          by_cases heq : i = j
          · exact Or.inl (congrArg int heq)
          · have heq : i.1 ≠ j.1 := fun h => heq (Subtype.ext h)
            exact Or.inr ⟨i, rfl, h1, show i.1 ≤ m.1 by omega⟩
      · refine ⟨_, intRangeAdd_next Nat.zero_lt_two hmin (by omega) (by omega), Copied.range (by omega) (by omega) (by omega)⟩
  | @split table hlt hmem =>
    have hjn : j ≠ n := fun h => by rw [h] at hlt; omega
    have hnot : int j ∉ table := by
      intro hin
      obtain ⟨i, hi, -, h2, -⟩ := (hmem _).mp hin
      rw [← DomainElement.int.inj hi] at h2
      omega
    have hne : table ≠ ∅ := by
      rintro rfl
      exact absurd ((hmem (int f)).mpr ⟨f, rfl, le_rfl, by omega, hn.ne⟩) (Finset.notMem_empty _)
    have hm : minInt ≤ j.1 - 1 ∧ j.1 - 1 ≤ maxInt := ⟨f.2.1.trans (by omega), by omega⟩
    have hsome : (isRange table).isSome := by
      refine isRange_isSome ((Finset.Icc f ⟨j.1 - 1, hm⟩).erase n) (fun d hd => ?_) ?_ ?_
      · obtain ⟨i, rfl, h1, h2, h3⟩ := (hmem d).mp hd
        exact Finset.mem_map.mpr ⟨i, Finset.mem_erase.mpr
          ⟨h3, Finset.mem_Icc.mpr ⟨h1, show i.1 ≤ j.1 - 1 by omega⟩⟩, rfl⟩
      · rw [Finset.card_erase_of_mem (Finset.mem_Icc.mpr ⟨hn.le, show n.1 ≤ j.1 - 1 by omega⟩), card_Icc]
        have := hwidth hlt
        simp only
        omega
      · intro i hi k hk
        have h1 : f.1 ≤ i.1 := (Finset.mem_Icc.mp (Finset.mem_of_mem_erase hi)).1
        have h2 : k.1 ≤ j.1 - 1 := (Finset.mem_Icc.mp (Finset.mem_of_mem_erase hk)).2
        have := hwidth hlt
        omega
    obtain ⟨r, hr⟩ := Option.isSome_iff_exists.mp hsome
    obtain rfl := copied_not_range hlt hn hmem hr
    refine ⟨(refsAfter 0, .enumerated (insert (int j) table)), ?_, ?_⟩
    · rw [copyBody, if_neg hjn, FiniteTable.add, enumeratedAdd_nonRange hnot hne hr]
    · refine Copied.split (by omega) fun x => ?_
      rw [Finset.mem_insert, hmem]
      constructor
      · rintro (rfl | ⟨i, rfl, h1, h2, h3⟩)
        · exact ⟨j, rfl, hj, by omega, hjn⟩
        · exact ⟨i, rfl, h1, by omega, h3⟩
      · rintro ⟨i, rfl, h1, h2, h3⟩
        by_cases heq : i = j
        · exact Or.inl (congrArg int heq)
        · have heq : i.1 ≠ j.1 := fun h => heq (Subtype.ext h)
          exact Or.inr ⟨i, rfl, h1, by omega, h3⟩

theorem Copied.of_some (hn : f < n) {j : IntValue} {s s' : ℕ × FiniteTable C} (h : Copied f n j.1 s)
    (hs : copyBody n j s = some s') :
    (f < j → j.1 ≤ n.1 + 1 → j ≠ n → minInt < f.1) ∧ (n.1 + 1 < j.1 → j.1 - 1 - f.1 ≤ maxInt) := by
  have hn' : f.1 < n.1 := hn
  refine ⟨fun hlt hle hjn => ?_, fun hlt => ?_⟩
  · have hlt : f.1 < j.1 := hlt
    cases h with
    | start heq => omega
    | @range m _ _ hm =>
      rw [copyBody, if_neg hjn, FiniteTable.add] at hs
      rcases intRangeAdd_isSome.mp (Option.isSome_iff_exists.mpr ⟨s', hs⟩) with hc | hc
      · obtain ⟨i, hi, -, h2⟩ := contains_intRange.mp hc
        have h2 : i.1 ≤ m.1 := h2
        rw [← DomainElement.int.inj hi] at h2
        have hne : j.1 ≠ n.1 := fun h => hjn (Subtype.ext h)
        omega
      · exact hc.1
    | split h _ => omega
  · cases h with
    | start heq => omega
    | range _ _ _ => omega
    | @split table _ hmem =>
      have hjn : j ≠ n := fun h => by rw [h] at hlt; omega
      have hnot : int j ∉ table := by
        intro hin
        obtain ⟨i, hi, -, h2, -⟩ := (hmem _).mp hin
        rw [← DomainElement.int.inj hi] at h2
        omega
      have hm : minInt ≤ j.1 - 1 ∧ j.1 - 1 ≤ maxInt := by
        have := j.2
        have := f.2
        omega
      obtain ⟨hints, hf, hl⟩ := copied_bounds hlt hn hmem (m := ⟨j.1 - 1, hm⟩) rfl
      rw [copyBody, if_neg hjn, FiniteTable.add] at hs
      rcases enumeratedAdd_isSome.mp (Option.isSome_iff_exists.mpr ⟨s', hs⟩) with hin | rfl | ⟨r, hr, -⟩
      · exact absurd hin hnot
      · exact absurd hf.1 (Finset.notMem_empty _)
      · rw [Option.mem_def, isRange_of_bounds hints hf hl] at hr
        obtain ⟨width, hw, -⟩ := Option.bind_eq_some_iff.mp hr
        have hw : width.1 = j.1 - 1 - f.1 := checked_eq_some.mp hw
        have := width.2.2
        omega

def FiniteTable.Removable : FiniteTable C → DomainElement C → Prop
  | .enumerated _, _ => True
  | .intRange first last, .int n => first ≤ n → n ≤ last →
    (n = first → first.1 < maxInt) ∧
      (first < n → n < last → minInt < first.1 ∧ last.1 < maxInt ∧
        (n.1 + 1 < last.1 → last.1 - 1 - first.1 ≤ maxInt))
  | .intRange _ _, _ => True

theorem copy_isSome (hf : f < n) (hl : n < l) :
    (loop l (copyBody n) f (0, .enumerated ∅) : Option (ℕ × FiniteTable C)).isSome ↔
      minInt < f.1 ∧ l.1 < maxInt ∧ (n.1 + 1 < l.1 → l.1 - 1 - f.1 ≤ maxInt) := by
  have hf' : f.1 < n.1 := hf
  have hl' : n.1 < l.1 := hl
  have hnb := n.2
  have hlb := l.2
  constructor
  · intro h
    obtain ⟨s, hs⟩ := Option.isSome_iff_exists.mp h
    have hlast : l.1 < maxInt := by
      by_contra hn
      rw [loop_none _ (maxInt_of_not_lt hn)] at hs
      cases hs
    obtain ⟨-, hrounds⟩ := loop_keeps (Copied f n) hs (by omega) (Copied.start rfl)
      fun j hj _ s s' hcopied hs => by
        obtain ⟨hmin, hwidth⟩ := hcopied.of_some hf hs
        obtain ⟨s1, hs1, hcopied⟩ := hcopied.step hf hj hmin hwidth
        obtain rfl := Option.some.inj (hs.symm.trans hs1)
        exact hcopied
    refine ⟨?_, hlast, fun hlt => ?_⟩
    · obtain ⟨s, s', hcopied, hs⟩ := hrounds ⟨n.1 + 1, by omega, by omega⟩
        (show f.1 ≤ n.1 + 1 by omega) (show n.1 + 1 ≤ l.1 by omega)
      exact (hcopied.of_some hf hs).1 (show f.1 < n.1 + 1 by omega) le_rfl fun h => by
        have := congrArg Subtype.val h
        simp only at this
        omega
    · obtain ⟨s, s', hcopied, hs⟩ := hrounds l (show f.1 ≤ l.1 by omega) le_rfl
      exact (hcopied.of_some hf hs).2 hlt
  · rintro ⟨hmin, hlast, hwidth⟩
    obtain ⟨s, hs, -⟩ := loop_spec (Copied f n) hlast (by omega)
      (Copied.start rfl : Copied f n f.1 (0, FiniteTable.enumerated (C := C) ∅))
      fun j hj hjl s hcopied => hcopied.step hf hj (fun _ _ _ => hmin) fun hlt => by
        have hjl : j.1 ≤ l.1 := hjl
        have := hwidth (by omega)
        omega
    rw [hs]
    rfl

theorem copied_of_copy (hf : f.1 < n.1) (hl : n.1 < l.1) {s : ℕ × FiniteTable C}
    (h : loop l (copyBody n) f (0, .enumerated ∅) = some s) : Copied f n (l.1 + 1) s := by
  refine (loop_keeps (Copied f n) h (by omega) (Copied.start rfl) fun j hj _ s s' hcopied hs => ?_).1
  obtain ⟨hmin, hwidth⟩ := hcopied.of_some hf hs
  obtain ⟨s1, hs1, hcopied⟩ := hcopied.step hf hj hmin hwidth
  obtain rfl := Option.some.inj (hs.symm.trans hs1)
  exact hcopied

theorem intRangeRemove_isSome :
    (intRangeRemove nrRefs f l d).isSome ↔ (FiniteTable.intRange f l).Removable d := by
  cases d with
  | int n =>
    rw [intRangeRemove, FiniteTable.Removable]
    by_cases hin : f ≤ n ∧ n ≤ l
    · simp only [hin.1, hin.2, forall_const]
      by_cases hf : n = f
      · have := f.2
        subst hf
        simp only [if_true, Option.isSome_map, checked_isSome, forall_const, lt_irrefl, false_implies,
          and_true]
        omega
      · have hlt : f < n := lt_of_le_of_ne hin.1 (Ne.symm hf)
        have hlt' : f.1 < n.1 := hlt
        simp only [hf, if_false, hlt, forall_const, false_implies, true_and]
        by_cases hl : n = l
        · have := f.2
          have := l.2
          subst hl
          simp only [if_true, Option.isSome_map, checked_isSome, lt_irrefl, false_implies, iff_true]
          omega
        · have hlt : n < l := lt_of_le_of_ne hin.2 hl
          simp only [hl, if_false, hlt, forall_const]
          exact copy_isSome ‹f < n› hlt
    · simp only [if_neg hin, Option.isSome_some, true_iff]
      exact fun h1 h2 => absurd ⟨h1, h2⟩ hin
  | double x => exact iff_of_true rfl trivial
  | string t => exact iff_of_true rfl trivial
  | compound c => exact iff_of_true rfl trivial

def Reduced (contains : DomainElement C → Bool) (d : DomainElement C) (t : FiniteTable C) : Prop :=
  t.WellFormed ∧ ∀ x, t.contains x = true ↔ x ≠ d ∧ contains x = true

theorem reduced_self {t : FiniteTable C} (hw : t.WellFormed) (hd : ¬ t.contains d = true) :
    Reduced t.contains d t :=
  ⟨hw, fun _ => ⟨fun hx => ⟨fun heq => hd (heq ▸ hx), hx⟩, fun hx => hx.2⟩⟩

theorem intRangeRemove_reduced (hw : (FiniteTable.intRange f l : FiniteTable C).WellFormed)
    {r : ℕ × FiniteTable C} (h : intRangeRemove nrRefs f l d = some r) :
    Reduced (FiniteTable.intRange f l).contains d r.2 := by
  have hself : ¬ (FiniteTable.intRange f l).contains d = true →
      some (nrRefs, FiniteTable.intRange f l) = some r →
        Reduced (FiniteTable.intRange f l).contains d r.2 := by
    intro hd h
    obtain rfl := Option.some.inj h
    exact reduced_self hw hd
  cases d with
  | int n =>
    rw [intRangeRemove] at h
    by_cases hin : f ≤ n ∧ n ≤ l
    · have h1 : f.1 ≤ n.1 := hin.1
      have h2 : n.1 ≤ l.1 := hin.2
      rw [if_pos hin] at h
      by_cases hf : n = f
      · rw [if_pos hf] at h
        obtain ⟨next, hnext, rfl⟩ := Option.map_eq_some_iff.mp h
        have hnext := checked_eq_some.mp hnext
        refine ⟨show next.1 ≤ l.1 + 1 by omega, fun x => ?_⟩
        subst hf
        rw [contains_intRange, contains_intRange]
        constructor
        · rintro ⟨i, rfl, hi1, hi2⟩
          have hi1 : next.1 ≤ i.1 := hi1
          refine ⟨fun heq => ?_, i, rfl, show n.1 ≤ i.1 by omega, hi2⟩
          rw [DomainElement.int.inj heq] at hi1
          omega
        · rintro ⟨hne, i, rfl, hi1, hi2⟩
          have hne : i.1 ≠ n.1 := fun h => hne (congrArg int (Subtype.ext h))
          have hi1 : n.1 ≤ i.1 := hi1
          exact ⟨i, rfl, show next.1 ≤ i.1 by omega, hi2⟩
      · have hlt : f.1 < n.1 := lt_of_le_of_ne h1 fun h => hf (Subtype.ext h.symm)
        rw [if_neg hf] at h
        by_cases hl : n = l
        · rw [if_pos hl] at h
          obtain ⟨previous, hp, rfl⟩ := Option.map_eq_some_iff.mp h
          have hp := checked_eq_some.mp hp
          refine ⟨show f.1 ≤ previous.1 + 1 by omega, fun x => ?_⟩
          subst hl
          rw [contains_intRange, contains_intRange]
          constructor
          · rintro ⟨i, rfl, hi1, hi2⟩
            have hi2 : i.1 ≤ previous.1 := hi2
            refine ⟨fun heq => ?_, i, rfl, hi1, show i.1 ≤ n.1 by omega⟩
            rw [DomainElement.int.inj heq] at hi2
            omega
          · rintro ⟨hne, i, rfl, hi1, hi2⟩
            have hne : i.1 ≠ n.1 := fun h => hne (congrArg int (Subtype.ext h))
            have hi2 : i.1 ≤ n.1 := hi2
            exact ⟨i, rfl, hi1, show i.1 ≤ previous.1 by omega⟩
        · have hlt' : n.1 < l.1 := lt_of_le_of_ne h2 fun h => hl (Subtype.ext h)
          rw [if_neg hl] at h
          have hcopied := copied_of_copy hlt hlt' h
          generalize hlast : l.1 + 1 = last at hcopied
          cases hcopied with
          | start heq => omega
          | range _ _ _ => omega
          | split _ hmem =>
            refine ⟨trivial, fun x => ?_⟩
            rw [contains_enumerated, hmem, contains_intRange]
            constructor
            · rintro ⟨i, rfl, hi1, hi2, hne⟩
              exact ⟨fun heq => hne (DomainElement.int.inj heq), i, rfl, hi1, show i.1 ≤ l.1 by omega⟩
            · rintro ⟨hne, i, rfl, hi1, hi2⟩
              have hi2 : i.1 ≤ l.1 := hi2
              exact ⟨i, rfl, hi1, by omega, fun heq => hne (congrArg int heq)⟩
    · rw [if_neg hin] at h
      refine hself (fun hc => hin ?_) h
      obtain ⟨i, hi, h12⟩ := contains_intRange.mp hc
      exact DomainElement.int.inj hi ▸ h12
  | double x => exact hself nofun h
  | string t => exact hself nofun h
  | compound c => exact hself nofun h

namespace FiniteTable

variable {t : FiniteTable C}

theorem remove_isSome : (t.remove nrRefs d).isSome ↔ t.Removable d := by
  cases t with
  | enumerated table => exact iff_of_true rfl trivial
  | intRange first last => exact intRangeRemove_isSome

theorem remove_reduced (hw : t.WellFormed) {r : ℕ × FiniteTable C} (h : t.remove nrRefs d = some r) :
    Reduced t.contains d r.2 := by
  cases t with
  | enumerated table =>
    obtain rfl := Option.some.inj h
    split_ifs with hd
    · exact ⟨trivial, fun x => by rw [contains_enumerated, contains_enumerated, Finset.mem_erase]⟩
    · exact reduced_self trivial fun h => hd (contains_enumerated.mp h)
  | intRange first last => exact intRangeRemove_reduced hw h

end FiniteTable

end Remove

end SortTables
