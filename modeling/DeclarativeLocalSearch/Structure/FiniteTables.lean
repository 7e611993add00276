import Mathlib
import DeclarativeLocalSearch.Structure.SortTables

namespace SortTables

open CheckedInt DomainElement

variable {C : Type} [LinearOrder C] {table : Finset (DomainElement C)} {d x : DomainElement C}
  {f l n start stop : IntValue} {nrRefs : ℕ}

theorem maxInt_of_not_lt (h : ¬ n.1 < maxInt) : n.1 = maxInt := le_antisymm n.2.2 (not_lt.mp h)

theorem checked_isSome {m : ℤ} : (checked m : Option IntValue).isSome ↔ minInt ≤ m ∧ m ≤ maxInt := by
  rw [← Option.ne_none_iff_isSome, Ne, checked_eq_none]
  omega

theorem insertRange_isSome : (insertRange start stop table).isSome ↔ stop.1 < maxInt := by
  constructor
  · intro h
    by_contra hn
    rw [insertRange, loop_none _ (maxInt_of_not_lt hn)] at h
    cases h
  · intro h
    by_cases hle : start.1 ≤ stop.1 + 1
    · obtain ⟨t, ht, -⟩ : ∃ t, insertRange start stop table = some t ∧ True :=
        loop_spec (fun _ _ => True) h hle trivial fun j _ _ s _ => ⟨_, rfl, trivial⟩
      rw [ht, Option.isSome_some]
    · rw [insertRange, loop_empty (show stop.1 < start.1 by omega), Option.isSome_some]

theorem mem_insertRange {table' : Finset (DomainElement C)}
    (h : insertRange start stop table = some table') :
    x ∈ table' ↔ x ∈ table ∨ ∃ i, x = int i ∧ start ≤ i ∧ i ≤ stop := by
  by_cases hle : start.1 ≤ stop.1 + 1
  · have hkeeps := loop_keeps
      (fun j s => x ∈ s ↔ x ∈ table ∨ ∃ i : IntValue, x = int i ∧ start ≤ i ∧ i.1 < j) h hle
      (by simp +contextual [not_lt_of_ge]) ?_
    · rw [hkeeps.1]
      simp only [Int.lt_add_one_iff, Subtype.coe_le_coe]
    · intro j hj _ s s' hs heq
      obtain rfl := Option.some.inj heq
      rw [Finset.mem_insert, hs]
      constructor
      · rintro (rfl | hx | ⟨i, rfl, hi, hlt⟩)
        · exact Or.inr ⟨j, rfl, hj, by omega⟩
        · exact Or.inl hx
        · exact Or.inr ⟨i, rfl, hi, by omega⟩
      · rintro (hx | ⟨i, rfl, hi, hlt⟩)
        · exact Or.inr (Or.inl hx)
        · rcases Int.lt_add_one_iff.mp hlt |>.lt_or_eq with hlt | heq
          · exact Or.inr (Or.inr ⟨i, rfl, hi, hlt⟩)
          · exact Or.inl (congrArg int (Subtype.ext heq))
  · have hlt : stop < start := show stop.1 < start.1 by omega
    rw [insertRange, loop_empty hlt] at h
    obtain rfl := Option.some.inj h
    rw [or_iff_left]
    rintro ⟨i, -, h1, h2⟩
    exact absurd (h1.trans h2) hlt.not_ge

section Range

omit [LinearOrder C] in
theorem intValue_eq_none : d.intValue = none ↔ ∀ n, d ≠ int n := by
  cases d <;> simp [intValue]

def Ints (table : Finset (DomainElement C)) : Prop := ∀ d ∈ table, ∃ n, d = int n

theorem isRange_of_not_ints (h : ¬ Ints table) : isRange table = some none := by
  obtain ⟨d, hd, hn⟩ : ∃ d ∈ table, d.intValue = none := by
    unfold Ints at h
    push Not at h
    obtain ⟨d, hd, hn⟩ := h
    exact ⟨d, hd, intValue_eq_none.mpr hn⟩
  rw [isRange, dif_pos ⟨d, hd⟩, if_pos ⟨d, hd, hn⟩]

theorem isRange_of_bounds (h : Ints table) (hf : IsLeast (table : Set (DomainElement C)) (int f))
    (hl : IsGreatest (table : Set (DomainElement C)) (int l)) :
    isRange table = (checked (l.1 - f.1) : Option IntValue).bind fun width =>
      (checked table.card : Option IntValue).bind fun size =>
        some (if width.1 = size.1 - 1 then some (f, l) else none) := by
  have hne : table.Nonempty := ⟨_, hf.1⟩
  have hints : ¬ ∃ d ∈ table, d.intValue = none := by
    rintro ⟨d, hd, hn⟩
    obtain ⟨n, rfl⟩ := h d hd
    cases hn
  have hmin : table.min' hne = int f := (table.isLeast_min' hne).unique hf
  have hmax : table.max' hne = int l := (table.isGreatest_max' hne).unique hl
  rw [isRange, dif_pos hne, if_neg hints, hmin, hmax]
  rfl

theorem exists_bounds (h : Ints table) (hne : table.Nonempty) :
    ∃ f l, IsLeast (table : Set (DomainElement C)) (int f) ∧
      IsGreatest (table : Set (DomainElement C)) (int l) := by
  have hmin := table.isLeast_min' hne
  have hmax := table.isGreatest_max' hne
  obtain ⟨f, hf⟩ := h _ hmin.1
  obtain ⟨l, hl⟩ := h _ hmax.1
  exact ⟨f, l, hf ▸ hmin, hl ▸ hmax⟩

def intEmbedding : IntValue ↪ DomainElement C := ⟨int, fun _ _ => DomainElement.int.inj⟩

theorem card_Icc (f l : IntValue) : (Finset.Icc f l).card = (l.1 + 1 - f.1).toNat := by
  rw [← Int.card_Icc, ← Finset.card_map (Function.Embedding.subtype _),
    Finset.map_subtype_embedding_Icc]
  exact fun a b c hab hbc ha hc => ⟨ha.1.trans hab, hbc.trans hc.2⟩

theorem mem_of_isRange (h : isRange table = some (some (f, l))) :
    x ∈ table ↔ ∃ n, x = int n ∧ f ≤ n ∧ n ≤ l := by
  have hints : Ints table := by
    by_contra hn
    rw [isRange_of_not_ints hn] at h
    cases h
  have hne : table.Nonempty := by
    by_contra hn
    rw [isRange, dif_neg hn] at h
    cases h
  obtain ⟨f', l', hf, hl⟩ := exists_bounds hints hne
  rw [isRange_of_bounds hints hf hl] at h
  simp only [Option.bind_eq_some_iff, Option.some.injEq] at h
  obtain ⟨width, hw, size, hs, h⟩ := h
  split_ifs at h with hsize
  obtain ⟨rfl, rfl⟩ := Prod.mk.inj (Option.some.inj h)
  have hw := checked_eq_some.mp hw
  have hs := checked_eq_some.mp hs
  have hsub : table ⊆ (Finset.Icc f' l').map intEmbedding := by
    intro d hd
    obtain ⟨n, rfl⟩ := hints d hd
    exact Finset.mem_map.mpr
      ⟨n, Finset.mem_Icc.mpr ⟨int_le_int.mp (hf.2 hd), int_le_int.mp (hl.2 hd)⟩, rfl⟩
  have heq := Finset.eq_of_subset_of_card_le hsub (by
    rw [Finset.card_map, card_Icc]
    omega)
  rw [heq, Finset.mem_map]
  simp only [Finset.mem_Icc]
  constructor
  · rintro ⟨n, hn, hx⟩
    exact ⟨n, hx.symm, hn⟩
  · rintro ⟨n, hx, hn⟩
    exact ⟨n, hn, hx.symm⟩

theorem isRange_isSome (values : Finset IntValue) (hsub : table ⊆ values.map intEmbedding)
    (hcard : values.card ≤ maxInt) (hwidth : ∀ i ∈ values, ∀ j ∈ values, j.1 - i.1 ≤ maxInt) :
    (isRange table).isSome := by
  by_cases hne : table.Nonempty
  · have hvalue : ∀ {i}, int i ∈ table → i ∈ values := by
      intro i hi
      obtain ⟨j, hj, hji⟩ := Finset.mem_map.mp (hsub hi)
      exact DomainElement.int.inj hji ▸ hj
    have hints : Ints table := by
      intro d hd
      obtain ⟨i, -, rfl⟩ := Finset.mem_map.mp (hsub hd)
      exact ⟨i, rfl⟩
    obtain ⟨f, l, hf, hl⟩ := exists_bounds hints hne
    have hle : f.1 ≤ l.1 := int_le_int.mp (hf.2 hl.1)
    have hwidth := hwidth f (hvalue hf.1) l (hvalue hl.1)
    have hsize := (Finset.card_le_card hsub).trans_eq (Finset.card_map _)
    obtain ⟨width, hw⟩ := Option.isSome_iff_exists.mp
      (checked_isSome.mpr (show minInt ≤ l.1 - f.1 ∧ l.1 - f.1 ≤ maxInt from
        ⟨le_trans (by decide) (sub_nonneg.mpr hle), hwidth⟩))
    obtain ⟨size, hs⟩ := Option.isSome_iff_exists.mp
      (checked_isSome.mpr (show minInt ≤ (table.card : ℤ) ∧ (table.card : ℤ) ≤ maxInt from
        ⟨le_trans (by decide) (Int.natCast_nonneg _), by omega⟩))
    rw [isRange_of_bounds hints hf hl, hw, Option.bind_some, hs]
    rfl
  · rw [isRange, dif_neg hne]
    rfl

end Range

section Add

def FiniteTable.WellFormed : FiniteTable C → Prop
  | .enumerated _ => True
  | .intRange first last => first.1 ≤ last.1 + 1

theorem contains_intRange : (FiniteTable.intRange f l).contains x = true ↔ ∃ n, x = int n ∧ f ≤ n ∧ n ≤ l := by
  cases x <;> simp [FiniteTable.contains]

theorem contains_enumerated : (FiniteTable.enumerated table).contains x = true ↔ x ∈ table := by
  simp [FiniteTable.contains]

-- what a result adds to a table
def Extended (contains : DomainElement C → Bool) (added : DomainElement C → Prop)
    (t : FiniteTable C) : Prop :=
  t.WellFormed ∧ ∀ x, t.contains x = true ↔ added x ∨ contains x = true

theorem extended_nonRange {table table' : Finset (DomainElement C)}
    (h : insertRange f l table = some table') :
    Extended (FiniteTable.intRange f l).contains (· ∈ table) (.enumerated table') :=
  ⟨trivial, fun x => by rw [contains_enumerated, mem_insertRange h, contains_intRange]⟩

theorem nonRange_isSome :
    ((insertRange f l {d}).map fun table => (0, FiniteTable.enumerated table)).isSome ↔ l.1 < maxInt := by
  rw [Option.isSome_map, insertRange_isSome]

theorem intRangeAdd_isSome :
    (intRangeAdd nrRefs f l d).isSome ↔ (FiniteTable.intRange f l).contains d = true ∨
      match d with
      | .int n => minInt < f.1 ∧ (l.1 < maxInt ∨ n.1 = f.1 - 1 ∧ nrRefs < 2)
      | _ => l.1 < maxInt := by
  unfold intRangeAdd
  by_cases hc : (FiniteTable.intRange f l).contains d = true
  · simp [hc]
  · rw [if_neg hc, or_iff_right hc]
    cases d with
    | int n =>
      by_cases hf : minInt < f.1
      · obtain ⟨before, hb⟩ := Option.isSome_iff_exists.mp
          (checked_isSome.mpr (show minInt ≤ f.1 - 1 ∧ f.1 - 1 ≤ maxInt by have := f.2; omega))
        have hbefore := checked_eq_some.mp hb
        simp only [hb, Option.bind_eq_bind, Option.bind_some, and_iff_right hf]
        by_cases hn : n = before
        · rw [if_pos hn]
          split_ifs with hrefs
          · simp [hn, hbefore, hrefs]
          · rw [nonRange_isSome, or_iff_left fun h => hrefs h.2]
        · have hn' : n.1 ≠ f.1 - 1 := fun h => hn (Subtype.ext (h.trans hbefore.symm))
          rw [if_neg hn]
          by_cases hl : l.1 < maxInt
          · obtain ⟨after, ha⟩ := Option.isSome_iff_exists.mp
              (checked_isSome.mpr (show minInt ≤ l.1 + 1 ∧ l.1 + 1 ≤ maxInt by have := l.2; omega))
            simp only [ha, Option.bind_some, hl, true_or, iff_true]
            split_ifs
            · rfl
            · exact nonRange_isSome.mpr hl
          · have ha : (checked (l.1 + 1) : Option IntValue) = none :=
              checked_eq_none.mpr (Or.inr (by omega))
            simp [ha, hl, hn']
      · have hb : (checked (f.1 - 1) : Option IntValue) = none :=
          checked_eq_none.mpr (Or.inl (by omega))
        simp [hb, hf]
    | double x => exact nonRange_isSome
    | string s => exact nonRange_isSome
    | compound c => exact nonRange_isSome

theorem intRangeAdd_cases {r : ℕ × FiniteTable C} (h : intRangeAdd nrRefs f l d = some r) :
    ((FiniteTable.intRange f l).contains d = true ∧ r.2 = .intRange f l) ∨
      (∃ n, d = int n ∧ n.1 = f.1 - 1 ∧ r.2 = .intRange n l) ∨
      (∃ n, d = int n ∧ n.1 = l.1 + 1 ∧ r.2 = .intRange f n) ∨
      ∃ table, insertRange f l {d} = some table ∧ r.2 = .enumerated table := by
  have nonRange : ((insertRange f l {d}).map fun table => (0, FiniteTable.enumerated table)) = some r →
      ∃ table, insertRange f l {d} = some table ∧ r.2 = .enumerated table := by
    intro h
    obtain ⟨table, ht, rfl⟩ := Option.map_eq_some_iff.mp h
    exact ⟨table, ht, rfl⟩
  unfold intRangeAdd at h
  by_cases hc : (FiniteTable.intRange f l).contains d = true
  · rw [if_pos hc] at h
    obtain rfl := Option.some.inj h
    exact Or.inl ⟨hc, rfl⟩
  · rw [if_neg hc] at h
    right
    cases d with
    | int n =>
      simp only [Option.bind_eq_bind, Option.bind_eq_some_iff] at h
      obtain ⟨before, hb, h⟩ := h
      by_cases hn : n = before
      · rw [if_pos hn] at h
        split_ifs at h
        · obtain rfl := Option.some.inj h
          exact Or.inl ⟨n, rfl, hn ▸ checked_eq_some.mp hb, rfl⟩
        · exact Or.inr (Or.inr (nonRange h))
      · rw [if_neg hn] at h
        simp only [Option.bind_eq_some_iff] at h
        obtain ⟨after, ha, h⟩ := h
        split_ifs at h with hafter
        · obtain rfl := Option.some.inj h
          exact Or.inr (Or.inl ⟨n, rfl, hafter.1 ▸ checked_eq_some.mp ha, rfl⟩)
        · exact Or.inr (Or.inr (nonRange h))
    | double x => exact Or.inr (Or.inr (nonRange h))
    | string s => exact Or.inr (Or.inr (nonRange h))
    | compound c => exact Or.inr (Or.inr (nonRange h))

theorem intRangeAdd_extended (hw : (FiniteTable.intRange f l : FiniteTable C).WellFormed)
    {r : ℕ × FiniteTable C} (h : intRangeAdd nrRefs f l d = some r) :
    Extended (FiniteTable.intRange f l).contains (· = d) r.2 := by
  have hw : f.1 ≤ l.1 + 1 := hw
  rcases intRangeAdd_cases h with ⟨hc, hr⟩ | ⟨n, rfl, hn, hr⟩ | ⟨n, rfl, hn, hr⟩ | ⟨table, ht, hr⟩
  · rw [hr]
    exact ⟨hw, fun x => ⟨Or.inr, fun hx => hx.elim (fun heq => heq ▸ hc) id⟩⟩
  · rw [hr]
    refine ⟨show n.1 ≤ l.1 + 1 by omega, fun x => ?_⟩
    rw [contains_intRange, contains_intRange]
    constructor
    · rintro ⟨i, rfl, h1, h2⟩
      by_cases heq : i = n
      · exact Or.inl (congrArg int heq)
      · have hne : i.1 ≠ n.1 := fun h => heq (Subtype.ext h)
        have h1 : n.1 ≤ i.1 := h1
        exact Or.inr ⟨i, rfl, show f.1 ≤ i.1 by omega, h2⟩
    · rintro (rfl | ⟨i, rfl, h1, h2⟩)
      · exact ⟨n, rfl, le_rfl, show n.1 ≤ l.1 by omega⟩
      · have h1 : f.1 ≤ i.1 := h1
        exact ⟨i, rfl, show n.1 ≤ i.1 by omega, h2⟩
  · rw [hr]
    refine ⟨show f.1 ≤ n.1 + 1 by omega, fun x => ?_⟩
    rw [contains_intRange, contains_intRange]
    constructor
    · rintro ⟨i, rfl, h1, h2⟩
      by_cases heq : i = n
      · exact Or.inl (congrArg int heq)
      · have hne : i.1 ≠ n.1 := fun h => heq (Subtype.ext h)
        have h2 : i.1 ≤ n.1 := h2
        exact Or.inr ⟨i, rfl, h1, show i.1 ≤ l.1 by omega⟩
    · rintro (rfl | ⟨i, rfl, h1, h2⟩)
      · exact ⟨n, rfl, show f.1 ≤ n.1 by omega, le_rfl⟩
      · have h2 : i.1 ≤ l.1 := h2
        exact ⟨i, rfl, h1, show i.1 ≤ n.1 by omega⟩
  · rw [hr]
    simpa only [Finset.mem_singleton] using extended_nonRange ht

-- the bounds of a range, and what is one before and after them, can be computed
def FiniteTable.Addable (nrRefs : ℕ) : FiniteTable C → DomainElement C → Prop
  | .enumerated table, d => d ∈ table ∨
    match d with
    | .int n => table = ∅ ∨ ∃ r ∈ isRange table, ∀ bounds ∈ r,
        minInt < bounds.1.1 ∧ (bounds.1.1 ≤ n.1 + 1 → bounds.2.1 < maxInt)
    | _ => True
  | .intRange first last, d => (FiniteTable.intRange first last).contains d = true ∨
    match d with
    | .int n => minInt < first.1 ∧ (last.1 < maxInt ∨ n.1 = first.1 - 1 ∧ nrRefs < 2)
    | _ => last.1 < maxInt

theorem enumeratedAdd_int (hd : int n ∉ table) (ht : table ≠ ∅) {first last : IntValue}
    (hr : isRange table = some (some (first, last))) :
    enumeratedAdd nrRefs table (int n) =
      (checked (first.1 - 1) : Option IntValue).bind fun before =>
        if before ≤ n then
          (checked (last.1 + 1) : Option IntValue).bind fun after =>
            if n ≤ after then intRangeAdd 0 first last (int n)
            else some (refsAfter nrRefs, .enumerated (insert (int n) table))
        else some (refsAfter nrRefs, .enumerated (insert (int n) table)) := by
  rw [enumeratedAdd, if_neg hd]
  simp only [if_neg ht, hr]
  rfl

theorem enumeratedAdd_nonRange (hd : int n ∉ table) (ht : table ≠ ∅) (hr : isRange table = some none) :
    enumeratedAdd nrRefs table (int n) =
      some (refsAfter nrRefs, .enumerated (insert (int n) table)) := by
  rw [enumeratedAdd, if_neg hd]
  simp only [if_neg ht, hr]
  rfl

theorem enumeratedAdd_isSome :
    (enumeratedAdd nrRefs table d).isSome ↔ (FiniteTable.enumerated table).Addable nrRefs d := by
  by_cases hd : d ∈ table
  · simp [enumeratedAdd, FiniteTable.Addable, hd]
  · cases d with
    | int n =>
      rw [FiniteTable.Addable, or_iff_right hd]
      by_cases ht : table = ∅
      · simp [enumeratedAdd, ht]
      · simp only [ht, false_or]
        cases hr : isRange table with
        | none => simp [enumeratedAdd, hd, ht, hr]
        | some r =>
          cases r with
          | none => simp [enumeratedAdd_nonRange hd ht hr]
          | some bounds =>
            obtain ⟨first, last⟩ := bounds
            have hfirst := first.2
            have hlast := last.2
            rw [enumeratedAdd_int hd ht hr]
            simp only [Option.mem_def, Option.some.injEq, exists_eq_left', forall_eq']
            by_cases hb : minInt < first.1
            · obtain ⟨before, hbe⟩ := Option.isSome_iff_exists.mp
                (checked_isSome.mpr (show minInt ≤ first.1 - 1 ∧ first.1 - 1 ≤ maxInt by omega))
              have hbefore := checked_eq_some.mp hbe
              rw [hbe, Option.bind_some, and_iff_right hb]
              by_cases hle : before ≤ n
              · have hle' : before.1 ≤ n.1 := hle
                rw [if_pos hle]
                by_cases hl : last.1 < maxInt
                · obtain ⟨after, ha⟩ := Option.isSome_iff_exists.mp
                    (checked_isSome.mpr (show minInt ≤ last.1 + 1 ∧ last.1 + 1 ≤ maxInt by omega))
                  rw [ha, Option.bind_some]
                  refine iff_of_true ?_ fun _ => hl
                  split_ifs
                  · exact intRangeAdd_isSome.mpr (Or.inr ⟨hb, Or.inl hl⟩)
                  · rfl
                · have ha : (checked (last.1 + 1) : Option IntValue) = none :=
                    checked_eq_none.mpr (Or.inr (by omega))
                  simp only [ha, Option.bind_none, Option.isSome_none, Bool.false_eq_true, false_iff]
                  exact fun h => hl (h (by omega))
              · have hlt : ¬ before.1 ≤ n.1 := hle
                rw [if_neg hle]
                exact iff_of_true rfl fun h => absurd h (by omega)
            · have hbe : (checked (first.1 - 1) : Option IntValue) = none :=
                checked_eq_none.mpr (Or.inl (by omega))
              simp [hbe, hb]
    | double x => simp [enumeratedAdd, FiniteTable.Addable, hd]
    | string t => simp [enumeratedAdd, FiniteTable.Addable, hd]
    | compound c => simp [enumeratedAdd, FiniteTable.Addable, hd]

theorem extended_insert : Extended (FiniteTable.enumerated table).contains (· = d)
    (.enumerated (insert d table)) :=
  ⟨trivial, fun x => by rw [contains_enumerated, contains_enumerated, Finset.mem_insert]⟩

theorem Extended.congr {t t' : FiniteTable C} {added : DomainElement C → Prop} {r : FiniteTable C}
    (h : Extended t.contains added r) (heq : ∀ x, t'.contains x = true ↔ t.contains x = true) :
    Extended t'.contains added r :=
  ⟨h.1, fun x => by rw [h.2, heq]⟩

theorem contains_of_isRange (h : isRange table = some (some (f, l))) (x : DomainElement C) :
    (FiniteTable.enumerated table).contains x = true ↔ (FiniteTable.intRange f l).contains x = true := by
  rw [contains_enumerated, contains_intRange, mem_of_isRange h]

theorem wellFormed_of_isRange (h : isRange table = some (some (f, l))) :
    (FiniteTable.intRange f l : FiniteTable C).WellFormed := by
  have hne : table.Nonempty := by
    by_contra hn
    rw [isRange, dif_neg hn] at h
    cases h
  obtain ⟨x, hx⟩ := hne
  obtain ⟨n, -, h1, h2⟩ := (mem_of_isRange h).mp hx
  exact show f.1 ≤ l.1 + 1 from (Subtype.coe_le_coe.mpr (h1.trans h2)).trans (by omega)

theorem enumeratedAdd_extended {r : ℕ × FiniteTable C} (h : enumeratedAdd nrRefs table d = some r) :
    Extended (FiniteTable.enumerated table).contains (· = d) r.2 := by
  have hinserted : ∀ {r : ℕ × FiniteTable C},
      some (refsAfter nrRefs, FiniteTable.enumerated (insert d table)) = some r →
        Extended (FiniteTable.enumerated table).contains (· = d) r.2 := by
    intro r hr
    obtain rfl := Option.some.inj hr
    exact extended_insert
  by_cases hd : d ∈ table
  · unfold enumeratedAdd at h
    rw [if_pos hd] at h
    obtain rfl := Option.some.inj h
    refine ⟨trivial, fun x => ⟨Or.inr, fun hx => hx.elim (fun heq => ?_) id⟩⟩
    exact heq ▸ contains_enumerated.mpr hd
  · cases d with
    | int n =>
      by_cases ht : table = ∅
      · subst ht
        rw [enumeratedAdd, if_neg hd] at h
        obtain rfl := Option.some.inj h
        refine ⟨show n.1 ≤ n.1 + 1 by omega, fun x => ?_⟩
        rw [contains_intRange, contains_enumerated]
        simp only [← le_antisymm_iff, Finset.notMem_empty, or_false]
        exact ⟨fun ⟨i, hx, hi⟩ => hi ▸ hx, fun hx => ⟨n, hx, rfl⟩⟩
      · cases hr : isRange table with
        | none => simp [enumeratedAdd, hd, ht, hr] at h
        | some bounds =>
          cases bounds with
          | none => exact hinserted (enumeratedAdd_nonRange hd ht hr ▸ h)
          | some bounds =>
            rw [enumeratedAdd_int hd ht hr] at h
            simp only [Option.bind_eq_some_iff] at h
            obtain ⟨before, -, h⟩ := h
            split_ifs at h
            · simp only [Option.bind_eq_some_iff] at h
              obtain ⟨after, -, h⟩ := h
              split_ifs at h
              · exact (intRangeAdd_extended (wellFormed_of_isRange hr) h).congr (contains_of_isRange hr)
              · exact hinserted h
            · exact hinserted h
    | double x => exact hinserted (by simpa [enumeratedAdd, hd] using h)
    | string t => exact hinserted (by simpa [enumeratedAdd, hd] using h)
    | compound c => exact hinserted (by simpa [enumeratedAdd, hd] using h)

namespace FiniteTable

variable {t : FiniteTable C}

theorem add_isSome : (t.add nrRefs d).isSome ↔ t.Addable nrRefs d := by
  cases t with
  | enumerated table => exact enumeratedAdd_isSome
  | intRange first last => exact intRangeAdd_isSome

theorem add_extended (hw : t.WellFormed) {r : ℕ × FiniteTable C} (h : t.add nrRefs d = some r) :
    Extended t.contains (· = d) r.2 := by
  cases t with
  | enumerated table => exact enumeratedAdd_extended h
  | intRange first last => exact intRangeAdd_extended hw h

end FiniteTable

end Add

end SortTables
