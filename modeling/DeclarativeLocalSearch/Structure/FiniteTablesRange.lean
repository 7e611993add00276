import DeclarativeLocalSearch.Structure.FiniteTables

namespace SortTables

open CheckedInt DomainElement

variable {C : Type} [LinearOrder C] {table : Finset (DomainElement C)}
  {f l : IntValue} {nrRefs : ℕ}

section AddRange

variable {i1 i2 : IntValue}

def Between (i1 i2 : IntValue) (x : DomainElement C) : Prop := ∃ i, x = int i ∧ i1 ≤ i ∧ i ≤ i2

omit [LinearOrder C] in
theorem between_union (h1 : i1.1 ≤ l.1 + 1) (h2 : f.1 - 1 ≤ i2.1) (hle : i1 ≤ i2)
    (x : DomainElement C) :
    (∃ i, x = int i ∧ min i1 f ≤ i ∧ i ≤ max i2 l) ↔
      Between i1 i2 x ∨ ∃ i, x = int i ∧ f ≤ i ∧ i ≤ l := by
  have hle : i1.1 ≤ i2.1 := hle
  have key : ∀ i : IntValue, (min i1 f ≤ i ∧ i ≤ max i2 l) ↔ (i1 ≤ i ∧ i ≤ i2) ∨ (f ≤ i ∧ i ≤ l) := by
    intro i
    rw [min_le_iff, le_max_iff]
    simp only [← Subtype.coe_le_coe]
    omega
  simp only [key, Between]
  constructor
  · rintro ⟨i, rfl, h | h⟩
    · exact Or.inl ⟨i, rfl, h⟩
    · exact Or.inr ⟨i, rfl, h⟩
  · rintro (⟨i, rfl, h⟩ | ⟨i, rfl, h⟩)
    · exact ⟨i, rfl, Or.inl h⟩
    · exact ⟨i, rfl, Or.inr h⟩

theorem ite_lt_eq_min {a b : IntValue} : (if a < b then a else b) = min a b := by
  rw [min_def]
  split_ifs with h1 h2 h2
  · rfl
  · exact absurd h1.le h2
  · exact le_antisymm (not_lt.mp h1) h2
  · rfl

theorem ite_gt_eq_max {a b : IntValue} : (if a > b then a else b) = max a b := by
  rw [max_comm, max_def]
  split_ifs with h1 h2 h2
  · rfl
  · exact absurd h1.le h2
  · exact le_antisymm h2 (not_lt.mp h1)
  · rfl

theorem addNonRange_isSome :
    (((insertRange i1 i2 ∅).bind (insertRange f l)).map fun table =>
      ((0, .enumerated table) : ℕ × FiniteTable C)).isSome ↔ i2.1 < maxInt ∧ l.1 < maxInt := by
  have hiff : (insertRange i1 i2 (∅ : Finset (DomainElement C))).isSome ↔ i2.1 < maxInt := insertRange_isSome
  rw [Option.isSome_map]
  cases h : (insertRange i1 i2 ∅ : Option (Finset (DomainElement C))) with
  | none =>
    rw [h] at hiff
    simpa using fun hlt => absurd (hiff.mpr hlt) Bool.false_ne_true
  | some table =>
    rw [h] at hiff
    rw [Option.bind_some, insertRange_isSome, and_iff_right (hiff.mp rfl)]

theorem intRangeAddRange_isSome :
    (intRangeAddRange nrRefs f l i1 i2 : Option (ℕ × FiniteTable C)).isSome ↔ l.1 < maxInt ∧
      (i1.1 ≤ l.1 + 1 → minInt < f.1) ∧ (¬ (i1.1 ≤ l.1 + 1 ∧ f.1 - 1 ≤ i2.1) → i2.1 < maxInt) := by
  have hf := f.2
  have hl := l.2
  rw [intRangeAddRange]
  by_cases hlast : l.1 < maxInt
  · obtain ⟨after, ha⟩ := Option.isSome_iff_exists.mp
      (checked_isSome.mpr (show minInt ≤ l.1 + 1 ∧ l.1 + 1 ≤ maxInt by omega))
    have hafter : after.1 = l.1 + 1 := checked_eq_some.mp ha
    simp only [ha, Option.bind_eq_bind, Option.bind_some, hlast, true_and]
    by_cases h1 : i1 ≤ after
    · have h1' : i1.1 ≤ l.1 + 1 := hafter ▸ h1
      rw [if_pos h1]
      simp only [h1', forall_const, true_and]
      by_cases hfirst : minInt < f.1
      · obtain ⟨before, hb⟩ := Option.isSome_iff_exists.mp
          (checked_isSome.mpr (show minInt ≤ f.1 - 1 ∧ f.1 - 1 ≤ maxInt by omega))
        have hbefore : before.1 = f.1 - 1 := checked_eq_some.mp hb
        simp only [hb, Option.bind_some, hfirst, true_and]
        by_cases h2 : before ≤ i2
        · have h2' : f.1 - 1 ≤ i2.1 := hbefore ▸ h2
          rw [if_pos h2]
          refine iff_of_true ?_ fun h => absurd h2' h
          split_ifs <;> rfl
        · have h2' : ¬ f.1 - 1 ≤ i2.1 := hbefore ▸ h2
          rw [if_neg h2, addNonRange_isSome, and_iff_left hlast]
          exact ⟨fun h _ => h, fun h => h h2'⟩
      · have hb : (checked (f.1 - 1) : Option IntValue) = none := checked_eq_none.mpr (Or.inl (by omega))
        simp [hb, hfirst]
    · have h1' : ¬ i1.1 ≤ l.1 + 1 := hafter ▸ h1
      rw [if_neg h1, addNonRange_isSome, and_iff_left hlast]
      simp [h1']
  · have ha : (checked (l.1 + 1) : Option IntValue) = none := checked_eq_none.mpr (Or.inr (by omega))
    simp [ha, hlast]

theorem addNonRange_extended {r : ℕ × FiniteTable C}
    (h : (((insertRange i1 i2 ∅).bind (insertRange f l)).map fun table =>
      ((0, .enumerated table) : ℕ × FiniteTable C)) = some r) :
    Extended (FiniteTable.intRange f l).contains (Between i1 i2) r.2 := by
  obtain ⟨table, ht, rfl⟩ := Option.map_eq_some_iff.mp h
  obtain ⟨table0, h0, ht⟩ := Option.bind_eq_some_iff.mp ht
  refine ⟨trivial, fun x => ?_⟩
  rw [contains_enumerated, mem_insertRange ht, mem_insertRange h0, contains_intRange]
  simp [Between]

theorem intRangeAddRange_extended (hw : (FiniteTable.intRange f l : FiniteTable C).WellFormed)
    (hle : i1 ≤ i2) {r : ℕ × FiniteTable C} (h : intRangeAddRange nrRefs f l i1 i2 = some r) :
    Extended (FiniteTable.intRange f l).contains (Between i1 i2) r.2 := by
  have hw : f.1 ≤ l.1 + 1 := hw
  have hle' : i1.1 ≤ i2.1 := hle
  rw [intRangeAddRange] at h
  simp only [Option.bind_eq_bind, Option.bind_eq_some_iff] at h
  obtain ⟨after, ha, h⟩ := h
  have hafter : after.1 = l.1 + 1 := checked_eq_some.mp ha
  by_cases h1 : i1 ≤ after
  · rw [if_pos h1] at h
    simp only [Option.bind_eq_some_iff] at h
    obtain ⟨before, hb, h⟩ := h
    have hbefore : before.1 = f.1 - 1 := checked_eq_some.mp hb
    have h1 : i1.1 ≤ after.1 := h1
    by_cases h2 : before ≤ i2
    · have h2' : before.1 ≤ i2.1 := h2
      rw [if_pos h2, ite_lt_eq_min, ite_gt_eq_max] at h
      have hunion : Extended (FiniteTable.intRange f l).contains (Between i1 i2)
          (.intRange (min i1 f) (max i2 l) : FiniteTable C) := by
        refine ⟨?_, fun x => ?_⟩
        · have hmin : (min i1 f).1 ≤ i1.1 := min_le_left i1 f
          have hmax : i2.1 ≤ (max i2 l).1 := le_max_left i2 l
          exact show (min i1 f).1 ≤ (max i2 l).1 + 1 by omega
        · rw [contains_intRange, contains_intRange, between_union (by omega) (by omega) hle]
      have hordered : min i1 f ≤ max i2 l := (min_le_left i1 f).trans (hle.trans (le_max_left i2 l))
      rw [min_eq_left hordered, max_eq_right hordered] at h
      split_ifs at h
      · obtain rfl := Option.some.inj h
        exact hunion
      · obtain rfl := Option.some.inj h
        exact hunion
    · rw [if_neg h2] at h
      exact addNonRange_extended h
  · rw [if_neg h1] at h
    exact addNonRange_extended h

-- no sum overflows, and no loop goes up to the largest integer
def FiniteTable.RangeAddable : FiniteTable C → IntValue → IntValue → Prop
  | .intRange first last, i1, i2 => last.1 < maxInt ∧ (i1.1 ≤ last.1 + 1 → minInt < first.1) ∧
      (¬ (i1.1 ≤ last.1 + 1 ∧ first.1 - 1 ≤ i2.1) → i2.1 < maxInt)
  | .enumerated table, i1, i2 => table = ∅ ∨ ∃ r ∈ isRange table,
      (r = none → i2.1 < maxInt) ∧ ∀ bounds ∈ r, minInt < bounds.1.1 ∧
        (bounds.1.1 - 1 ≤ i2.1 → bounds.2.1 < maxInt) ∧
        ((bounds.1.1 - 1 ≤ i1.1 ∧ i1.1 ≤ bounds.2.1 + 1) ∨
          (bounds.1.1 - 1 ≤ i2.1 ∧ i2.1 ≤ bounds.2.1 + 1) ∨ i2.1 < maxInt)

theorem inserted_isSome (hle : i1 ≤ i2) :
    ((insertRange (min i1 i2) (max i1 i2) table).map fun table =>
      ((nrRefs, .enumerated table) : ℕ × FiniteTable C)).isSome ↔ i2.1 < maxInt := by
  rw [Option.isSome_map, insertRange_isSome, max_eq_right hle]

theorem inserted_extended (hle : i1 ≤ i2) {r : ℕ × FiniteTable C}
    (h : ((insertRange (min i1 i2) (max i1 i2) table).map fun table =>
      ((nrRefs, .enumerated table) : ℕ × FiniteTable C)) = some r) :
    Extended (FiniteTable.enumerated table).contains (Between i1 i2) r.2 := by
  obtain ⟨table', ht, rfl⟩ := Option.map_eq_some_iff.mp h
  refine ⟨trivial, fun x => ?_⟩
  rw [contains_enumerated, mem_insertRange ht, contains_enumerated, min_eq_left hle, max_eq_right hle,
    or_comm, Between]

theorem enumeratedAddRange_isSome (hle : i1 ≤ i2) :
    (enumeratedAddRange nrRefs table i1 i2).isSome ↔
      (FiniteTable.enumerated table).RangeAddable i1 i2 := by
  have hle' : i1.1 ≤ i2.1 := hle
  rw [enumeratedAddRange, FiniteTable.RangeAddable]
  by_cases ht : table = ∅
  · simp [ht]
  · rw [if_neg ht, or_iff_right ht]
    cases hr : isRange table with
    | none => simp
    | some r =>
      simp only [Option.mem_def, Option.some.injEq, exists_eq_left', Option.bind_eq_bind,
        Option.bind_some]
      cases r with
      | none =>
        rw [inserted_isSome hle]
        simp
      | some bounds =>
        obtain ⟨first, last⟩ := bounds
        have hfirst := first.2
        have hlast := last.2
        have hwf : first.1 ≤ last.1 + 1 := wellFormed_of_isRange hr
        simp only [reduceCtorEq, false_implies, true_and, Option.some.injEq, forall_eq']
        by_cases hmin : minInt < first.1
        · obtain ⟨before, hb⟩ := Option.isSome_iff_exists.mp
            (checked_isSome.mpr (show minInt ≤ first.1 - 1 ∧ first.1 - 1 ≤ maxInt by omega))
          have hbefore : before.1 = first.1 - 1 := checked_eq_some.mp hb
          have hb1 : before ≤ i1 ↔ first.1 - 1 ≤ i1.1 := by rw [← hbefore, Subtype.coe_le_coe]
          have hb2 : before ≤ i2 ↔ first.1 - 1 ≤ i2.1 := by rw [← hbefore, Subtype.coe_le_coe]
          simp only [hb, Option.bind_some, hb1, hb2, hmin, true_and]
          by_cases h2 : first.1 - 1 ≤ i2.1
          · rw [if_pos (Or.inr h2)]
            simp only [h2, forall_const, true_and]
            by_cases hmax : last.1 < maxInt
            · obtain ⟨after, ha⟩ := Option.isSome_iff_exists.mp
                (checked_isSome.mpr (show minInt ≤ last.1 + 1 ∧ last.1 + 1 ≤ maxInt by omega))
              have hafter : after.1 = last.1 + 1 := checked_eq_some.mp ha
              have ha1 : i1 ≤ after ↔ i1.1 ≤ last.1 + 1 := by rw [← hafter, Subtype.coe_le_coe]
              have ha2 : i2 ≤ after ↔ i2.1 ≤ last.1 + 1 := by rw [← hafter, Subtype.coe_le_coe]
              simp only [ha, Option.bind_some, ha1, ha2, hmax, true_and]
              by_cases hnear : (first.1 - 1 ≤ i1.1 ∧ i1.1 ≤ last.1 + 1) ∨ i2.1 ≤ last.1 + 1
              · rw [if_pos hnear, intRangeAddRange_isSome]
                omega
              · rw [if_neg hnear, inserted_isSome hle]
                omega
            · have ha : (checked (last.1 + 1) : Option IntValue) = none :=
                checked_eq_none.mpr (Or.inr (by omega))
              simp [ha, hmax]
          · rw [if_neg (by omega), inserted_isSome hle]
            omega
        · have hb : (checked (first.1 - 1) : Option IntValue) = none :=
            checked_eq_none.mpr (Or.inl (by omega))
          simp [hb, hmin]

theorem enumeratedAddRange_extended (hle : i1 ≤ i2) {r : ℕ × FiniteTable C}
    (h : enumeratedAddRange nrRefs table i1 i2 = some r) :
    Extended (FiniteTable.enumerated table).contains (Between i1 i2) r.2 := by
  rw [enumeratedAddRange] at h
  by_cases ht : table = ∅
  · rw [if_pos ht, min_eq_left hle, max_eq_right hle] at h
    obtain rfl := Option.some.inj h
    have hle' : i1.1 ≤ i2.1 := hle
    refine ⟨show i1.1 ≤ i2.1 + 1 by omega, fun x => ?_⟩
    rw [contains_intRange, contains_enumerated, ht]
    simp [Between]
  · rw [if_neg ht] at h
    simp only [Option.bind_eq_bind, Option.bind_eq_some_iff] at h
    obtain ⟨bounds, hr, h⟩ := h
    cases bounds with
    | none => exact inserted_extended hle h
    | some bounds =>
      obtain ⟨first, last⟩ := bounds
      simp only [Option.bind_eq_some_iff] at h
      obtain ⟨before, -, h⟩ := h
      by_cases h1 : before ≤ i1 ∨ before ≤ i2
      · rw [if_pos h1] at h
        simp only [Option.bind_eq_some_iff] at h
        obtain ⟨after, -, h⟩ := h
        split_ifs at h
        · exact (intRangeAddRange_extended (wellFormed_of_isRange hr) hle h).congr (contains_of_isRange hr)
        · exact inserted_extended hle h
      · rw [if_neg h1] at h
        exact inserted_extended hle h

namespace FiniteTable

variable {t : FiniteTable C}

theorem addRange_isSome (hle : i1 ≤ i2) :
    (t.addRange nrRefs i1 i2).isSome ↔ t.RangeAddable i1 i2 := by
  cases t with
  | enumerated table => exact enumeratedAddRange_isSome hle
  | intRange first last => exact intRangeAddRange_isSome

theorem addRange_extended (hw : t.WellFormed) (hle : i1 ≤ i2) {r : ℕ × FiniteTable C}
    (h : t.addRange nrRefs i1 i2 = some r) : Extended t.contains (Between i1 i2) r.2 := by
  cases t with
  | enumerated table => exact enumeratedAddRange_extended hle h
  | intRange first last => exact intRangeAddRange_extended hw hle h

end FiniteTable

end AddRange

end SortTables
