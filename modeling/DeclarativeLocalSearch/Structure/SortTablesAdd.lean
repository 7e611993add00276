import DeclarativeLocalSearch.Structure.FiniteTablesRange
import DeclarativeLocalSearch.Structure.FiniteTablesRemove

set_option linter.unusedSectionVars false

namespace SortTables

open CheckedInt DomainElement

variable {C : Type} [LinearOrder C] {d x : DomainElement C} {nrRefs : ℕ}

section WellFormed

mutual

def InternalSortTable.WellFormed : InternalSortTable C → Prop
  | .finite t => t.WellFormed
  | .infinite _ => True
  | .chars => True
  | .constructed _ => True
  | .union _ intable _ _ outtable outtables =>
    intable.WellFormed ∧ outtable.WellFormed ∧ outtables.WellFormed

def OutTables.WellFormed : OutTables C → Prop
  | .nil => True
  | .cons _ t ts => t.WellFormed ∧ ts.WellFormed

end

def inTables (intable : FiniteTable C) (intables : List InfiniteTable) (x : DomainElement C) : Bool :=
  intable.contains x || intables.any (·.contains x)

def outTables (outtable : FiniteTable C) (outtables : OutTables C) (x : DomainElement C) : Bool :=
  outtable.contains x || outtables.contains x

variable {nrIn nrOut : ℕ} {intable outtable : FiniteTable C} {intables : List InfiniteTable}
  {outtables : OutTables C}

theorem contains_union :
    (InternalSortTable.union nrIn intable intables nrOut outtable outtables).contains x = true ↔
      inTables intable intables x = true ∧ ¬ outTables outtable outtables x = true := by
  rw [InternalSortTable.contains, Bool.and_eq_true, Bool.not_eq_true', Bool.not_eq_true, inTables,
    outTables]

@[simp]
theorem share_contains (extra : ℕ) : ∀ ts : OutTables C, (ts.share extra).contains x = ts.contains x
  | .nil => rfl
  | .cons _ t ts => by
    rw [OutTables.share, OutTables.contains, share_contains extra ts, OutTables.contains]

theorem share_wellFormed (extra : ℕ) :
    ∀ ts : OutTables C, (ts.share extra).WellFormed ↔ ts.WellFormed
  | .nil => Iff.rfl
  | .cons _ t ts => by
    rw [OutTables.share, OutTables.WellFormed, share_wellFormed extra ts, OutTables.WellFormed]

end WellFormed

section SortTable

variable {t : FiniteTable C}

theorem sortTableAdd_isSome :
    (t.sortTableAdd nrRefs d).isSome ↔ t.contains d = true ∨ t.Addable nrRefs d := by
  rw [FiniteTable.sortTableAdd]
  by_cases hd : t.contains d = true
  · simp [hd]
  · rw [if_neg hd, Option.isSome_map, FiniteTable.add_isSome, or_iff_right hd]

theorem sortTableAdd_extended (hw : t.WellFormed) {r : ℕ × FiniteTable C}
    (h : t.sortTableAdd nrRefs d = some r) : Extended t.contains (· = d) r.2 := by
  rw [FiniteTable.sortTableAdd] at h
  split_ifs at h with hd
  · obtain rfl := Option.some.inj h
    exact ⟨hw, fun x => ⟨Or.inr, fun hx => hx.elim (fun heq => heq ▸ hd) id⟩⟩
  · obtain ⟨r', hr', rfl⟩ := Option.map_eq_some_iff.mp h
    exact show Extended _ _ r'.2 from FiniteTable.add_extended hw hr'

theorem sortTableRemove_isSome :
    (t.sortTableRemove nrRefs d).isSome ↔ (t.contains d = true → t.Removable d) := by
  rw [FiniteTable.sortTableRemove]
  by_cases hd : t.contains d = true
  · rw [if_pos hd, Option.isSome_map, FiniteTable.remove_isSome, forall_prop_of_true hd]
  · simp [hd]

theorem sortTableRemove_reduced (hw : t.WellFormed) {r : ℕ × FiniteTable C}
    (h : t.sortTableRemove nrRefs d = some r) : Reduced t.contains d r.2 := by
  rw [FiniteTable.sortTableRemove] at h
  split_ifs at h with hd
  · obtain ⟨r', hr', rfl⟩ := Option.map_eq_some_iff.mp h
    exact show Reduced _ _ r'.2 from FiniteTable.remove_reduced hw hr'
  · obtain rfl := Option.some.inj h
    exact reduced_self hw hd

end SortTable

section Remove

-- nothing of an infinite table is left when an element of it is removed
def InternalSortTable.Removable (nrRefs : ℕ) : InternalSortTable C → DomainElement C → Prop
  | .finite t, d => t.Removable d
  | .infinite t, d => t.contains d = false
  | .chars, d => charsContains d = false
  | .constructed _, _ => False
  | .union _ _ _ nrOut outtable _, d =>
    outtable.contains d = true ∨ outtable.Addable (nrOut + shared nrRefs) d

def Removed (t : InternalSortTable C) (d : DomainElement C) (r : InternalSortTable C) : Prop :=
  r.WellFormed ∧ ∀ x, r.contains x = true ↔ x ≠ d ∧ t.contains x = true

def Removes (nrRefs : ℕ) (t : InternalSortTable C) (d : DomainElement C) : Prop :=
  ∃ r, t.remove nrRefs d = some r ∧ ∀ x, r.2.contains x = true ↔ x ≠ d ∧ t.contains x = true

variable {t : InternalSortTable C}

theorem removed_self (hw : t.WellFormed) (hd : t.contains d = false) : Removed t d t :=
  ⟨hw, fun _ => ⟨fun hx => ⟨fun heq => Bool.eq_false_iff.mp hd (heq ▸ hx), hx⟩, And.right⟩⟩

theorem exists_removed (hw : t.WellFormed) (h : t.Removable nrRefs d) :
    ∃ r, t.remove nrRefs d = some r ∧ Removed t d r.2 := by
  cases t with
  | finite t =>
    obtain ⟨r, hr⟩ := Option.isSome_iff_exists.mp (FiniteTable.remove_isSome.mpr h)
    have hr' := FiniteTable.remove_reduced hw hr
    exact ⟨_, Option.map_eq_some_iff.mpr ⟨r, hr, rfl⟩, hr'.1, hr'.2⟩
  | infinite t => exact ⟨_, if_neg (Bool.eq_false_iff.mp h), removed_self hw h⟩
  | chars => exact ⟨_, if_neg (Bool.eq_false_iff.mp h), removed_self hw h⟩
  | constructed constructors => exact h.elim
  | union nrIn intable intables nrOut outtable outtables =>
    obtain ⟨hin, hout, houts⟩ := hw
    obtain ⟨r, hr⟩ := Option.isSome_iff_exists.mp (sortTableAdd_isSome.mpr h)
    have hr' := sortTableAdd_extended hout hr
    refine ⟨_, Option.map_eq_some_iff.mpr ⟨r, hr, rfl⟩, ⟨hin, hr'.1, (share_wellFormed _ _).mpr houts⟩,
      fun x => ?_⟩
    rw [contains_union, contains_union, outTables, outTables, share_contains, Bool.or_eq_true, hr'.2 x,
      Bool.or_eq_true]
    tauto

-- removing an element of an infinite table leaves none of the others either
theorem InfiniteTable.exists_other (t : InfiniteTable) (d : DomainElement C) :
    ∃ x, x ≠ d ∧ t.contains x = true := by
  have hne : (int zeroValue : DomainElement C) ≠ int maxValue := by
    intro h
    exact absurd (congrArg Subtype.val (DomainElement.int.inj h)) (by decide)
  have hzero : t.contains (int zeroValue : DomainElement C) = true := by cases t <;> rfl
  have hmax : t.contains (int maxValue : DomainElement C) = true := by cases t <;> rfl
  by_cases h : int zeroValue = d
  · exact ⟨_, fun heq => hne (h.trans heq.symm), hmax⟩
  · exact ⟨_, h, hzero⟩

theorem removable_of_removes (h : Removes nrRefs t d) : t.Removable nrRefs d := by
  obtain ⟨r, hr, hx⟩ := h
  cases t with
  | finite t =>
    obtain ⟨r', hr', -⟩ := Option.map_eq_some_iff.mp hr
    exact FiniteTable.remove_isSome.mp (Option.isSome_iff_exists.mpr ⟨r', hr'⟩)
  | infinite t =>
    rw [InternalSortTable.remove] at hr
    split_ifs at hr with hd
    · obtain ⟨r', -, rfl⟩ := Option.map_eq_some_iff.mp hr
      obtain ⟨x, hne, hxt⟩ := t.exists_other d
      have hcontains := (contains_union.mp ((hx x).mpr ⟨hne, hxt⟩)).1
      simp [inTables, FiniteTable.contains] at hcontains
    · exact Bool.eq_false_iff.mpr hd
  | chars =>
    rw [InternalSortTable.remove] at hr
    split_ifs at hr with hd
    exact Bool.eq_false_iff.mpr hd
  | constructed constructors => cases hr
  | union nrIn intable intables nrOut outtable outtables =>
    obtain ⟨r', hr', -⟩ := Option.map_eq_some_iff.mp hr
    exact sortTableAdd_isSome.mp (Option.isSome_iff_exists.mpr ⟨r', hr'⟩)

theorem removes_iff (hw : t.WellFormed) : Removes nrRefs t d ↔ t.Removable nrRefs d := by
  refine ⟨removable_of_removes, fun h => ?_⟩
  obtain ⟨r, hr, -, hx⟩ := exists_removed hw h
  exact ⟨r, hr, hx⟩

def OutTables.Removable (extra : ℕ) : OutTables C → DomainElement C → Prop
  | .nil, _ => True
  | .cons nrRefs t ts, d => (t.contains d = true → t.Removable (nrRefs + extra) d) ∧ ts.Removable extra d

theorem outTables_remove {ts : OutTables C} (hw : ts.WellFormed) {extra : ℕ}
    (h : ts.Removable extra d) : ∃ ts', (ts.share extra).remove d = some ts' ∧ ts'.WellFormed ∧
      ∀ x, ts'.contains x = true ↔ x ≠ d ∧ ts.contains x = true := by
  match ts with
  | .nil => exact ⟨.nil, rfl, trivial, by simp [OutTables.contains]⟩
  | .cons nrRefs t ts =>
    obtain ⟨ts', hts', hw', hx'⟩ := outTables_remove hw.2 h.2
    by_cases hd : t.contains d = true
    · obtain ⟨r, hr, hwr, hxr⟩ := exists_removed hw.1 (h.1 hd)
      refine ⟨.cons (keep r).1 r.2 ts', ?_, ⟨hwr, hw'⟩, fun x => ?_⟩
      · rw [OutTables.share, OutTables.remove, if_pos hd, hr, hts']
        rfl
      · rw [OutTables.contains, OutTables.contains, Bool.or_eq_true, Bool.or_eq_true, hxr, hx', and_or_left]
    · refine ⟨.cons (nrRefs + extra) t ts', ?_, ⟨hw.1, hw'⟩, fun x => ?_⟩
      · rw [OutTables.share, OutTables.remove, if_neg hd, hts']
        rfl
      · rw [OutTables.contains, OutTables.contains, Bool.or_eq_true, Bool.or_eq_true, hx', and_or_left]
        refine or_congr_left ⟨fun hx => ⟨fun heq => hd (heq ▸ hx), hx⟩, And.right⟩

end Remove

section Add

variable {nrIn nrOut : ℕ} {intable outtable : FiniteTable C} {intables : List InfiniteTable}
  {outtables : OutTables C} {t : InternalSortTable C}

-- an element that is in no in-table is put in the first, without looking at the out-tables
def UnionAddable (nrRefs nrIn : ℕ) (intable : FiniteTable C) (intables : List InfiniteTable)
    (outtable : FiniteTable C) (outtables : OutTables C) (d : DomainElement C) : Prop :=
  if outTables outtable outtables d = true then
    inTables intable intables d = true ∧ (outtable.contains d = true → outtable.Removable d) ∧
      outtables.Removable (shared nrRefs) d
  else inTables intable intables d = true ∨ intable.Addable (nrIn + shared nrRefs) d

def InternalSortTable.Addable (nrRefs : ℕ) : InternalSortTable C → DomainElement C → Prop
  | .finite t, d => t.Addable nrRefs d
  | .infinite _, _ => True
  | .chars, d => charsContains d = true
  | .constructed _, _ => False
  | .union nrIn intable intables _ outtable outtables, d =>
    UnionAddable nrRefs nrIn intable intables outtable outtables d

def Added (t : InternalSortTable C) (added : DomainElement C → Prop) (r : InternalSortTable C) : Prop :=
  r.WellFormed ∧ ∀ x, r.contains x = true ↔ added x ∨ t.contains x = true

def Adds (nrRefs : ℕ) (t : InternalSortTable C) (d : DomainElement C) : Prop :=
  ∃ r, t.add nrRefs d = some r ∧ ∀ x, r.2.contains x = true ↔ x = d ∨ t.contains x = true

theorem added_self (hw : t.WellFormed) (hd : t.contains d = true) : Added t (· = d) t :=
  ⟨hw, fun _ => ⟨Or.inr, fun hx => hx.elim (fun heq => heq ▸ hd) id⟩⟩

theorem unionAdd_of_contains
    (hd : (InternalSortTable.union nrIn intable intables nrOut outtable outtables).contains d = true) :
    unionAdd nrRefs nrIn intable intables nrOut outtable outtables d =
      some (nrRefs, .union nrIn intable intables nrOut outtable outtables) := by
  rw [unionAdd]
  exact if_pos hd

theorem unionAdd_of_in (hin : inTables intable intables d = true)
    (hout : outTables outtable outtables d = true) :
    unionAdd nrRefs nrIn intable intables nrOut outtable outtables d =
      (outtable.sortTableRemove (nrOut + shared nrRefs) d).bind fun r =>
        ((outtables.share (shared nrRefs)).remove d).map fun ts =>
          (refsAfter nrRefs, .union (nrIn + shared nrRefs) intable intables r.1 r.2 ts) := by
  have hd : ¬ (InternalSortTable.union nrIn intable intables nrOut outtable outtables).contains d = true :=
    fun h => (contains_union.mp h).2 hout
  have hin : (intable.contains d || intables.any (·.contains d)) = true := hin
  rw [unionAdd]
  simp only [if_neg hd, if_pos hin, Option.map_eq_bind]
  rfl

theorem unionAdd_of_not_in (hin : ¬ inTables intable intables d = true) :
    unionAdd nrRefs nrIn intable intables nrOut outtable outtables d =
      (intable.sortTableAdd (nrIn + shared nrRefs) d).map fun r =>
        (refsAfter nrRefs, .union r.1 r.2 intables (nrOut + shared nrRefs) outtable
          (outtables.share (shared nrRefs))) := by
  have hd : ¬ (InternalSortTable.union nrIn intable intables nrOut outtable outtables).contains d = true :=
    fun h => hin (contains_union.mp h).1
  have hin : ¬ (intable.contains d || intables.any (·.contains d)) = true := hin
  rw [unionAdd]
  simp only [if_neg hd, if_neg hin]

-- what adding does to the in-tables and to the out-tables of a union
def UnionAdded (intable : FiniteTable C) (intables : List InfiniteTable) (outtable : FiniteTable C)
    (outtables : OutTables C) (d : DomainElement C) (r : InternalSortTable C) : Prop :=
  ∃ nrIn intable' nrOut outtable' outtables', r = .union nrIn intable' intables nrOut outtable' outtables' ∧
    r.WellFormed ∧
    (∀ x, inTables intable' intables x = true ↔ x = d ∨ inTables intable intables x = true) ∧
    ∀ x, outTables outtable' outtables' x = true ↔ x ≠ d ∧ outTables outtable outtables x = true

theorem UnionAdded.added (nrIn nrOut : ℕ) {r : InternalSortTable C}
    (h : UnionAdded intable intables outtable outtables d r) :
    Added (.union nrIn intable intables nrOut outtable outtables) (· = d) r := by
  obtain ⟨nrIn', intable', nrOut', outtable', outtables', rfl, hw, hin, hout⟩ := h
  refine ⟨hw, fun x => ?_⟩
  rw [contains_union, contains_union, hin, hout]
  tauto

theorem unionAdd_spec
    (hw : (InternalSortTable.union nrIn intable intables nrOut outtable outtables).WellFormed)
    (h : UnionAddable nrRefs nrIn intable intables outtable outtables d) :
    ∃ r, unionAdd nrRefs nrIn intable intables nrOut outtable outtables d = some r ∧
      UnionAdded intable intables outtable outtables d r.2 := by
  obtain ⟨hwin, hwout, hwouts⟩ := hw
  rw [UnionAddable] at h
  split_ifs at h with hout
  · obtain ⟨hin, hremove, hremoves⟩ := h
    have hsome : (outtable.sortTableRemove (nrOut + shared nrRefs) d).isSome :=
      sortTableRemove_isSome.mpr hremove
    obtain ⟨r, hr⟩ := Option.isSome_iff_exists.mp hsome
    obtain ⟨ts, hts, hwts, hxts⟩ := outTables_remove hwouts hremoves
    have hr' := sortTableRemove_reduced hwout hr
    have heq : unionAdd nrRefs nrIn intable intables nrOut outtable outtables d = _ :=
      unionAdd_of_in hin hout
    rw [hr, Option.bind_some, hts, Option.map_some] at heq
    refine ⟨_, heq, _, _, _, _, _, rfl, ⟨hwin, hr'.1, hwts⟩, fun x => ?_, fun x => ?_⟩
    · exact ⟨Or.inr, fun hx => hx.elim (fun heq => heq ▸ hin) id⟩
    · rw [outTables, outTables, Bool.or_eq_true, Bool.or_eq_true, hr'.2 x, hxts x, and_or_left]
  · have hnot : ∀ x, outTables outtable outtables x = true ↔ x ≠ d ∧ outTables outtable outtables x = true :=
      fun x => ⟨fun hx => ⟨fun heq => hout (heq ▸ hx), hx⟩, And.right⟩
    by_cases hin : inTables intable intables d = true
    · refine ⟨_, unionAdd_of_contains (contains_union.mpr ⟨hin, hout⟩), _, _, _, _, _, rfl,
        ⟨hwin, hwout, hwouts⟩, fun x => ?_, hnot⟩
      exact ⟨Or.inr, fun hx => hx.elim (fun heq => heq ▸ hin) id⟩
    · obtain ⟨r, hr⟩ := Option.isSome_iff_exists.mp
        (sortTableAdd_isSome.mpr (Or.inr (h.resolve_left hin)))
      have hr' := sortTableAdd_extended hwin hr
      have heq : unionAdd nrRefs nrIn intable intables nrOut outtable outtables d = _ :=
        unionAdd_of_not_in hin
      rw [hr, Option.map_some] at heq
      refine ⟨_, heq, _, _, _, _, _, rfl, ⟨hr'.1, hwout, (share_wellFormed _ _).mpr hwouts⟩,
        fun x => ?_, fun x => ?_⟩
      · rw [inTables, inTables, Bool.or_eq_true, Bool.or_eq_true, hr'.2 x, or_assoc]
      · rw [← hnot, outTables, outTables, share_contains]

theorem unionAddable_of_infinite {t : InfiniteTable} (hd : ¬ t.contains d = true) :
    UnionAddable 0 1 (.enumerated ∅) [t] (.enumerated ∅) .nil d := by
  rw [UnionAddable, if_neg (by simp [outTables, FiniteTable.contains, OutTables.contains])]
  refine Or.inr (Or.inr ?_)
  cases d with
  | int n => exact Or.inl rfl
  | double x => trivial
  | string s => trivial
  | compound c => trivial

theorem infinite_union_wellFormed {t : InfiniteTable} :
    (InternalSortTable.union 1 (.enumerated ∅) [t] 1 (.enumerated ∅) .nil : InternalSortTable C).WellFormed :=
  ⟨trivial, trivial, trivial⟩

theorem contains_infinite_union {t : InfiniteTable} (x : DomainElement C) :
    (InternalSortTable.union 1 (.enumerated ∅) [t] 1 (.enumerated ∅) .nil).contains x = true ↔
      t.contains x = true := by
  rw [contains_union]
  simp [inTables, outTables, FiniteTable.contains, OutTables.contains]

theorem exists_added (hw : t.WellFormed) (h : t.Addable nrRefs d) :
    ∃ r, t.add nrRefs d = some r ∧ Added t (· = d) r.2 := by
  cases t with
  | finite t =>
    obtain ⟨r, hr⟩ := Option.isSome_iff_exists.mp (FiniteTable.add_isSome.mpr h)
    have hr' := FiniteTable.add_extended hw hr
    exact ⟨_, Option.map_eq_some_iff.mpr ⟨r, hr, rfl⟩, hr'.1, hr'.2⟩
  | infinite t =>
    by_cases hd : t.contains d = true
    · exact ⟨_, if_pos hd, added_self hw hd⟩
    · obtain ⟨r, hr, hadded⟩ := unionAdd_spec infinite_union_wellFormed (unionAddable_of_infinite hd)
      obtain ⟨hwr, hx⟩ := hadded.added 1 1
      refine ⟨r, by rw [InternalSortTable.add, if_neg hd, hr], hwr, fun x => ?_⟩
      rw [hx, contains_infinite_union, InternalSortTable.contains]
  | chars => exact ⟨_, if_pos h, added_self hw h⟩
  | constructed constructors => exact h.elim
  | union nrIn intable intables nrOut outtable outtables =>
    obtain ⟨r, hr, hadded⟩ := unionAdd_spec hw h
    exact ⟨r, hr, hadded.added nrIn nrOut⟩

theorem adds_of_addable (hw : t.WellFormed) (h : t.Addable nrRefs d) : Adds nrRefs t d := by
  obtain ⟨r, hr, -, hx⟩ := exists_added hw h
  exact ⟨r, hr, hx⟩

-- the out-tables to which a removal from an infinite table has not been delegated
def OutTables.Finite : OutTables C → Prop
  | .nil => True
  | .cons _ (.infinite _) _ => False
  | .cons _ _ ts => ts.Finite

def InternalSortTable.FiniteOuts : InternalSortTable C → Prop
  | .union _ _ _ _ _ outtables => outtables.Finite
  | _ => True

theorem remove_isSome (ht : ∀ t', t ≠ .infinite t') (h : (t.remove nrRefs d).isSome) :
    t.Removable nrRefs d := by
  cases t with
  | finite t => exact FiniteTable.remove_isSome.mp (by rwa [InternalSortTable.remove, Option.isSome_map] at h)
  | infinite t => exact absurd rfl (ht t)
  | chars =>
    rw [InternalSortTable.remove] at h
    split_ifs at h with hd
    · cases h
    · exact Bool.eq_false_iff.mpr hd
  | constructed constructors => cases h
  | union nrIn intable intables nrOut outtable outtables =>
    exact sortTableAdd_isSome.mp (by rwa [InternalSortTable.remove, Option.isSome_map] at h)

theorem outTables_removable {ts : OutTables C} {extra : ℕ} (hf : ts.Finite)
    (h : ((ts.share extra).remove d).isSome) : ts.Removable extra d := by
  match ts with
  | .nil => trivial
  | .cons nrRefs t ts =>
    have ht : (∀ t', t ≠ .infinite t') ∧ ts.Finite := by
      cases t with
      | infinite t => exact hf.elim
      | finite t => exact ⟨nofun, hf⟩
      | chars => exact ⟨nofun, hf⟩
      | constructed constructors => exact ⟨nofun, hf⟩
      | union nrIn intable intables nrOut outtable outtables => exact ⟨nofun, hf⟩
    obtain ⟨r, hr⟩ := Option.isSome_iff_exists.mp h
    rw [OutTables.share, OutTables.remove] at hr
    by_cases hd : t.contains d = true
    · rw [if_pos hd, Option.bind_eq_bind, Option.bind_eq_some_iff] at hr
      obtain ⟨r1, hr1, hr⟩ := hr
      obtain ⟨r2, hr2, -⟩ := Option.bind_eq_some_iff.mp hr
      obtain ⟨r3, hr3, -⟩ := Option.map_eq_some_iff.mp hr1
      exact ⟨fun _ => remove_isSome ht.1 (by rw [hr3]; rfl), outTables_removable ht.2 (by rw [hr2]; rfl)⟩
    · rw [if_neg hd, Option.bind_eq_bind, Option.bind_some] at hr
      obtain ⟨r2, hr2, -⟩ := Option.bind_eq_some_iff.mp hr
      exact ⟨fun h => absurd h hd, outTables_removable ht.2 (by rw [hr2]; rfl)⟩

theorem addable_of_adds (hf : t.FiniteOuts) (h : Adds nrRefs t d) : t.Addable nrRefs d := by
  obtain ⟨r, hr, hx⟩ := h
  cases t with
  | finite t =>
    obtain ⟨r', hr', -⟩ := Option.map_eq_some_iff.mp hr
    exact FiniteTable.add_isSome.mp (Option.isSome_iff_exists.mpr ⟨r', hr'⟩)
  | infinite t => trivial
  | chars =>
    rw [InternalSortTable.add] at hr
    split_ifs at hr with hd
    exact hd
  | constructed constructors => cases hr
  | union nrIn intable intables nrOut outtable outtables =>
    have hr : unionAdd nrRefs nrIn intable intables nrOut outtable outtables d = some r := hr
    rw [InternalSortTable.Addable, UnionAddable]
    by_cases hin : inTables intable intables d = true
    · split_ifs with hout
      · rw [unionAdd_of_in hin hout, Option.bind_eq_some_iff] at hr
        obtain ⟨r1, hr1, hr⟩ := hr
        obtain ⟨ts, hts, -⟩ := Option.map_eq_some_iff.mp hr
        exact ⟨hin, sortTableRemove_isSome.mp (by rw [hr1]; rfl),
          outTables_removable hf (by rw [hts]; rfl)⟩
      · exact Or.inl hin
    · rw [unionAdd_of_not_in hin] at hr
      obtain ⟨r1, hr1, rfl⟩ := Option.map_eq_some_iff.mp hr
      have hnot := (contains_union.mp ((hx d).mpr (Or.inl rfl))).2
      rw [outTables, share_contains, ← outTables] at hnot
      rw [if_neg hnot]
      refine Or.inr ((sortTableAdd_isSome.mp (by rw [hr1]; rfl)).resolve_left fun hd => hin ?_)
      rw [inTables, hd, Bool.true_or]

end Add

end SortTables
