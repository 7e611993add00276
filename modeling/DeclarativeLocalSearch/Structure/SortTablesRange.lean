import DeclarativeLocalSearch.Structure.SortTablesAdd

namespace SortTables

open CheckedInt DomainElement

variable {C : Type} [LinearOrder C] {nrRefs : ℕ} {i1 i2 lo hi n : IntValue}

-- integers between which no sum or difference overflows
structure Window (lo hi : IntValue) : Prop where
  above : minInt < lo.1
  below : hi.1 < maxInt
  width : hi.1 - lo.1 < maxInt

section Within

def FiniteTable.Within (lo hi : IntValue) (t : FiniteTable C) : Prop :=
  (∀ i, t.contains (int i) = true → lo ≤ i ∧ i ≤ hi) ∧
    ∀ first last, t = .intRange first last → lo ≤ first ∧ last ≤ hi

variable {t : FiniteTable C}

theorem FiniteTable.Within.addable (h : t.Within lo hi) (hwin : Window lo hi) (hlo : lo ≤ n) (hhi : n ≤ hi) :
    t.Addable nrRefs (int n) := by
  have hlo' : lo.1 ≤ n.1 := hlo
  have hhi' : n.1 ≤ hi.1 := hhi
  have habove := hwin.above
  have hbelow := hwin.below
  have hwidth := hwin.width
  cases t with
  | enumerated table =>
    refine Or.inr (Or.inr ?_)
    have hbounds : ∀ bounds, isRange table = some (some bounds) →
        minInt < bounds.1.1 ∧ (bounds.1.1 ≤ n.1 + 1 → bounds.2.1 < maxInt) := by
      intro bounds hr
      obtain ⟨first, last⟩ := bounds
      have hne := wellFormed_of_isRange hr
      have hmem := fun x => mem_of_isRange (x := x) hr
      have hle : first ≤ last := by
        have htable : table.Nonempty := by
          by_contra hn
          rw [isRange, dif_neg hn] at hr
          cases hr
        obtain ⟨x, hx⟩ := htable
        obtain ⟨i, -, h1, h2⟩ := (hmem x).mp hx
        exact h1.trans h2
      have hfirst : lo.1 ≤ first.1 :=
        (h.1 first (contains_enumerated.mpr ((hmem _).mpr ⟨first, rfl, le_rfl, hle⟩))).1
      have hlast : last.1 ≤ hi.1 :=
        (h.1 last (contains_enumerated.mpr ((hmem _).mpr ⟨last, rfl, hle, le_rfl⟩))).2
      exact ⟨habove.trans_le hfirst, fun _ => hlast.trans_lt hbelow⟩
    have hsome : (isRange table).isSome := by
      by_cases hints : Ints table
      · refine isRange_isSome (Finset.Icc lo hi) (fun d hd => ?_) ?_ ?_
        · obtain ⟨i, rfl⟩ := hints d hd
          exact Finset.mem_map.mpr ⟨i, Finset.mem_Icc.mpr (h.1 i (contains_enumerated.mpr hd)), rfl⟩
        · rw [card_Icc]
          omega
        · intro i hi' j hj
          have h1 : lo.1 ≤ i.1 := (Finset.mem_Icc.mp hi').1
          have h2 : j.1 ≤ hi.1 := (Finset.mem_Icc.mp hj).2
          omega
      · rw [isRange_of_not_ints hints]
        rfl
    obtain ⟨r, hr⟩ := Option.isSome_iff_exists.mp hsome
    exact ⟨r, hr, fun bounds hb => hbounds bounds (by rw [hr, Option.mem_def.mp hb])⟩
  | intRange first last =>
    obtain ⟨h1, h2⟩ := h.2 first last rfl
    have h1 : lo.1 ≤ first.1 := h1
    have h2 : last.1 ≤ hi.1 := h2
    exact Or.inr ⟨by omega, Or.inl (by omega)⟩

theorem FiniteTable.Within.removable (h : t.Within lo hi) (hwin : Window lo hi) : t.Removable (int n) := by
  have habove := hwin.above
  have hbelow := hwin.below
  have hwidth := hwin.width
  cases t with
  | enumerated table => trivial
  | intRange first last =>
    obtain ⟨h1, h2⟩ := h.2 first last rfl
    have h1 : lo.1 ≤ first.1 := h1
    have h2 : last.1 ≤ hi.1 := h2
    intro hf hl
    have hf : first.1 ≤ n.1 := hf
    have hl : n.1 ≤ last.1 := hl
    exact ⟨fun _ => by omega, fun _ _ => ⟨by omega, by omega, fun _ => by omega⟩⟩

theorem Extended.within {t' : FiniteTable C} (ht : Extended t.contains (· = int n) t') (h : t.Within lo hi)
    (hlo : lo ≤ n) (hhi : n ≤ hi) : t'.Within lo hi := by
  have hall : ∀ i, t'.contains (int i) = true → lo ≤ i ∧ i ≤ hi := by
    intro i hi'
    rcases (ht.2 _).mp hi' with heq | hmem
    · exact DomainElement.int.inj heq ▸ ⟨hlo, hhi⟩
    · exact h.1 i hmem
  refine ⟨hall, ?_⟩
  rintro first last rfl
  obtain ⟨i, -, h1, h2⟩ := contains_intRange.mp ((ht.2 (int n)).mpr (Or.inl rfl))
  have hle := h1.trans h2
  exact ⟨(hall first (contains_intRange.mpr ⟨first, rfl, le_rfl, hle⟩)).1,
    (hall last (contains_intRange.mpr ⟨last, rfl, hle, le_rfl⟩)).2⟩

theorem intRangeRemove_within {f l : IntValue} {r : ℕ × FiniteTable C} (hf : lo ≤ f) (hl : l ≤ hi)
    (h : intRangeRemove nrRefs f l (int n) = some r) {first last : IntValue}
    (hr : r.2 = .intRange first last) : lo ≤ first ∧ last ≤ hi := by
  have hf' : lo.1 ≤ f.1 := hf
  have hl' : l.1 ≤ hi.1 := hl
  rw [intRangeRemove] at h
  by_cases hin : f ≤ n ∧ n ≤ l
  · have h1 : f.1 ≤ n.1 := hin.1
    have h2 : n.1 ≤ l.1 := hin.2
    rw [if_pos hin] at h
    by_cases hnf : n = f
    · rw [if_pos hnf] at h
      obtain ⟨next, hnext, rfl⟩ := Option.map_eq_some_iff.mp h
      have hnext : next.1 = f.1 + 1 := checked_eq_some.mp hnext
      obtain ⟨rfl, rfl⟩ := FiniteTable.intRange.inj hr
      exact ⟨show lo.1 ≤ next.1 by omega, hl⟩
    · rw [if_neg hnf] at h
      by_cases hnl : n = l
      · rw [if_pos hnl] at h
        obtain ⟨previous, hp, rfl⟩ := Option.map_eq_some_iff.mp h
        have hp : previous.1 = l.1 - 1 := checked_eq_some.mp hp
        obtain ⟨rfl, rfl⟩ := FiniteTable.intRange.inj hr
        exact ⟨hf, show previous.1 ≤ hi.1 by omega⟩
      · have hlt : f.1 < n.1 := lt_of_le_of_ne h1 fun h => hnf (Subtype.ext h.symm)
        have hlt' : n.1 < l.1 := lt_of_le_of_ne h2 fun h => hnl (Subtype.ext h)
        rw [if_neg hnl] at h
        have hcopied := copied_of_copy hlt hlt' h
        generalize l.1 + 1 = stop at hcopied
        cases hcopied with
        | start _ => cases hr
        | @range m _ _ hm =>
          obtain ⟨rfl, rfl⟩ := FiniteTable.intRange.inj hr
          exact ⟨hf, show m.1 ≤ hi.1 by omega⟩
        | split _ _ => cases hr
  · rw [if_neg hin] at h
    obtain rfl := Option.some.inj h
    obtain ⟨rfl, rfl⟩ := FiniteTable.intRange.inj hr
    exact ⟨hf, hl⟩

theorem sortTableAdd_within {r : ℕ × FiniteTable C} (hw : t.WellFormed) (h : t.Within lo hi) (hlo : lo ≤ n)
    (hhi : n ≤ hi) (hr : t.sortTableAdd nrRefs (int n) = some r) : r.2.Within lo hi :=
  (sortTableAdd_extended hw hr).within h hlo hhi

theorem FiniteTable.remove_within {r : ℕ × FiniteTable C} (hw : t.WellFormed) (h : t.Within lo hi)
    (hr : t.remove nrRefs (int n) = some r) : r.2.Within lo hi := by
  have hreduced := FiniteTable.remove_reduced hw hr
  refine ⟨fun i hi' => h.1 i ((hreduced.2 _).mp hi').2, fun first last heq => ?_⟩
  cases t with
  | enumerated table =>
    obtain rfl := Option.some.inj hr
    split_ifs at heq
  | intRange f l =>
    obtain ⟨hf, hl⟩ := h.2 f l rfl
    exact intRangeRemove_within hf hl hr heq

theorem sortTableRemove_within {r : ℕ × FiniteTable C} (hw : t.WellFormed) (h : t.Within lo hi)
    (hr : t.sortTableRemove nrRefs (int n) = some r) : r.2.Within lo hi := by
  rw [FiniteTable.sortTableRemove] at hr
  split_ifs at hr
  · obtain ⟨r', hr', rfl⟩ := Option.map_eq_some_iff.mp hr
    exact show r'.2.Within lo hi from FiniteTable.remove_within hw h hr'
  · obtain rfl := Option.some.inj hr
    exact h

end Within

section Union

-- the out-tables from which the integers between i1 and i2 can be removed
def OutTables.Safe (lo hi i1 i2 : IntValue) : OutTables C → Prop
  | .nil => True
  | .cons _ (.finite t) ts => t.Within lo hi ∧ ts.Safe lo hi i1 i2
  | .cons _ (.union _ _ _ _ outtable _) ts => outtable.Within lo hi ∧ ts.Safe lo hi i1 i2
  | .cons _ t ts => (∀ i, i1 ≤ i → i ≤ i2 → t.contains (int i) = false) ∧ ts.Safe lo hi i1 i2

theorem OutTables.Safe.removable (hwin : Window lo hi) (hlo : lo ≤ i1) (hhi : i2 ≤ hi) (h1 : i1 ≤ n)
    (h2 : n ≤ i2) {extra : ℕ} : ∀ {ts : OutTables C}, ts.Safe lo hi i1 i2 → ts.Removable extra (int n)
  | .nil, _ => trivial
  | .cons _ (.finite _) _, h => ⟨fun _ => h.1.removable hwin, removable hwin hlo hhi h1 h2 h.2⟩
  | .cons _ (.union _ _ _ _ _ _) _, h =>
    ⟨fun _ => Or.inr (h.1.addable hwin (hlo.trans h1) (h2.trans hhi)), removable hwin hlo hhi h1 h2 h.2⟩
  | .cons _ (.infinite _) _, h =>
    ⟨fun hc => absurd hc (Bool.eq_false_iff.mp (h.1 n h1 h2)), removable hwin hlo hhi h1 h2 h.2⟩
  | .cons _ .chars _, h =>
    ⟨fun hc => absurd hc (Bool.eq_false_iff.mp (h.1 n h1 h2)), removable hwin hlo hhi h1 h2 h.2⟩
  | .cons _ (.constructed _) _, h =>
    ⟨fun hc => absurd hc (Bool.eq_false_iff.mp (h.1 n h1 h2)), removable hwin hlo hhi h1 h2 h.2⟩

theorem OutTables.Safe.share (extra : ℕ) :
    ∀ {ts : OutTables C}, ts.Safe lo hi i1 i2 → (ts.share extra).Safe lo hi i1 i2
  | .nil, _ => trivial
  | .cons _ (.finite _) _, h => ⟨h.1, h.2.share extra⟩
  | .cons _ (.union _ _ _ _ _ _) _, h => ⟨h.1, h.2.share extra⟩
  | .cons _ (.infinite _) _, h => ⟨h.1, h.2.share extra⟩
  | .cons _ .chars _, h => ⟨h.1, h.2.share extra⟩
  | .cons _ (.constructed _) _, h => ⟨h.1, h.2.share extra⟩

theorem remove_cons {t : InternalSortTable C} {ts ts' : OutTables C} {d : DomainElement C}
    (hr : (OutTables.cons nrRefs t ts).remove d = some ts') :
    ∃ r, (if t.contains d = true then (t.remove nrRefs d).map keep else some (nrRefs, t)) = some r ∧
      ∃ us, ts.remove d = some us ∧ ts' = .cons r.1 r.2 us := by
  rw [OutTables.remove] at hr
  by_cases hd : t.contains d = true
  · rw [if_pos hd] at hr ⊢
    obtain ⟨r, hr1, hr⟩ := Option.bind_eq_some_iff.mp hr
    obtain ⟨us, hus, hr⟩ := Option.bind_eq_some_iff.mp hr
    exact ⟨r, hr1, us, hus, (Option.some.inj hr).symm⟩
  · rw [if_neg hd] at hr ⊢
    obtain ⟨r, hr1, hr⟩ := Option.bind_eq_some_iff.mp hr
    obtain ⟨us, hus, hr⟩ := Option.bind_eq_some_iff.mp hr
    exact ⟨r, hr1, us, hus, (Option.some.inj hr).symm⟩

theorem OutTables.Safe.remove (hlo : lo ≤ i1) (hhi : i2 ≤ hi) (h1 : i1 ≤ n) (h2 : n ≤ i2) :
    ∀ {ts ts' : OutTables C}, ts.WellFormed → ts.Safe lo hi i1 i2 → ts.remove (int n) = some ts' →
      ts'.Safe lo hi i1 i2
  | .nil, ts', _, _, hr => by
    obtain rfl := Option.some.inj hr
    trivial
  | .cons nrRefs t ts, ts', hw, h, hremove => by
    obtain ⟨r, hr, us, hus, rfl⟩ := remove_cons hremove
    have rest : ts.Safe lo hi i1 i2 → us.Safe lo hi i1 i2 := fun h => remove hlo hhi h1 h2 hw.2 h hus
    cases t with
    | finite t =>
      split_ifs at hr
      · obtain ⟨r1, hr1, rfl⟩ := Option.map_eq_some_iff.mp hr
        obtain ⟨r2, hr2, rfl⟩ := Option.map_eq_some_iff.mp hr1
        exact ⟨FiniteTable.remove_within hw.1 h.1 hr2, rest h.2⟩
      · obtain rfl := Option.some.inj hr
        exact ⟨h.1, rest h.2⟩
    | union nrIn intable intables nrOut outtable outtables =>
      split_ifs at hr
      · obtain ⟨r1, hr1, rfl⟩ := Option.map_eq_some_iff.mp hr
        obtain ⟨r2, hr2, rfl⟩ := Option.map_eq_some_iff.mp hr1
        exact ⟨sortTableAdd_within hw.1.2.1 h.1 (hlo.trans h1) (h2.trans hhi) hr2, rest h.2⟩
      · obtain rfl := Option.some.inj hr
        exact ⟨h.1, rest h.2⟩
    | infinite t =>
      rw [if_neg (Bool.eq_false_iff.mp (h.1 n h1 h2))] at hr
      obtain rfl := Option.some.inj hr
      exact ⟨h.1, rest h.2⟩
    | chars =>
      rw [if_neg (Bool.eq_false_iff.mp (h.1 n h1 h2))] at hr
      obtain rfl := Option.some.inj hr
      exact ⟨h.1, rest h.2⟩
    | constructed constructors =>
      rw [if_neg (Bool.eq_false_iff.mp (h.1 n h1 h2))] at hr
      obtain rfl := Option.some.inj hr
      exact ⟨h.1, rest h.2⟩

-- the unions to which the integers between i1 and i2 can be added
def InternalSortTable.Safe (lo hi i1 i2 : IntValue) : InternalSortTable C → Prop
  | .union _ intable intables _ outtable outtables =>
    intable.Within lo hi ∧ outtable.Within lo hi ∧ outtables.Safe lo hi i1 i2 ∧
      ∀ i, i1 ≤ i → i ≤ i2 → outTables outtable outtables (int i) = true →
        inTables intable intables (int i) = true
  | _ => False

variable {t : InternalSortTable C}

theorem InternalSortTable.Safe.addable (hwin : Window lo hi) (hlo : lo ≤ i1) (hhi : i2 ≤ hi) (h1 : i1 ≤ n)
    (h2 : n ≤ i2) (h : t.Safe lo hi i1 i2) : t.Addable nrRefs (int n) := by
  cases t with
  | union nrIn intable intables nrOut outtable outtables =>
    obtain ⟨hin, hout, houts, hclash⟩ := h
    rw [InternalSortTable.Addable, UnionAddable]
    split_ifs with hd
    · exact ⟨hclash n h1 h2 hd, fun _ => hout.removable hwin, houts.removable hwin hlo hhi h1 h2⟩
    · exact Or.inr (hin.addable hwin (hlo.trans h1) (h2.trans hhi))
  | _ => exact h.elim

theorem InternalSortTable.Safe.add (hwin : Window lo hi) (hlo : lo ≤ i1) (hhi : i2 ≤ hi) (h1 : i1 ≤ n)
    (h2 : n ≤ i2) (hw : t.WellFormed) (h : t.Safe lo hi i1 i2) {r : ℕ × InternalSortTable C}
    (hr : t.add nrRefs (int n) = some r) : r.2.Safe lo hi i1 i2 := by
  cases t with
  | union nrIn intable intables nrOut outtable outtables =>
    have hr : unionAdd nrRefs nrIn intable intables nrOut outtable outtables (int n) = some r := hr
    obtain ⟨hwi, hwout, hwouts⟩ := hw
    obtain ⟨hin, hout, houts, hclash⟩ := h
    by_cases hind : inTables intable intables (int n) = true
    · by_cases houtd : outTables outtable outtables (int n) = true
      · rw [unionAdd_of_in hind houtd] at hr
        obtain ⟨r1, hr1, hr⟩ := Option.bind_eq_some_iff.mp hr
        obtain ⟨us, hus, rfl⟩ := Option.map_eq_some_iff.mp hr
        refine ⟨hin, sortTableRemove_within hwout hout hr1,
          OutTables.Safe.remove hlo hhi h1 h2 ((share_wellFormed _ _).mpr hwouts) (houts.share _) hus,
          fun i hi1 hi2 hi => hclash i hi1 hi2 ?_⟩
        obtain ⟨us', hus', -, hx⟩ := outTables_remove hwouts
          (houts.removable hwin hlo hhi h1 h2 : outtables.Removable (shared nrRefs) (int n))
        obtain rfl := Option.some.inj (hus.symm.trans hus')
        rw [outTables, Bool.or_eq_true] at hi ⊢
        exact hi.imp (fun hi => (((sortTableRemove_reduced hwout hr1).2 _).mp hi).2)
          fun hi => ((hx _).mp hi).2
      · rw [unionAdd_of_contains (contains_union.mpr ⟨hind, houtd⟩)] at hr
        obtain rfl := Option.some.inj hr
        exact ⟨hin, hout, houts, hclash⟩
    · rw [unionAdd_of_not_in hind] at hr
      obtain ⟨r1, hr1, rfl⟩ := Option.map_eq_some_iff.mp hr
      refine ⟨sortTableAdd_within hwi hin (hlo.trans h1) (h2.trans hhi) hr1, hout, houts.share _,
        fun i hi1 hi2 hi => ?_⟩
      rw [outTables, share_contains, ← outTables] at hi
      have := hclash i hi1 hi2 hi
      rw [inTables, Bool.or_eq_true] at this ⊢
      exact this.imp_left fun h => ((sortTableAdd_extended hwi hr1).2 _).mpr (Or.inr h)
  | _ => exact h.elim

-- what adding each of the integers from i1 on up to j, but not j itself, makes of a table
def AddedUpTo (t : InternalSortTable C) (i1 : IntValue) (j : ℤ) (r : ℕ × InternalSortTable C) : Prop :=
  Added t (fun x => ∃ i : IntValue, x = int i ∧ i1 ≤ i ∧ i.1 < j) r.2

theorem addedUpTo_start (hw : t.WellFormed) : AddedUpTo t i1 i1.1 (nrRefs, t) := by
  refine ⟨hw, fun x => ?_⟩
  rw [or_iff_right]
  rintro ⟨i, -, h1, h2⟩
  have h1 : i1.1 ≤ i.1 := h1
  omega

theorem AddedUpTo.next {j : IntValue} {s r : ℕ × InternalSortTable C} (hj : i1 ≤ j)
    (hs : AddedUpTo t i1 j.1 s) (hr : Added s.2 (· = int j) r.2) : AddedUpTo t i1 (j.1 + 1) r := by
  refine ⟨hr.1, fun x => ?_⟩
  rw [hr.2, hs.2, ← or_assoc]
  refine or_congr_left ⟨?_, ?_⟩
  · rintro (rfl | ⟨i, rfl, h1, h2⟩)
    · exact ⟨j, rfl, hj, by omega⟩
    · exact ⟨i, rfl, h1, by omega⟩
  · rintro ⟨i, rfl, h1, h2⟩
    by_cases heq : i = j
    · exact Or.inl (congrArg int heq)
    · have heq : i.1 ≠ j.1 := fun h => heq (Subtype.ext h)
      exact Or.inr ⟨i, rfl, h1, by omega⟩

theorem AddedUpTo.added {r : ℕ × InternalSortTable C} (h : AddedUpTo t i1 (i2.1 + 1) r) :
    Added t (Between i1 i2) r.2 := by
  refine ⟨h.1, fun x => ?_⟩
  rw [h.2]
  simp only [Between, Int.lt_add_one_iff, Subtype.coe_le_coe]

theorem addEach_safe (hwin : Window lo hi) (hlo : lo ≤ i1) (hhi : i2 ≤ hi) (hle : i1 ≤ i2)
    (hw : t.WellFormed) (h : t.Safe lo hi i1 i2) :
    ∃ r, addEach i1 i2 (nrRefs, t) = some r ∧ Added t (Between i1 i2) r.2 := by
  have hstop : i2.1 < maxInt := lt_of_le_of_lt (show i2.1 ≤ hi.1 from hhi) hwin.below
  have hstart : i1.1 ≤ i2.1 + 1 := le_trans (show i1.1 ≤ i2.1 from hle) (by omega)
  obtain ⟨r, hr, -, hadded⟩ : ∃ r, addEach i1 i2 (nrRefs, t) = some r ∧
      r.2.Safe lo hi i1 i2 ∧ AddedUpTo t i1 (i2.1 + 1) r := by
    refine loop_spec (fun j r => r.2.Safe lo hi i1 i2 ∧ AddedUpTo t i1 j r) hstop hstart
      ⟨h, addedUpTo_start hw⟩ fun j hj1 hj2 s hs => ?_
    obtain ⟨r, hr, hadded⟩ := exists_added hs.2.1 (hs.1.addable hwin hlo hhi hj1 hj2)
    exact ⟨r, hr, hs.1.add hwin hlo hhi hj1 hj2 hs.2.1 hr, hs.2.next hj1 hadded⟩
  exact ⟨r, hr, hadded.added⟩

end Union

section Naturals

-- the union that adding the integers from i1 on to the natural numbers makes
def naturalsUnion (f l : IntValue) : InternalSortTable C :=
  .union 1 (.intRange f l) [.naturals] 1 (.enumerated ∅) .nil

theorem contains_naturalsUnion {f l : IntValue} (x : DomainElement C) :
    (naturalsUnion f l).contains x = true ↔
      Between f l x ∨ (InternalSortTable.infinite .naturals).contains x = true := by
  have hout : ¬ outTables (.enumerated ∅) .nil x = true := by
    simp [outTables, FiniteTable.contains, OutTables.contains]
  rw [naturalsUnion, contains_union, and_iff_left hout, inTables, Bool.or_eq_true, contains_intRange,
    Between, InternalSortTable.contains, List.any_cons, List.any_nil, Bool.or_false]

theorem naturals_add {j : IntValue} (hj : j.1 < 0) :
    (InternalSortTable.infinite .naturals : InternalSortTable C).add nrRefs (int j) =
      some (0, naturalsUnion j j) := by
  have hd : ¬ InfiniteTable.naturals.contains (int j : DomainElement C) = true := by
    simp [InfiniteTable.contains, hj]
  rw [InternalSortTable.add, if_neg hd, unionAdd_of_not_in]
  · rfl
  · simp [inTables, FiniteTable.contains, InfiniteTable.contains, hj]

theorem naturalsUnion_add {f l j : IntValue} (hf : minInt < f.1) (hle : f.1 ≤ l.1) (hj : j.1 = l.1 + 1)
    (hneg : j.1 < 0) : (naturalsUnion f l : InternalSortTable C).add 0 (int j) =
      some (0, naturalsUnion f j) := by
  have hnot : ¬ (FiniteTable.intRange f l : FiniteTable C).contains (int j) = true := by
    rw [contains_intRange]
    rintro ⟨i, hi, -, h2⟩
    have h2 : i.1 ≤ l.1 := h2
    rw [← DomainElement.int.inj hi] at h2
    omega
  have hin : ¬ inTables (FiniteTable.intRange f l) [.naturals] (int j : DomainElement C) = true := by
    simp [inTables, hnot, InfiniteTable.contains, hneg]
  rw [naturalsUnion, InternalSortTable.add, unionAdd_of_not_in hin, FiniteTable.sortTableAdd, if_neg hnot,
    FiniteTable.add]
  rw [intRangeAdd_next (by decide) hf hle hj]
  rfl

theorem naturalsUnion_add_none {f l j : IntValue} (hf : f.1 = minInt) (hj : j.1 = l.1 + 1)
    (hneg : j.1 < 0) : (naturalsUnion f l : InternalSortTable C).add 0 (int j) = none := by
  have hnot : ¬ (FiniteTable.intRange f l : FiniteTable C).contains (int j) = true := by
    rw [contains_intRange]
    rintro ⟨i, hi, -, h2⟩
    have h2 : i.1 ≤ l.1 := h2
    rw [← DomainElement.int.inj hi] at h2
    omega
  have hin : ¬ inTables (FiniteTable.intRange f l) [.naturals] (int j : DomainElement C) = true := by
    simp [inTables, hnot, InfiniteTable.contains, hneg]
  have hnone : ∀ nrRefs, (FiniteTable.intRange f l : FiniteTable C).add nrRefs (int j) = none := by
    intro nrRefs
    rw [← Option.not_isSome_iff_eq_none, FiniteTable.add_isSome]
    rintro (h | h)
    · exact hnot h
    · exact absurd h.1 (by omega)
  rw [naturalsUnion, InternalSortTable.add, unionAdd_of_not_in hin, FiniteTable.sortTableAdd, if_neg hnot,
    hnone]
  rfl

inductive NaturalsAdded (nrRefs : ℕ) (i1 : IntValue) : ℤ → ℕ × InternalSortTable C → Prop where
  | start {j : ℤ} : j = i1.1 → NaturalsAdded nrRefs i1 j (nrRefs, .infinite .naturals)
  | union {j : ℤ} {m : IntValue} : i1.1 < j → m.1 = j - 1 → NaturalsAdded nrRefs i1 j (0, naturalsUnion i1 m)

theorem NaturalsAdded.step (hi : minInt < i1.1) {j : IntValue} (hneg : j.1 < 0)
    {s : ℕ × InternalSortTable C} (h : NaturalsAdded nrRefs i1 j.1 s) :
    ∃ s', s.2.add s.1 (int j) = some s' ∧ NaturalsAdded nrRefs i1 (j.1 + 1) s' := by
  cases h with
  | start heq =>
    obtain rfl : j = i1 := Subtype.ext heq
    exact ⟨_, naturals_add hneg, NaturalsAdded.union (by omega) (by omega)⟩
  | @union m hlt hm =>
    exact ⟨_, naturalsUnion_add hi (by omega) (by omega) hneg, NaturalsAdded.union (by omega) (by omega)⟩

theorem NaturalsAdded.of_some {j : IntValue} (hneg : j.1 < 0) {s s' : ℕ × InternalSortTable C}
    (h : NaturalsAdded nrRefs i1 j.1 s) (hs : s.2.add s.1 (int j) = some s') :
    (i1.1 < j.1 → minInt < i1.1) ∧ NaturalsAdded nrRefs i1 (j.1 + 1) s' := by
  cases h with
  | start heq =>
    obtain rfl : j = i1 := Subtype.ext heq
    obtain rfl := Option.some.inj ((naturals_add hneg).symm.trans hs)
    exact ⟨fun h => absurd h (lt_irrefl _), NaturalsAdded.union (by omega) (by omega)⟩
  | @union m hlt hm =>
    have hi : minInt < i1.1 := by
      by_contra hi
      have hmin : i1.1 = minInt := le_antisymm (not_lt.mp hi) i1.2.1
      exact absurd ((naturalsUnion_add_none hmin (by omega) hneg).symm.trans hs) nofun
    obtain rfl := Option.some.inj ((naturalsUnion_add hi (by omega) (by omega) hneg).symm.trans hs)
    exact ⟨fun _ => hi, NaturalsAdded.union (by omega) (by omega)⟩

def AddsRange (nrRefs : ℕ) (t : InternalSortTable C) (i1 i2 : IntValue) : Prop :=
  ∃ r, t.addRange nrRefs i1 i2 = some r ∧
    ∀ x, r.2.contains x = true ↔ Between i1 i2 x ∨ t.contains x = true

theorem naturals_contains (n : IntValue) :
    (InternalSortTable.infinite .naturals : InternalSortTable C).contains (int n) = true ↔ 0 ≤ n.1 := by
  simp [InternalSortTable.contains, InfiniteTable.contains]

def minusOne : IntValue := ⟨-1, by decide, by decide⟩

theorem naturals_addsRange (hle : i1 ≤ i2) :
    AddsRange nrRefs (.infinite .naturals : InternalSortTable C) i1 i2 ↔
      0 ≤ i1.1 ∨ 0 ≤ i2.1 ∧ minInt < i1.1 := by
  have hle' : i1.1 ≤ i2.1 := hle
  have hval : minusOne.1 = -1 := rfl
  have hneg : ∀ j : IntValue, j ≤ minusOne → j.1 < 0 := fun j hj =>
    lt_of_le_of_lt (show j.1 ≤ minusOne.1 from hj) (by decide)
  by_cases hpos : 0 ≤ i1.1
  · refine iff_of_true ⟨_, if_pos hpos, fun x => ⟨Or.inr, fun hx => hx.elim ?_ id⟩⟩ (Or.inl hpos)
    rintro ⟨i, rfl, h1, -⟩
    exact (naturals_contains i).mpr (hpos.trans h1)
  · rw [or_iff_right hpos, AddsRange, InternalSortTable.addRange, naturalsAddRange, if_neg hpos]
    by_cases hpos2 : 0 ≤ i2.1
    · have hlast : (checked ((if 0 < i2.1 then 0 else i2.1) - 1) : Option IntValue) =
          some minusOne := checked_eq_some.mpr (by split_ifs <;> omega)
      rw [hlast, and_iff_right hpos2]
      constructor
      · rintro ⟨r, hr, -⟩
        by_contra hmin
        have hmin : i1.1 = minInt := le_antisymm (not_lt.mp hmin) i1.2.1
        obtain ⟨-, hrounds⟩ := loop_keeps (NaturalsAdded nrRefs i1) hr (by omega) (NaturalsAdded.start rfl)
          fun j _ hj s s' h hs => (h.of_some (hneg j hj) hs).2
        obtain ⟨s, s', h, hs⟩ := hrounds ⟨minInt + 1, by decide, by decide⟩
          (show i1.1 ≤ minInt + 1 by omega) (by decide)
        exact absurd ((h.of_some (by decide) hs).1 (show i1.1 < minInt + 1 by omega)) (by omega)
      · intro hmin
        obtain ⟨r, hr, h⟩ : ∃ r, addEach i1 minusOne (nrRefs, (.infinite .naturals : InternalSortTable C)) =
            some r ∧ NaturalsAdded nrRefs i1 (minusOne.1 + 1) r :=
          loop_spec (NaturalsAdded nrRefs i1) (by decide) (by omega) (NaturalsAdded.start rfl)
            fun j _ hj s h => h.step hmin (hneg j hj)
        refine ⟨r, hr, ?_⟩
        generalize hstop : minusOne.1 + 1 = stop at h
        cases h with
        | start heq => omega
        | @union m hlt hm =>
          intro x
          rw [contains_naturalsUnion]
          constructor
          · rintro (⟨i, rfl, h1, h2⟩ | hx)
            · have h2 : i.1 ≤ m.1 := h2
              exact Or.inl ⟨i, rfl, h1, show i.1 ≤ i2.1 by omega⟩
            · exact Or.inr hx
          · rintro (⟨i, rfl, h1, h2⟩ | hx)
            · by_cases hi : 0 ≤ i.1
              · exact Or.inr ((naturals_contains i).mpr hi)
              · exact Or.inl ⟨i, rfl, h1, show i.1 ≤ m.1 by omega⟩
            · exact Or.inr hx
    · refine iff_of_false ?_ fun h => hpos2 h.1
      rintro ⟨r, hr, hx⟩
      have hi2 : r.2.contains (int i2) = true := (hx _).mpr (Or.inl ⟨i2, rfl, hle, le_rfl⟩)
      have hnot : ¬ (InternalSortTable.infinite .naturals : InternalSortTable C).contains (int i2) = true :=
        fun h => hpos2 ((naturals_contains i2).mp h)
      rw [if_neg (fun h => hpos2 h.le)] at hr
      cases hc : (checked (i2.1 - 1) : Option IntValue) with
      | none =>
        rw [hc] at hr
        obtain rfl := Option.some.inj hr
        exact hnot hi2
      | some last =>
        have hlast := checked_eq_some.mp hc
        rw [hc] at hr
        obtain ⟨h, -⟩ := loop_keeps (NaturalsAdded nrRefs i1) hr (by omega) (NaturalsAdded.start rfl)
          fun j _ hj s s' h hs => (h.of_some (show j.1 < 0 from
            lt_of_le_of_lt (show j.1 ≤ last.1 from hj) (by omega)) hs).2
        generalize hstop : last.1 + 1 = stop at h
        cases h with
        | start _ => exact hnot hi2
        | @union m _ hm =>
          refine ((contains_naturalsUnion _).mp hi2).elim ?_ hnot
          rintro ⟨i, hi, -, h2⟩
          have h2 : i.1 ≤ m.1 := h2
          rw [← DomainElement.int.inj hi] at h2
          omega

end Naturals

section Ranges

theorem chars_addsRange (hle : i1 ≤ i2) :
    AddsRange nrRefs (.chars : InternalSortTable C) i1 i2 ↔ 0 ≤ i1.1 ∧ i2.1 < 10 := by
  have hle' : i1.1 ≤ i2.1 := hle
  have hcontains : ∀ i : IntValue, charsContains (int i : DomainElement C) = true ↔ 0 ≤ i.1 ∧ i.1 < 10 := by
    intro i
    simp [charsContains]
  constructor
  · rintro ⟨r, hr, -⟩
    have hr : addEach i1 i2 (nrRefs, (.chars : InternalSortTable C)) = some r := hr
    obtain ⟨-, hrounds⟩ := loop_keeps (fun _ s => s = (nrRefs, InternalSortTable.chars)) hr (by omega) rfl
      fun j _ _ s s' hs hs' => by
        subst hs
        simp only [InternalSortTable.add] at hs'
        split_ifs at hs'
        exact (Option.some.inj hs').symm
    have hround : ∀ j : IntValue, i1 ≤ j → j ≤ i2 → 0 ≤ j.1 ∧ j.1 < 10 := by
      intro j h1 h2
      obtain ⟨s, s', rfl, hs'⟩ := hrounds j h1 h2
      simp only [InternalSortTable.add] at hs'
      split_ifs at hs' with hc
      exact (hcontains j).mp hc
    exact ⟨(hround i1 le_rfl hle).1, (hround i2 hle le_rfl).2⟩
  · rintro ⟨h1, h2⟩
    have hmax : i2.1 < maxInt := h2.trans (by decide)
    obtain ⟨r, hr, rfl⟩ : ∃ r, addEach i1 i2 (nrRefs, (.chars : InternalSortTable C)) = some r ∧
        r = (nrRefs, .chars) := by
      refine loop_spec (fun _ s => s = (nrRefs, InternalSortTable.chars)) hmax (by omega) rfl ?_
      rintro j hj1 hj2 s rfl
      have hj1 : i1.1 ≤ j.1 := hj1
      have hj2 : j.1 ≤ i2.1 := hj2
      exact ⟨_, if_pos ((hcontains j).mpr ⟨by omega, by omega⟩), rfl⟩
    refine ⟨_, hr, fun x => ⟨Or.inr, fun hx => hx.elim ?_ id⟩⟩
    rintro ⟨i, rfl, hi1, hi2⟩
    have hi1 : i1.1 ≤ i.1 := hi1
    have hi2 : i.1 ≤ i2.1 := hi2
    exact (hcontains i).mpr ⟨by omega, by omega⟩

def InternalSortTable.RangeAddable (t : InternalSortTable C) (i1 i2 : IntValue) : Prop :=
  match t with
  | .finite t => t.RangeAddable i1 i2
  | .infinite .naturals => 0 ≤ i1.1 ∨ 0 ≤ i2.1 ∧ minInt < i1.1
  | .infinite _ => True
  | .chars => 0 ≤ i1.1 ∧ i2.1 < 10
  | .constructed _ => False
  | .union nrIn intable intables nrOut outtable outtables => ∃ lo hi, Window lo hi ∧ lo ≤ i1 ∧ i2 ≤ hi ∧
    (InternalSortTable.union nrIn intable intables nrOut outtable outtables).Safe lo hi i1 i2

def InternalSortTable.IsUnion : InternalSortTable C → Prop
  | .union _ _ _ _ _ _ => True
  | _ => False

variable {t : InternalSortTable C}

theorem addsRange_self (hr : t.addRange nrRefs i1 i2 = some (nrRefs, t))
    (h : ∀ i, t.contains (int i) = true) : AddsRange nrRefs t i1 i2 := by
  refine ⟨_, hr, fun x => ⟨Or.inr, fun hx => hx.elim ?_ id⟩⟩
  rintro ⟨i, rfl, -⟩
  exact h i

theorem addsRange_of_rangeAddable (hw : t.WellFormed) (hle : i1 ≤ i2) (h : t.RangeAddable i1 i2) :
    AddsRange nrRefs t i1 i2 := by
  cases t with
  | finite t =>
    obtain ⟨r, hr⟩ := Option.isSome_iff_exists.mp ((FiniteTable.addRange_isSome hle).mpr h)
    have hr' := FiniteTable.addRange_extended hw hle hr
    exact ⟨_, Option.map_eq_some_iff.mpr ⟨r, hr, rfl⟩, hr'.2⟩
  | infinite t =>
    cases t with
    | naturals => exact (naturals_addsRange hle).mpr h
    | integers => exact addsRange_self rfl fun _ => rfl
    | floats => exact addsRange_self rfl fun _ => rfl
    | strings => exact addsRange_self rfl fun _ => rfl
  | chars => exact (chars_addsRange hle).mpr h
  | constructed constructors => exact h.elim
  | union nrIn intable intables nrOut outtable outtables =>
    obtain ⟨lo, hi, hwin, hlo, hhi, hsafe⟩ := h
    obtain ⟨r, hr, -, hx⟩ := addEach_safe hwin hlo hhi hle hw hsafe
    exact ⟨r, hr, hx⟩

theorem rangeAddable_of_addsRange (hle : i1 ≤ i2) (hunion : ¬ t.IsUnion) (h : AddsRange nrRefs t i1 i2) :
    t.RangeAddable i1 i2 := by
  cases t with
  | finite t =>
    obtain ⟨r, hr, -⟩ := h
    obtain ⟨r', hr', -⟩ := Option.map_eq_some_iff.mp hr
    exact (FiniteTable.addRange_isSome hle).mp (Option.isSome_iff_exists.mpr ⟨r', hr'⟩)
  | infinite t =>
    cases t with
    | naturals => exact (naturals_addsRange hle).mp h
    | _ => trivial
  | chars => exact (chars_addsRange hle).mp h
  | constructed constructors =>
    obtain ⟨r, hr, -⟩ := h
    cases hr
  | union nrIn intable intables nrOut outtable outtables => exact absurd trivial hunion

end Ranges

end SortTables
