import DeclarativeLocalSearch.Structure.SortTablesRange

set_option linter.unusedSectionVars false

namespace SortTables

open CheckedInt DomainElement

variable {C : Type} [LinearOrder C]

def InternalSortTable.elements (t : InternalSortTable C) : Set (DomainElement C) :=
  {x | t.contains x = true}

def FirstCorrect (t : InternalSortTable C) : Prop :=
  ∃ fuel d, t.first fuel = some (some d) ∧ IsLeast t.elements d

def LastCorrect (t : InternalSortTable C) : Prop :=
  ∃ d, t.last = some (some d) ∧ IsGreatest t.elements d

section Finite

variable {t : FiniteTable C}

theorem finite_firstCorrect (h : (InternalSortTable.finite t).elements.Nonempty) :
    FirstCorrect (.finite t) := by
  obtain ⟨x, hx⟩ := h
  cases t with
  | enumerated table =>
    have hne : table.Nonempty := ⟨x, contains_enumerated.mp hx⟩
    have hmin := table.isLeast_min' hne
    refine ⟨0, table.min' hne, ?_, contains_enumerated.mpr hmin.1, fun y hy => ?_⟩
    · rw [InternalSortTable.first, FiniteTable.first, dif_pos hne]
    · have hy : y ∈ table := contains_enumerated.mp hy
      exact hmin.2 hy
  | intRange first last =>
    obtain ⟨n, rfl, h1, h2⟩ := contains_intRange.mp hx
    have hfirst : (FiniteTable.intRange first last : FiniteTable C).contains (int first) = true :=
      contains_intRange.mpr ⟨first, rfl, le_rfl, h1.trans h2⟩
    refine ⟨0, int first, rfl, hfirst, fun y hy => ?_⟩
    obtain ⟨i, rfl, hi, -⟩ := contains_intRange.mp hy
    exact int_le_int.mpr hi

theorem finite_lastCorrect (h : (InternalSortTable.finite t).elements.Nonempty) :
    LastCorrect (.finite t) := by
  obtain ⟨x, hx⟩ := h
  cases t with
  | enumerated table =>
    have hne : table.Nonempty := ⟨x, contains_enumerated.mp hx⟩
    have hmax := table.isGreatest_max' hne
    refine ⟨table.max' hne, ?_, contains_enumerated.mpr hmax.1, fun y hy => ?_⟩
    · rw [InternalSortTable.last, FiniteTable.last, dif_pos hne]
    · have hy : y ∈ table := contains_enumerated.mp hy
      exact hmax.2 hy
  | intRange first last =>
    obtain ⟨n, rfl, h1, h2⟩ := contains_intRange.mp hx
    have hlast : (FiniteTable.intRange first last : FiniteTable C).contains (int last) = true :=
      contains_intRange.mpr ⟨last, rfl, h1.trans h2, le_rfl⟩
    refine ⟨int last, rfl, hlast, fun y hy => ?_⟩
    obtain ⟨i, rfl, -, hi⟩ := contains_intRange.mp hy
    exact int_le_int.mpr hi

end Finite

section Infinite

theorem minDouble_le_int (n : IntValue) : (double minDoubleValue : DomainElement C) ≤ int n := by
  rw [le_iff_key, key, key, Sum.Lex.inl_le_inl_iff]
  exact (abs_le.mp (abs_int_lt_maxDouble n).le).1

theorem minDouble_le_double (x : DoubleValue) : (double minDoubleValue : DomainElement C) ≤ double x := by
  rw [le_iff_key, key, key, Sum.Lex.inl_le_inl_iff]
  exact (abs_le.mp x.2.1).1

theorem int_le_maxDouble (n : IntValue) : (int n : DomainElement C) ≤ double maxDoubleValue := by
  rw [le_iff_key, key, key, Sum.Lex.inl_le_inl_iff]
  exact (abs_le.mp (abs_int_lt_maxDouble n).le).2

theorem double_le_maxDouble (x : DoubleValue) : (double x : DomainElement C) ≤ double maxDoubleValue := by
  rw [le_iff_key, key, key, Sum.Lex.inl_le_inl_iff]
  exact (abs_le.mp x.2.1).2

theorem infinite_firstCorrect {t : InfiniteTable} :
    FirstCorrect (.infinite t : InternalSortTable C) ↔ t ≠ .strings := by
  constructor
  · rintro ⟨fuel, d, hd, -, hleast⟩ rfl
    obtain rfl := Option.some.inj (Option.some.inj hd)
    have hint : int minValue ∈ (InternalSortTable.infinite .strings : InternalSortTable C).elements := rfl
    exact absurd (hleast hint) (not_le.mpr (int_lt_string _ _))
  · intro ht
    refine ⟨0, t.first, rfl, ?_⟩
    cases t with
    | naturals =>
      refine ⟨rfl, fun y hy => ?_⟩
      cases y with
      | int n => exact int_le_int.mpr ((naturals_contains n).mp hy)
      | _ => cases hy
    | integers =>
      refine ⟨rfl, fun y hy => ?_⟩
      cases y with
      | int n => exact int_le_int.mpr n.2.1
      | _ => cases hy
    | floats =>
      refine ⟨rfl, fun y hy => ?_⟩
      cases y with
      | int n => exact minDouble_le_int n
      | double x => exact minDouble_le_double x
      | _ => cases hy
    | strings => exact absurd rfl ht

theorem infinite_lastCorrect {t : InfiniteTable} :
    LastCorrect (.infinite t : InternalSortTable C) ↔ t ≠ .strings := by
  constructor
  · rintro ⟨d, hd, -⟩ rfl
    cases hd
  · intro ht
    cases t with
    | naturals =>
      refine ⟨_, rfl, rfl, fun y hy => ?_⟩
      cases y with
      | int n => exact int_le_int.mpr n.2.2
      | _ => cases hy
    | integers =>
      refine ⟨_, rfl, rfl, fun y hy => ?_⟩
      cases y with
      | int n => exact int_le_int.mpr n.2.2
      | _ => cases hy
    | floats =>
      refine ⟨_, rfl, rfl, fun y hy => ?_⟩
      cases y with
      | int n => exact int_le_maxDouble n
      | double x => exact double_le_maxDouble x
      | _ => cases hy
    | strings => exact absurd rfl ht

-- digits are integers, and a character of the upper half comes after every other one
theorem chars_not_firstCorrect : ¬ FirstCorrect (.chars : InternalSortTable C) := by
  rintro ⟨fuel, d, hd, -, hleast⟩
  obtain rfl := Option.some.inj (Option.some.inj hd)
  have hint : int zeroValue ∈ (InternalSortTable.chars : InternalSortTable C).elements := rfl
  exact absurd (hleast hint) (not_le.mpr (int_lt_string _ _))

theorem chars_not_lastCorrect : ¬ LastCorrect (.chars : InternalSortTable C) := by
  rintro ⟨d, hd, -, hgreatest⟩
  obtain rfl := Option.some.inj (Option.some.inj hd)
  have hmem : string [minByte] ∈ (InternalSortTable.chars : InternalSortTable C).elements := rfl
  exact absurd (hgreatest hmem) (not_le.mpr (string_lt_string.mpr (by decide)))

end Infinite

section Constructed

variable {constructors : List (Constructor C)}

theorem constructed_firstCorrect : FirstCorrect (.constructed constructors) ↔
    ∃ c cs, constructedElements constructors = c :: cs ∧
      compound c ∈ lowerBounds (InternalSortTable.constructed constructors).elements := by
  constructor
  · rintro ⟨fuel, d, hd, -, hleast⟩
    obtain ⟨c, hc, hcd⟩ := Option.map_eq_some_iff.mp hd
    obtain rfl := Option.some.inj hcd
    obtain ⟨cs, hcs⟩ := List.head?_eq_some_iff.mp hc
    exact ⟨c, cs, hcs, hleast⟩
  · rintro ⟨c, cs, hcs, hleast⟩
    refine ⟨0, compound c, by rw [InternalSortTable.first, hcs]; rfl, ?_, hleast⟩
    have hmem : c ∈ constructedElements constructors := hcs ▸ List.mem_cons_self
    obtain ⟨l, hl, hc⟩ := List.mem_flatten.mp hmem
    obtain ⟨constructor, hconstructor, heq⟩ := List.mem_filterMap.mp hl
    exact List.any_eq_true.mpr ⟨constructor, hconstructor, (constructor.mem_iff l heq c).mpr hc⟩

theorem constructed_lastCorrect : LastCorrect (.constructed constructors) ↔
    (∀ constructor ∈ constructors, constructor.elements.isSome) ∧
      ∃ cs c, constructedElements constructors = cs ++ [c] ∧
        compound c ∈ upperBounds (InternalSortTable.constructed constructors).elements := by
  have hany : constructors.any (·.elements.isNone) = true ↔
      ¬ ∀ constructor ∈ constructors, constructor.elements.isSome := by
    rw [List.any_eq_true]
    push Not
    simp only [Option.isSome_iff_ne_none, ne_eq, not_not, Option.isNone_iff_eq_none]
  constructor
  · rintro ⟨d, hd, -, hgreatest⟩
    rw [InternalSortTable.last] at hd
    split_ifs at hd with hinf
    obtain ⟨c, hc, hcd⟩ := Option.map_eq_some_iff.mp hd
    obtain rfl := Option.some.inj hcd
    obtain ⟨cs, hcs⟩ := List.getLast?_eq_some_iff.mp hc
    exact ⟨not_not.mp fun h => hinf (hany.mpr h), cs, c, hcs, hgreatest⟩
  · rintro ⟨hfin, cs, c, hcs, hgreatest⟩
    refine ⟨compound c, ?_, ?_, hgreatest⟩
    · rw [InternalSortTable.last, if_neg fun h => hany.mp h hfin, hcs, List.getLast?_append_of_ne_nil _ (by simp)]
      rfl
    · have hmem : c ∈ constructedElements constructors := hcs ▸ by simp
      obtain ⟨l, hl, hc⟩ := List.mem_flatten.mp hmem
      obtain ⟨constructor, hconstructor, heq⟩ := List.mem_filterMap.mp hl
      exact List.any_eq_true.mpr ⟨constructor, hconstructor, (constructor.mem_iff l heq c).mpr hc⟩

end Constructed

section Union

variable {out : DomainElement C → Bool} {intable : FiniteTable C} {intables : List InfiniteTable}
  {d e : DomainElement C}

-- the iterator of t that stands at e comes to d over elements that are out, and can be moved past it
def Meets (out : DomainElement C → Bool) (t : InfiniteTable) (e d : DomainElement C) : Prop :=
  Relation.ReflTransGen (fun e e' => out e = true ∧ t.next e = some e') e d ∧ (t.next d).isSome

theorem Meets.settle {t : InfiniteTable} {jts : List (InfiniteTable × DomainElement C)} {fuel : ℕ}
    (hd : out d = false) (h : Meets out t e d) (hfuel : settle out fuel d jts = some d) :
    ∃ fuel, settle out fuel d ((t, e) :: jts) = some d := by
  obtain ⟨hmeets, hnext⟩ := h
  obtain ⟨d', hd'⟩ := Option.isSome_iff_exists.mp hnext
  have hnot : ¬ out d = true := Bool.eq_false_iff.mp hd
  induction hmeets using Relation.ReflTransGen.head_induction_on with
  | refl =>
    refine ⟨fuel + 1, ?_⟩
    rw [SortTables.settle, if_neg hnot, if_neg (lt_irrefl d), if_pos rfl, hd', Option.bind_some, hfuel]
  | head hstep _ ih =>
    obtain ⟨fuel, hfuel⟩ := ih
    refine ⟨fuel + 1, ?_⟩
    rw [SortTables.settle, if_pos hstep.1, hstep.2, Option.bind_some, hfuel]

theorem settle_of_meets (hd : out d = false) :
    ∀ {jts : List (InfiniteTable × DomainElement C)}, (∀ jt ∈ jts, Meets out jt.1 jt.2 d) →
      ∃ fuel, settle out fuel d jts = some d
  | [], _ => ⟨0, rfl⟩
  | (t, e) :: jts, h => by
    obtain ⟨hmeets, hrest⟩ := List.forall_mem_cons.mp h
    obtain ⟨fuel, hfuel⟩ := settle_of_meets hd hrest
    exact hmeets.settle hd hfuel

def UnionFirst (out : DomainElement C → Bool) (intable : FiniteTable C) (intables : List InfiniteTable)
    (elements : Set (DomainElement C)) : Prop :=
  (∃ d, intable.sortBegin = some d ∧ out d = false ∧ (∀ t ∈ intables, Meets out t t.first d) ∧
      d ∈ lowerBounds elements) ∨
    (∀ d ∈ intable.sortBegin, out d = true) ∧ ∃ pre t post, intables = pre ++ t :: post ∧
      (∀ t' ∈ pre, out t'.first = true) ∧ out t.first = false ∧
      (∀ t' ∈ post, Meets out t' t'.first t.first) ∧ t.first ∈ lowerBounds elements

theorem settle_map (hd : out d = false) (h : ∀ t ∈ intables, Meets out t t.first d) :
    ∃ fuel, settle out fuel d (intables.map fun t => (t, t.first)) = some d :=
  settle_of_meets hd fun jt hjt => by
    obtain ⟨t, ht, rfl⟩ := List.mem_map.mp hjt
    exact h t ht

theorem settleInfinite_append {pre post : List InfiniteTable} {t : InfiniteTable} {fuel : ℕ}
    (hpre : ∀ t' ∈ pre, out t'.first = true) (ht : out t.first = false) :
    settleInfinite out fuel (pre ++ t :: post) =
      settle out fuel t.first (post.map fun t => (t, t.first)) := by
  induction pre with
  | nil => rw [List.nil_append, settleInfinite, if_neg (Bool.eq_false_iff.mp ht)]
  | cons t' pre ih =>
    obtain ⟨h, hpre⟩ := List.forall_mem_cons.mp hpre
    rw [List.cons_append, settleInfinite, if_pos h, ih hpre]

theorem contains_sortBegin (h : intable.sortBegin = some d) : intable.contains d = true := by
  cases intable with
  | enumerated table =>
    rw [FiniteTable.sortBegin] at h
    split_ifs at h with hne
    obtain rfl := Option.some.inj h
    exact contains_enumerated.mpr (table.min'_mem hne)
  | intRange first last =>
    rw [FiniteTable.sortBegin] at h
    split_ifs at h with hle
    obtain rfl := Option.some.inj h
    exact contains_intRange.mpr ⟨first, rfl, le_rfl, hle⟩

theorem InfiniteTable.contains_first (t : InfiniteTable) : t.contains (t.first : DomainElement C) = true := by
  cases t <;> rfl

variable {nrIn nrOut : ℕ} {outtable : FiniteTable C} {outtables : OutTables C}

theorem union_firstCorrect
    (h : UnionFirst (outTables outtable outtables) intable intables
      (InternalSortTable.union nrIn intable intables nrOut outtable outtables).elements) :
    FirstCorrect (.union nrIn intable intables nrOut outtable outtables) := by
  rcases h with ⟨d, hbegin, hd, hmeets, hleast⟩ | ⟨hbegin, pre, t, post, rfl, hpre, ht, hmeets, hleast⟩
  · obtain ⟨fuel, hfuel⟩ := settle_map hd hmeets
    refine ⟨fuel, d, ?_, contains_union.mpr ⟨?_, Bool.eq_false_iff.mp hd⟩, hleast⟩
    · have hd : ¬ (outtable.contains d || outtables.contains d) = true := Bool.eq_false_iff.mp hd
      rw [InternalSortTable.first, unionFirst, hbegin]
      simp only [if_neg hd]
      exact congrArg (Option.map some) hfuel
    · rw [inTables, contains_sortBegin hbegin, Bool.true_or]
  · obtain ⟨fuel, hfuel⟩ := settle_map ht hmeets
    have hsettle : settleInfinite (outTables outtable outtables) fuel (pre ++ t :: post) = some t.first :=
      (settleInfinite_append hpre ht).trans hfuel
    refine ⟨fuel, t.first, ?_, contains_union.mpr ⟨?_, Bool.eq_false_iff.mp ht⟩, hleast⟩
    · rw [InternalSortTable.first, unionFirst]
      cases hb : intable.sortBegin with
      | none => exact congrArg (Option.map some) hsettle
      | some d =>
        have hd : (outtable.contains d || outtables.contains d) = true := hbegin d hb
        simp only [if_pos hd]
        exact congrArg (Option.map some) hsettle
    · rw [inTables, List.any_append, List.any_cons, t.contains_first, Bool.true_or, Bool.or_true,
        Bool.or_true]

section Last

variable {contains : DomainElement C → Bool}

theorem higher_of_not {t : DomainElement C} (h : ¬ contains t = true) (r : Option (DomainElement C)) :
    higher contains r (some t) = r := by
  unfold higher
  exact if_neg h

theorem higher_none {t : DomainElement C} (h : contains t = true) :
    higher contains none (some t) = some t := by
  unfold higher
  exact if_pos h

theorem higher_some {t r : DomainElement C} (h : contains t = true) :
    higher contains (some r) (some t) = if r < t then some t else some r := by
  unfold higher
  exact if_pos h

theorem foldl_higher (temps : List (Option (DomainElement C))) (r : Option (DomainElement C)) :
    (∀ temp ∈ temps, ∀ x ∈ temp, contains x = true → ∃ y ∈ temps.foldl (higher contains) r, x ≤ y) ∧
      (∀ x ∈ r, ∃ y ∈ temps.foldl (higher contains) r, x ≤ y) ∧
      ∀ y ∈ temps.foldl (higher contains) r, y ∈ r ∨ (some y ∈ temps ∧ contains y = true) := by
  induction temps generalizing r with
  | nil => exact ⟨fun _ h => absurd h List.not_mem_nil, fun x hx => ⟨x, hx, le_refl x⟩, fun y hy => Or.inl hy⟩
  | cons temp temps ih =>
    obtain ⟨hlater, hkept, hfrom⟩ := ih (higher contains r temp)
    rw [List.foldl_cons]
    have hstep : (∀ x ∈ r, ∃ y ∈ higher contains r temp, x ≤ y) ∧
        (∀ x ∈ temp, contains x = true → ∃ y ∈ higher contains r temp, x ≤ y) ∧
        ∀ y ∈ higher contains r temp, y ∈ r ∨ (some y = temp ∧ contains y = true) := by
      cases temp with
      | none => exact ⟨fun x hx => ⟨x, hx, le_refl x⟩, fun _ h => absurd h (Option.not_mem_none _), fun y hy => Or.inl hy⟩
      | some t =>
        by_cases hc : contains t = true
        · cases r with
          | none =>
            rw [higher_none hc]
            exact ⟨fun _ h => absurd h (Option.not_mem_none _), fun x hx _ => ⟨x, hx, le_refl x⟩,
              fun y hy => Or.inr ⟨hy.symm, Option.some.inj hy ▸ hc⟩⟩
          | some r =>
            rw [higher_some hc]
            split_ifs with hlt
            · refine ⟨fun x hx => ⟨t, rfl, ?_⟩, fun x hx _ => ⟨x, hx, le_refl x⟩, fun y hy => ?_⟩
              · exact Option.some.inj hx ▸ hlt.le
              · exact Or.inr ⟨hy.symm, Option.some.inj hy ▸ hc⟩
            · refine ⟨fun x hx => ⟨x, hx, le_refl x⟩, fun x hx _ => ⟨r, rfl, ?_⟩, fun y hy => Or.inl hy⟩
              exact Option.some.inj hx ▸ not_lt.mp hlt
        · rw [higher_of_not hc]
          refine ⟨fun x hx => ⟨x, hx, le_refl x⟩, fun x hx hx' => ?_, fun y hy => Or.inl hy⟩
          exact absurd (Option.some.inj hx ▸ hx') hc
    obtain ⟨hr, htemp, hnew⟩ := hstep
    refine ⟨List.forall_mem_cons.mpr ⟨fun x hx hc => ?_, hlater⟩, fun x hx => ?_, fun y hy => ?_⟩
    · obtain ⟨y, hy, hxy⟩ := htemp x hx hc
      obtain ⟨z, hz, hyz⟩ := hkept y hy
      exact ⟨z, hz, hxy.trans hyz⟩
    · obtain ⟨y, hy, hxy⟩ := hr x hx
      obtain ⟨z, hz, hyz⟩ := hkept y hy
      exact ⟨z, hz, hxy.trans hyz⟩
    · rcases hfrom y hy with hy | ⟨hmem, hc⟩
      · refine (hnew y hy).imp_right fun hy => ⟨?_, hy.2⟩
        rw [hy.1]
        exact List.mem_cons_self
      · exact Or.inr ⟨List.mem_cons_of_mem _ hmem, hc⟩

theorem mapM_last : ∀ {ts : List InfiniteTable} {lasts : List (DomainElement C)},
    ts.mapM InfiniteTable.last = some lasts → ∀ x, x ∈ lasts ↔ ∃ t ∈ ts, t.last = some x
  | [], lasts, h, x => by
    obtain rfl := Option.some.inj h
    simp
  | t :: ts, lasts, h, x => by
    rw [List.mapM_cons, Option.bind_eq_bind, Option.bind_eq_some_iff] at h
    obtain ⟨l, hl, h⟩ := h
    rw [Option.bind_eq_bind, Option.bind_eq_some_iff] at h
    obtain ⟨ls, hls, h⟩ := h
    obtain rfl := Option.some.inj h
    rw [List.mem_cons, mapM_last hls, List.exists_mem_cons_iff, hl, Option.some.injEq, eq_comm]

theorem mapM_last_isSome : ∀ {ts : List InfiniteTable},
    (ts.mapM InfiniteTable.last : Option (List (DomainElement C))).isSome ↔ .strings ∉ ts
  | [] => by simp
  | t :: ts => by
    have ih : (ts.mapM InfiniteTable.last : Option (List (DomainElement C))).isSome ↔ .strings ∉ ts :=
      mapM_last_isSome
    rw [List.mapM_cons]
    cases t <;> cases h : (ts.mapM InfiniteTable.last : Option (List (DomainElement C))) <;>
      simp_all [InfiniteTable.last]

end Last

def UnionLast (intable : FiniteTable C) (intables : List InfiniteTable) (elements : Set (DomainElement C)) :
    Prop :=
  .strings ∉ intables ∧ ∃ d, (intable.last = some d ∨ ∃ t ∈ intables, t.last = some d) ∧
    IsGreatest elements d

theorem union_lastCorrect :
    LastCorrect (.union nrIn intable intables nrOut outtable outtables) ↔
      UnionLast intable intables
        (InternalSortTable.union nrIn intable intables nrOut outtable outtables).elements := by
  generalize hu : InternalSortTable.union nrIn intable intables nrOut outtable outtables = u
  have hlast : u.last = (unionLast u.contains intable intables).map some := by
    rw [← hu]
    rfl
  have hmem : ∀ {lasts : List (DomainElement C)}, intables.mapM InfiniteTable.last = some lasts →
      ∀ d, some d ∈ intable.last :: lasts.map some ↔
        intable.last = some d ∨ ∃ t ∈ intables, t.last = some d := by
    intro lasts hlasts d
    rw [List.mem_cons, List.mem_map_of_injective (Option.some_injective _), mapM_last hlasts, eq_comm]
  constructor
  · rintro ⟨d, hd, hgreatest⟩
    rw [hlast] at hd
    obtain ⟨d', hd', heq⟩ := Option.map_eq_some_iff.mp hd
    obtain rfl := Option.some.inj heq
    obtain ⟨lasts, hlasts, hd'⟩ := Option.bind_eq_some_iff.mp hd'
    refine ⟨mapM_last_isSome.mp (by rw [hlasts]; rfl), d', (hmem hlasts d').mp ?_, hgreatest⟩
    exact (((foldl_higher _ none).2.2 d' hd').resolve_left nofun).1
  · rintro ⟨hstrings, d, hd, hgreatest⟩
    have hsome : (intables.mapM InfiniteTable.last : Option (List (DomainElement C))).isSome :=
      mapM_last_isSome.mpr hstrings
    obtain ⟨lasts, hlasts⟩ := Option.isSome_iff_exists.mp hsome
    obtain ⟨hlater, -, hfrom⟩ := @foldl_higher C _ u.contains (intable.last :: lasts.map some) none
    obtain ⟨y, hy, hdy⟩ := hlater (some d) ((hmem hlasts d).mpr hd) d rfl hgreatest.1
    have hmemy := ((hfrom y hy).resolve_left nofun).2
    obtain rfl := le_antisymm hdy (hgreatest.2 hmemy)
    refine ⟨d, ?_, hgreatest⟩
    rw [hlast, unionLast, hlasts]
    exact congrArg (Option.map some) hy

end Union

section Operations

def InternalSortTable.FirstOk (t : InternalSortTable C) : Prop :=
  match t with
  | .finite _ => True
  | .infinite t => t ≠ .strings
  | .chars => False
  | .constructed constructors => ∃ c cs, constructedElements constructors = c :: cs ∧
      compound c ∈ lowerBounds (InternalSortTable.constructed constructors).elements
  | .union nrIn intable intables nrOut outtable outtables =>
    UnionFirst (outTables outtable outtables) intable intables
      (InternalSortTable.union nrIn intable intables nrOut outtable outtables).elements

def InternalSortTable.LastOk (t : InternalSortTable C) : Prop :=
  match t with
  | .finite _ => True
  | .infinite t => t ≠ .strings
  | .chars => False
  | .constructed constructors => (∀ constructor ∈ constructors, constructor.elements.isSome) ∧
      ∃ cs c, constructedElements constructors = cs ++ [c] ∧
        compound c ∈ upperBounds (InternalSortTable.constructed constructors).elements
  | .union nrIn intable intables nrOut outtable outtables =>
    UnionLast intable intables
      (InternalSortTable.union nrIn intable intables nrOut outtable outtables).elements

variable {t : InternalSortTable C}

theorem firstCorrect_of_firstOk (hne : t.elements.Nonempty) (h : t.FirstOk) : FirstCorrect t := by
  cases t with
  | finite t => exact finite_firstCorrect hne
  | infinite t => exact infinite_firstCorrect.mpr h
  | chars => exact h.elim
  | constructed constructors => exact constructed_firstCorrect.mpr h
  | union nrIn intable intables nrOut outtable outtables => exact union_firstCorrect h

theorem firstOk_of_firstCorrect (hunion : ¬ t.IsUnion) (h : FirstCorrect t) : t.FirstOk := by
  cases t with
  | finite t => trivial
  | infinite t => exact infinite_firstCorrect.mp h
  | chars => exact chars_not_firstCorrect h
  | constructed constructors => exact constructed_firstCorrect.mp h
  | union nrIn intable intables nrOut outtable outtables => exact absurd trivial hunion

theorem lastCorrect_iff (hne : t.elements.Nonempty) : LastCorrect t ↔ t.LastOk := by
  cases t with
  | finite t => exact iff_of_true (finite_lastCorrect hne) trivial
  | infinite t => exact infinite_lastCorrect
  | chars => exact iff_of_false chars_not_lastCorrect id
  | constructed constructors => exact constructed_lastCorrect
  | union nrIn intable intables nrOut outtable outtables => exact union_lastCorrect

end Operations

end SortTables
