import DeclarativeLocalSearch.Generators.ComparisonGenerator

namespace Generators

open Set Theory

variable {D : Type} [LinearOrder D]

-- a sort with finitely many elements, which need not know that it is finite
structure FiniteSort (D : Type) extends SortTable D where
  elements : List D
  element_eq : ∀ i, element i = elements[i]?
  contains_iff : ∀ d, contains d = true ↔ d ∈ elements

namespace ComparisonTable

-- the two of vars, and the two that are given to the generator
inductive Container where
  | first
  | second
  | left
  | right
  deriving DecidableEq

inductive Table where
  | strLess
  | strGreater

def Table.type : Table → CompType
  | strLess => .lt
  | strGreater => .gt

def Table.contains (table : Table) (univ : FiniteSort D × FiniteSort D) (tuple : D × D) : Bool :=
  compares table.type tuple.1 tuple.2 && (univ.1.contains tuple.1 && univ.2.contains tuple.2)

def Table.generator (table : Table) (univ : FiniteSort D × FiniteSort D) : ComparisonGenerator Container D :=
  .make univ.1.toSortTable univ.1.toSortTable .left .right .none table.type

def created : Object ComparisonState := ⟨false, ⟨0, 0, true, false⟩⟩

-- what the iterator of begin points at after k steps; a new container holds the integer one
def Table.Iterates (table : Table) (univ : FiniteSort D × FiniteSort D) (one : D) (k : ℕ) (tuple : D × D) : Prop :=
  ∃ r, Run (table.generator univ).toInstGenerator Set.univ created (fun _ => one) k r ∧ r.1.atEnd = false ∧
    (r.2 .first, r.2 .second) = tuple

def Table.IteratesContents (table : Table) (univ : FiniteSort D × FiniteSort D) (one : D) : Prop :=
  ∀ tuple, ((∃ k, table.Iterates univ one k tuple) ↔ table.contains univ tuple = true) ∧
    ∀ k k', table.Iterates univ one k tuple → table.Iterates univ one k' tuple → k = k'

section Frame

variable {V : Type} [DecidableEq V] {g : ComparisonGenerator V D}

omit [LinearOrder D] in
theorem assign_frame {s : ComparisonState} {side : Side} {v v' : V → D} (h : g.assign s side v = some v') :
    EqOn v' v {g.leftvar, g.rightvar}ᶜ := by
  unfold ComparisonGenerator.assign at h
  split at h
  · cases h
    exact eqOn_refl _ _
  · obtain ⟨d, -, rfl⟩ := Option.map_eq_some_iff.mp h
    intro c hc
    refine Function.update_of_ne ?_ d v
    rintro rfl
    cases side
    · exact hc (Or.inl rfl)
    · exact hc (Or.inr rfl)

theorem checkAndSet_frame {s : ComparisonState} {v : V → D} {r : Bool × (V → D)} (h : g.checkAndSet s v = some r) :
    EqOn r.2 v {g.leftvar, g.rightvar}ᶜ := by
  obtain ⟨b, -, h⟩ := Option.bind_eq_some_iff.mp h
  cases b with
  | false =>
    cases h
    exact eqOn_refl _ _
  | true =>
    obtain ⟨v', hv', h⟩ := Option.bind_eq_some_iff.mp h
    obtain ⟨v'', hv'', rfl⟩ := Option.map_eq_some_iff.mp h
    exact (assign_frame hv'').trans (assign_frame hv')

theorem findNext_frame {finiteside undefinedside : Side} {early : Bool} {n : ℕ} {s : Object ComparisonState}
    {v : V → D} {r : Object ComparisonState × (V → D)}
    (h : g.findNext finiteside undefinedside early n (s, v) = some r) : EqOn r.2 v {g.leftvar, g.rightvar}ᶜ := by
  have hvar : ∀ side, g.var side ∈ ({g.leftvar, g.rightvar} : Set V) := by
    rintro (_ | _)
    · exact Or.inl rfl
    · exact Or.inr rfl
  induction n generalizing s v with
  | zero => cases h
  | succ n ih =>
    rw [ComparisonGenerator.findNext] at h
    split at h
    · cases h
      exact eqOn_refl _ _
    · split at h
      · simp only at h
        split at h
        · exact ih h
        · obtain ⟨⟨b, v'⟩, hcheck, h⟩ := Option.bind_eq_some_iff.mp h
          split at h
          · cases h
            exact checkAndSet_frame hcheck
          · split at h
            · exact ih h
            · exact ih h
      · split at h
        · cases h
          intro c hc
          have hne : ∀ side, c ≠ g.var side := by
            rintro side rfl
            exact hc (hvar side)
          exact (Function.update_of_ne (hne _) _ _).trans (Function.update_of_ne (hne _) _ _)
        · exact ih h

theorem next_frame (hinput : g.input = .none) {n : ℕ} {s : Object ComparisonState} {v : V → D}
    {r : Object ComparisonState × (V → D)} (h : g.next n s v = some r) : EqOn r.2 v {g.leftvar, g.rightvar}ᶜ := by
  unfold ComparisonGenerator.next at h
  rw [hinput] at h
  simp only at h
  split at h
  · exact findNext_frame h
  · exact findNext_frame h

theorem run_frame (hinput : g.input = .none) {s : Object g.toInstGenerator.State} {v : V → D} {k : ℕ}
    {r : Object g.toInstGenerator.State × (V → D)} (h : Run g.toInstGenerator Set.univ s v k r) :
    EqOn r.2 v {g.leftvar, g.rightvar}ᶜ := by
  induction h with
  | begin hr =>
    obtain ⟨n, hn⟩ := hr.exists
    exact next_frame hinput hn
  | next _ _ hv hr ih =>
    obtain ⟨n, hn⟩ := hr.exists
    exact (next_frame hinput hn).trans ((hv.mono (subset_univ _)).trans ih)

end Frame

section Search

variable {S : Scan D D} {l : List D} (houter : ∀ i, S.outer i = l[i]?) (hinner : ∀ a i, S.inner a i = l[i]?)

include houter hinner

omit [LinearOrder D]

theorem rows_left {i : ℕ} {a : D} (ha : S.outer i = some a) : ∀ i' < i, ∃ a, S.outer i' = some a ∧
    ∃ j, S.leaves a j = true := by
  intro i' hi'
  have hlt : i < l.length := (List.getElem?_eq_some_iff.mp ((houter i).symm.trans ha)).1
  refine ⟨l[i'], (houter i').trans (List.getElem?_eq_getElem (by omega)), l.length, ?_⟩
  simp [Scan.leaves, hinner]

theorem meets_uncut (hcut : S.cut = false) : (∃ c a b, S.Met c ∧ S.Entry c a b) ↔
    ∃ a ∈ l, ∃ b ∈ l, S.pass a b = true := by
  constructor
  · rintro ⟨⟨i, j⟩, a, b, -, ha, hb, hpass⟩
    exact ⟨a, List.mem_of_getElem? ((houter i).symm.trans ha), b, List.mem_of_getElem? ((hinner a j).symm.trans hb),
      hpass⟩
  · rintro ⟨a, ha, b, hb, hpass⟩
    obtain ⟨i, hi⟩ := List.mem_iff_getElem?.mp ha
    obtain ⟨j, hj⟩ := List.mem_iff_getElem?.mp hb
    have hi' := (houter i).trans hi
    refine ⟨(i, j), a, b, ⟨rows_left houter hinner hi', fun j' hj' => ⟨a, hi', ?_⟩⟩, hi', (hinner a j).trans hj, hpass⟩
    have hlt : j < l.length := (List.getElem?_eq_some_iff.mp hj).1
    rw [Scan.leaves, hinner, List.getElem?_eq_getElem (by omega)]
    simp [hcut]

theorem meets_cut (hcut : S.cut = true) : (∃ c a b, S.Met c ∧ S.Entry c a b) ↔
    ∃ b ∈ l, ∃ a ∈ l, S.pass a b = true ∧ l.head? = some b := by
  constructor
  · rintro ⟨⟨i, j⟩, a, b, hmet, ha, hb, hpass⟩
    have ha' := List.mem_of_getElem? ((houter i).symm.trans ha)
    rcases Nat.eq_zero_or_pos j with rfl | hj
    · have hhead := (hinner a 0).symm.trans hb
      exact ⟨b, List.mem_of_getElem? hhead, a, ha', hpass, List.head?_eq_getElem?.trans hhead⟩
    · obtain ⟨a', houter', hleaves⟩ := hmet.2 0 hj
      obtain rfl := Option.some.inj (ha.symm.trans houter')
      rw [Scan.leaves, hinner] at hleaves
      cases hfirst : l[0]? with
      | none => simp [hfirst] at hleaves
      | some b' =>
        have hpass' : S.pass a b' = true := by simpa [hfirst, hcut] using hleaves
        exact ⟨b', List.mem_of_getElem? hfirst, a, ha', hpass', List.head?_eq_getElem?.trans hfirst⟩
  · rintro ⟨b, -, a, ha, hpass, hhead⟩
    obtain ⟨i, hi⟩ := List.mem_iff_getElem?.mp ha
    have hi' := (houter i).trans hi
    refine ⟨(i, 0), a, b, ⟨rows_left houter hinner hi', fun j' hj' => absurd hj' (Nat.not_lt_zero j')⟩, hi', ?_, hpass⟩
    exact (hinner a 0).trans (List.head?_eq_getElem?.symm.trans hhead)

end Search

omit [LinearOrder D] in
theorem run_begins {V : Type} {G : InstGenerator V D} {A : Set V} {s : Object G.State} {v : V → D} {k : ℕ}
    {r : Object G.State × (V → D)} (h : Run G A s v k r) (hend : r.1.atEnd = false) :
    ∃ r, Returns (fun n => G.begin n s v) r ∧ r.1.atEnd = false := by
  induction h with
  | begin hr => exact ⟨_, hr, hend⟩
  | next _ hend' _ _ ih => exact ih hend'

variable (table : Table) (univ : FiniteSort D × FiniteSort D) (one : D)

-- the generator leaves a row at the first element that does not compare
def Table.cut : Bool :=
  match table with
  | strLess => !univ.1.finite
  | strGreater => univ.1.finite

-- two elements of the first sort of which the generator finds the pair
def Table.Finds : Prop := ∃ a ∈ univ.1.elements, ∃ b ∈ univ.1.elements, a < b ∧
  (table.cut univ = true → univ.1.elements.head? = some a)

theorem iterates_eq {k : ℕ} {tuple : D × D} (h : table.Iterates univ one k tuple) : tuple = (one, one) := by
  obtain ⟨r, hrun, -, rfl⟩ := h
  have hframe := run_frame (g := table.generator univ) rfl hrun
  have hfirst : r.2 Container.first = one := hframe (by rintro (h | h) <;> cases h)
  have hsecond : r.2 Container.second = one := hframe (by rintro (h | h) <;> cases h)
  rw [hfirst, hsecond]

theorem contains_iff {tuple : D × D} : table.contains univ tuple = true ↔
    compares table.type tuple.1 tuple.2 = true ∧ tuple.1 ∈ univ.1.elements ∧ tuple.2 ∈ univ.2.elements := by
  rw [Table.contains, Bool.and_eq_true, Bool.and_eq_true, univ.1.contains_iff, univ.2.contains_iff]

theorem iterates_iff_meets : (∃ k tuple, table.Iterates univ one k tuple) ↔
    ∃ c x y, (table.generator univ).Meets (fun _ => one) x y c := by
  have hgenerates := fun x y => ComparisonGenerator.exists_generates_iff (g := table.generator univ) (x := x) (y := y)
    (s := created) (v := fun _ => one) (show Container.left ≠ .right by decide) nofun
  constructor
  · rintro ⟨k, tuple, r, hrun, hend, -⟩
    obtain ⟨r, hr, hend⟩ := run_begins hrun hend
    obtain ⟨c, hc⟩ := (hgenerates _ _).mp ⟨0, r, .begin hr, hend, rfl, rfl⟩
    exact ⟨c, _, _, hc⟩
  · rintro ⟨c, x, y, hc⟩
    obtain ⟨k, r, hrun, hend, -⟩ := (hgenerates x y).mpr ⟨c, hc⟩
    obtain ⟨r, hr, hend⟩ := run_begins hrun hend
    exact ⟨0, _, r, .begin hr, hend, rfl⟩

theorem meets_iff_finds : (∃ c x y, (table.generator univ).Meets (fun _ => one) x y c) ↔ table.Finds univ := by
  have hsides : (∃ c x y, (table.generator univ).Meets (fun _ => one) x y c) ↔
      ∃ c a b, ((table.generator univ).scan fun _ => one).Met c ∧
        ((table.generator univ).scan fun _ => one).Entry c a b := by
    refine exists_congr fun c => ?_
    unfold ComparisonGenerator.Meets
    cases (table.generator univ).outerSide with
    | left => rfl
    | right => exact exists_comm
  have hsort : ∀ side, (table.generator univ).sort side = univ.1.toSortTable := by
    rintro (_ | _) <;> rfl
  have hinput : (table.generator univ).input = .none := rfl
  have hcomparison : (table.generator univ).comparison = table.type := rfl
  have hne : table.type ≠ .eq := by cases table <;> exact nofun
  have houter : ∀ i, ((table.generator univ).scan fun _ => one).outer i = univ.1.elements[i]? := by
    intro i
    rw [ComparisonGenerator.scan, if_pos hinput, hsort]
    exact univ.1.element_eq i
  have hinner : ∀ a i, ((table.generator univ).scan fun _ => one).inner a i = univ.1.elements[i]? := by
    intro a i
    simp [ComparisonGenerator.scan, hinput, hcomparison, hne, hsort, univ.1.element_eq]
  -- a row is left early if it goes through the smaller elements
  have hpass : ∀ a b, ((table.generator univ).scan fun _ => one).pass a b =
      if table.cut univ then decide (b < a) else decide (a < b) := by
    intro a b
    have hfinite : (table.generator univ).leftsort.finite = univ.1.finite := rfl
    cases table <;> cases hflag : univ.1.finite <;>
      simp [ComparisonGenerator.scan, ComparisonGenerator.passes, Table.cut, ComparisonGenerator.outerSide, hinput,
        hcomparison, hfinite, hflag, Table.type, compares]
  have hcuts : ((table.generator univ).scan fun _ => one).cut = table.cut univ := by
    have hfinite : (table.generator univ).leftsort.finite = univ.1.finite := rfl
    cases table <;> cases hflag : univ.1.finite <;>
      simp [ComparisonGenerator.scan, Table.cut, ComparisonGenerator.cut, ComparisonGenerator.outerSide, hinput,
        hcomparison, hfinite, hflag, Table.type]
  rw [hsides, Table.Finds]
  cases hcut : table.cut univ with
  | true =>
    rw [meets_cut houter hinner (hcuts.trans hcut)]
    simp [hpass, hcut]
  | false =>
    rw [meets_uncut houter hinner (hcuts.trans hcut)]
    simp [hpass, hcut]

theorem iteratesContents_iff : table.IteratesContents univ one ↔
    ¬ table.Finds univ ∧ ∀ x ∈ univ.1.elements, ∀ y ∈ univ.2.elements, compares table.type x y = false := by
  have hirrefl : table.contains univ (one, one) = false := by
    cases table <;> simp [Table.contains, Table.type, compares]
  rw [← meets_iff_finds table univ one, ← iterates_iff_meets]
  constructor
  · intro h
    have hnone : ∀ k tuple, ¬ table.Iterates univ one k tuple := by
      intro k tuple hk
      have hcontains := (h tuple).1.mp ⟨k, hk⟩
      rw [iterates_eq table univ one hk, hirrefl] at hcontains
      cases hcontains
    refine ⟨fun hex => hex.elim fun k hk => hk.elim (hnone k), fun x hx y hy => ?_⟩
    rw [← Bool.not_eq_true]
    intro hcompares
    obtain ⟨k, hk⟩ := (h (x, y)).1.mpr ((contains_iff table univ).mpr ⟨hcompares, hx, hy⟩)
    exact hnone k _ hk
  · rintro ⟨hnone, hcompares⟩ tuple
    refine ⟨iff_of_false (fun hex => hex.elim fun k hk => hnone ⟨k, tuple, hk⟩) fun hcontains => ?_,
      fun k _ hk => absurd ⟨k, tuple, hk⟩ hnone⟩
    obtain ⟨htype, hx, hy⟩ := (contains_iff table univ).mp hcontains
    rw [hcompares _ hx _ hy] at htype
    cases htype

def zeroOne : FiniteSort ℕ where
  toSortTable := enumeratedTable [0, 1]
  elements := [0, 1]
  element_eq _ := rfl
  contains_iff d := by simp [enumeratedTable]

theorem not_iteratesContents_zeroOne : ¬ Table.strLess.IteratesContents (zeroOne, zeroOne) 1 := by
  intro h
  obtain ⟨k, hk⟩ := (h (0, 1)).1.mpr (by decide)
  exact absurd (iterates_eq .strLess (zeroOne, zeroOne) 1 hk) (by decide)

end ComparisonTable

end Generators
