import Mathlib.Order.Interval.Finset.Nat
import Mathlib.Tactic.IntervalCases
import DeclarativeLocalSearch.Structure.SharedTables

namespace LocalSearch

open Structure

-- the tables of an interpretation of the decision variables
structure DecisionInter where
  ct : ℕ
  cf : ℕ
  pt : ℕ
  pf : ℕ

-- ct and pf, and cf and pt, are each one and the same table, or its inverse
structure DecisionInter.Valid {T : Type} (inter : DecisionInter) (m : Memory T) : Prop where
  ctpf : ∃ v w, m.tableView inter.ct = some v ∧ m.tableView inter.pf = some w ∧ w.pointer = v.pointer ∧
    w.table = v.table
  cfpt : ∃ v w, m.tableView inter.cf = some v ∧ m.tableView inter.pt = some w ∧ w.pointer = v.pointer ∧
    w.table = v.table
  pf_ne_ct : inter.pf ≠ inter.ct
  cf_ne_ct : inter.cf ≠ inter.ct

namespace Disturbance

variable {T : Type} [LinearOrder T] [Fintype T]

-- the table that an iterator walks over is still there as it was
def live (m : Memory T) (it : View T) : Bool := m.contentAt it.pointer = some (.enumerated it.table)

-- no result: the iterator is used after a change to its table
def removeLoop (table : ℕ) (it : View T) (picks : Memory T → ℕ → T → Bool) : List T → ℕ → Memory T → Option (Memory T)
  | [], _, m => if live m it then some m else none
  | tuple :: tuples, i, m =>
    if live m it then removeLoop table it picks tuples (i + 1) (if picks m i tuple then m.removeFrom table tuple else m)
    else none

-- remove from the table, while walking over it, the tuples that are picked
def removeTuples (m : Memory T) (table : ℕ) (picks : Memory T → ℕ → T → Bool) : Option (Memory T) :=
  (m.tableView table).bind fun it => removeLoop table it picks it.content.sort 0 m

def getRandom (rand : ℕ) (a b : ℤ) : ℤ := rand % (b - a + 1) + a

def changeInterRandomly (m : Memory T) (inter : DecisionInter) (strength : ℤ) (rand : ℕ) : Option (Memory T) :=
  let size : ℤ := (m.content inter.ct).card
  let strength := if strength ≥ size then size - 1 else strength
  let startindex := getRandom rand 0 (size - strength - 1)
  let endindex := startindex + strength
  removeTuples m inter.ct fun _ i _ => startindex ≤ i && i ≤ endindex

def isDeleted (deleteTable : ℕ) (m : Memory T) (_ : ℕ) (tuple : T) : Bool := tuple ∈ m.content deleteTable

def updateInterWithDeletedTable (m : Memory T) (cttable cftable deleteTable : ℕ) : Option (Memory T) :=
  (removeTuples m cttable (isDeleted deleteTable)).bind fun m => removeTuples m cftable (isDeleted deleteTable)

-- the memory afterwards with the new tables
def disturbFromMove (m : Memory T) (interDecVar : DecisionInter) (deletedVariables : ℕ) :
    Option (Memory T × ℕ × ℕ) :=
  (m.tables interDecVar.ct).bind fun ct =>
    (m.tables interDecVar.cf).bind fun cf =>
      let (m, newcttable) := m.newPredTable ct
      let (m, newcftable) := m.newPredTable cf
      (updateInterWithDeletedTable m newcttable newcftable deletedVariables).map (·, newcttable, newcftable)

section Loop

variable {m m' : Memory T} {table : ℕ} {it : View T} {picks : Memory T → ℕ → T → Bool} {pick : ℕ → T → Bool}

-- another table keeps the one behind the iterator
def Kept (m : Memory T) (table : ℕ) (it : View T) : Prop :=
  ∃ k ≠ table, ∃ v, m.tableView k = some v ∧ v.pointer = it.pointer ∧ v.table = it.table

omit [Fintype T] in
theorem live_of_kept (h : Kept m table it) : live m it = true := by
  obtain ⟨k, -, v, hv, hpointer, htable⟩ := h
  obtain ⟨p, -, hv⟩ := Option.bind_eq_some_iff.mp hv
  rw [live, ← hpointer, ← htable]
  refine decide_eq_true ?_
  unfold Memory.view at hv
  split at hv
  · next s hs =>
    cases hv
    exact hs
  · split at hv
    · next hs =>
      cases hv
      exact hs
    · cases hv
  · cases hv

omit [LinearOrder T] [Fintype T] in
theorem Kept.of_frame (h : Kept m table it) (hframe : Memory.Frame m m' table) : Kept m' table it := by
  obtain ⟨k, hk, v, hv, hpointer⟩ := h
  exact ⟨k, hk, v, (hframe.tableView hk).trans hv, hpointer⟩

-- the tuples that are picked, the first one of which has the number i
def picked (pick : ℕ → T → Bool) (tuples : List T) (i : ℕ) : List T :=
  ((tuples.zipIdx i).filter fun p => pick p.2 p.1).map Prod.fst

theorem removeLoop_spec (hpicks : ∀ m', Memory.Frame m m' table → picks m' = pick) :
    ∀ (tuples : List T) (i : ℕ) {m₁ : Memory T}, Memory.Frame m m₁ table → Kept m₁ table it →
      ∃ m', removeLoop table it picks tuples i m₁ = some m' ∧ Memory.Frame m m' table ∧
        m'.content table = m₁.content table \ (picked pick tuples i).toFinset := by
  intro tuples
  induction tuples with
  | nil =>
    intro i m₁ hframe hkept
    refine ⟨m₁, ?_, hframe, by simp [picked]⟩
    rw [removeLoop, if_pos (live_of_kept hkept)]
  | cons tuple tuples ih =>
    intro i m₁ hframe hkept
    rw [removeLoop, if_pos (live_of_kept hkept), hpicks m₁ hframe]
    cases hpick : pick i tuple with
    | false =>
      obtain ⟨m', hm', hframe', hcontent⟩ := ih (i + 1) hframe hkept
      refine ⟨m', hm', hframe', ?_⟩
      rw [hcontent]
      simp [picked, hpick]
    | true =>
      have hremoved := Memory.removeFrom_removed hframe.valid table tuple
      have hstep := hremoved.toFrame
      obtain ⟨m', hm', hframe', hcontent⟩ := ih (i + 1) (hframe.trans hstep) (hkept.of_frame hstep)
      refine ⟨m', hm', hframe', ?_⟩
      rw [hcontent, hremoved.content]
      simp [picked, hpick, Finset.erase_sdiff_comm, Finset.sdiff_insert]

theorem removeTuples_spec (hm : m.Valid) (hit : m.tableView table = some it) (hkept : Kept m table it)
    (hpicks : ∀ m', Memory.Frame m m' table → picks m' = pick) :
    ∃ m', removeTuples m table picks = some m' ∧ Memory.Frame m m' table ∧
      m'.content table = m.content table \ (picked pick (m.content table).sort 0).toFinset := by
  obtain ⟨m', hm', hframe, hcontent⟩ := removeLoop_spec hpicks it.content.sort 0 (Memory.Frame.refl hm) hkept
  have hcontent' : m.content table = it.content := by rw [Memory.content, hit, Option.elim_some]
  refine ⟨m', ?_, hframe, ?_⟩
  · rw [removeTuples, hit, Option.bind_some, hm']
  · rw [hcontent, hcontent']

omit [LinearOrder T] [Fintype T] in
theorem picked_sublist (tuples : List T) : (picked pick tuples 0).Sublist tuples := by
  have hsublist := (List.filter_sublist (l := tuples.zipIdx) (p := fun p => pick p.2 p.1)).map Prod.fst
  rwa [List.zipIdx_map_fst] at hsublist

omit [Fintype T] in
theorem toFinset_picked {p : T → Bool} (tuples : List T) (i : ℕ) :
    (picked (fun _ tuple => p tuple) tuples i).toFinset = {tuple ∈ tuples.toFinset | p tuple} := by
  induction tuples generalizing i with
  | nil => rfl
  | cons tuple tuples ih =>
    simp only [picked] at ih
    cases hp : p tuple <;> simp [picked, hp, ih, Finset.filter_insert]

theorem removeTuples_isDeleted {deleted : ℕ} (hm : m.Valid) (hit : m.tableView table = some it)
    (hkept : Kept m table it) (hdeleted : deleted ≠ table) :
    ∃ m', removeTuples m table (isDeleted deleted) = some m' ∧ Memory.Frame m m' table ∧
      m'.content table = m.content table \ m.content deleted := by
  have hpicks : ∀ m', Memory.Frame m m' table →
      isDeleted deleted m' = fun _ tuple => decide (tuple ∈ m.content deleted) := by
    intro m' hframe
    funext i tuple
    rw [isDeleted, hframe.content hdeleted]
  obtain ⟨m', hm', hframe, hcontent⟩ := removeTuples_spec hm hit hkept hpicks
  refine ⟨m', hm', hframe, ?_⟩
  rw [hcontent, toFinset_picked]
  ext tuple
  simp
  tauto

omit [LinearOrder T] [Fintype T] in
theorem length_picked {a b : ℕ} {tuples : List T} (hb : b ≤ tuples.length) :
    (picked (fun i _ => a ≤ i && i < b) tuples 0).length = b - a := by
  have hcount : List.countP (fun p : T × ℕ => a ≤ p.2 && p.2 < b) tuples.zipIdx =
      List.countP (fun i => a ≤ i && i < b) (tuples.zipIdx.map Prod.snd) := by
    rw [List.countP_map]
    rfl
  have hico : ((List.range tuples.length).filter fun i => a ≤ i && i < b).toFinset = Finset.Ico a b := by
    ext i
    simp
    omega
  rw [picked, List.length_map, ← List.countP_eq_length_filter, hcount, List.zipIdx_map_snd, ← List.range_eq_range',
    List.countP_eq_length_filter, ← List.toFinset_card_of_nodup (List.nodup_range.filter _), hico, Nat.card_Ico]

end Loop

section Main

variable {m : Memory T} {inter : DecisionInter}

theorem exists_window (size strength rand : ℕ) : ∃ a b : ℕ, b ≤ size ∧ b - a = min (strength + 1) size ∧
    ∀ i : ℕ, (decide (getRandom rand 0 (size - (if (strength : ℤ) ≥ size then (size : ℤ) - 1 else strength) - 1) ≤ i) &&
      decide ((i : ℤ) ≤ getRandom rand 0 (size - (if (strength : ℤ) ≥ size then (size : ℤ) - 1 else strength) - 1) +
        (if (strength : ℤ) ≥ size then (size : ℤ) - 1 else strength))) = (decide (a ≤ i) && decide (i < b)) := by
  generalize hlast : (if (strength : ℤ) ≥ size then (size : ℤ) - 1 else strength) = last
  have hbound : last < size ∧ last + 1 = min (strength + 1) size := by
    split_ifs at hlast <;> omega
  have hnonneg := Int.emod_nonneg (rand : ℤ) (b := size - last - 1 - 0 + 1) (by omega)
  have hlt := Int.emod_lt_of_pos (rand : ℤ) (b := size - last - 1 - 0 + 1) (by omega)
  unfold getRandom
  generalize (rand : ℤ) % (size - last - 1 - 0 + 1) = startindex at *
  refine ⟨startindex.toNat, (startindex + last + 1).toNat, by omega, by omega, fun i => ?_⟩
  rw [Bool.eq_iff_iff, Bool.and_eq_true, Bool.and_eq_true, decide_eq_true_eq, decide_eq_true_eq, decide_eq_true_eq,
    decide_eq_true_eq]
  omega

theorem changeInterRandomly_spec (hm : m.Valid) (hinter : inter.Valid m) (strength rand : ℕ) :
    ∃ m' removed, changeInterRandomly m inter strength rand = some m' ∧ Memory.Frame m m' inter.ct ∧
      removed ⊆ m.content inter.ct ∧ removed.card = min (strength + 1) (m.content inter.ct).card ∧
      m'.content inter.ct = m.content inter.ct \ removed := by
  obtain ⟨v, w, hv, hw, hpointer, htable⟩ := hinter.ctpf
  have hkept : Kept m inter.ct v := ⟨inter.pf, hinter.pf_ne_ct, w, hw, hpointer, htable⟩
  obtain ⟨a, b, hb, hlength, hwindow⟩ := exists_window (m.content inter.ct).card strength rand
  obtain ⟨m', hm', hframe, hcontent⟩ := @removeTuples_spec _ _ _ _ _ _ _ (fun i _ => a ≤ i && i < b) hm hv hkept fun _ _ =>
    funext fun i => funext fun _ => hwindow i
  have hsublist := @picked_sublist _ (fun i _ => a ≤ i && i < b) (m.content inter.ct).sort
  refine ⟨m', _, hm', hframe, fun tuple htuple => ?_, ?_, hcontent⟩
  · exact (Finset.mem_sort _).mp (hsublist.subset (List.mem_toFinset.mp htuple))
  · rw [List.toFinset_card_of_nodup (hsublist.nodup (Finset.sort_nodup _ _)), length_picked (by rwa [Finset.length_sort]),
      hlength]

def Unknown (m : Memory T) (inter : DecisionInter) (tuple : T) : Prop :=
  tuple ∉ m.content inter.ct ∧ tuple ∉ m.content inter.cf

instance : DecidablePred (Unknown m inter) := fun _ => inferInstanceAs (Decidable (_ ∧ _))

def madeUnknown (m m' : Memory T) (inter : DecisionInter) : Finset T :=
  {tuple | Unknown m' inter tuple ∧ ¬ Unknown m inter tuple}

def DisturbsRandomly (m : Memory T) (inter : DecisionInter) (strength rand : ℕ) : Prop :=
  ∃ m', changeInterRandomly m inter strength rand = some m' ∧
    (madeUnknown m m' inter).card = min strength (m.content inter.ct).card ∧
    (∀ tuple ∉ madeUnknown m m' inter, (tuple ∈ m'.content inter.ct ↔ tuple ∈ m.content inter.ct) ∧
      (tuple ∈ m'.content inter.cf ↔ tuple ∈ m.content inter.cf)) ∧
    ∀ table ≠ inter.ct, m'.content table = m.content table

theorem disturbsRandomly_iff (hm : m.Valid) (hinter : inter.Valid m) (strength rand : ℕ) :
    DisturbsRandomly m inter strength rand ↔
      (m.content inter.ct).card ≤ strength ∧ Disjoint (m.content inter.ct) (m.content inter.cf) := by
  obtain ⟨m', removed, hm', hframe, hsubset, hcard, hct⟩ := changeInterRandomly_spec hm hinter strength rand
  have hcf := hframe.content hinter.cf_ne_ct
  have hmade : madeUnknown m m' inter = removed \ m.content inter.cf := by
    ext tuple
    have hmem := @hsubset tuple
    simp only [madeUnknown, Unknown, hct, hcf, Finset.mem_filter, Finset.mem_univ, Finset.mem_sdiff]
    tauto
  constructor
  · rintro ⟨m₁, hm₁, hmin, hkeeps, -⟩
    obtain rfl := Option.some.inj (hm'.symm.trans hm₁)
    -- a tuple that is removed and stays false is not made unknown and not certainly true any more
    have hfalse : ∀ tuple ∈ removed, tuple ∉ m.content inter.cf := by
      intro tuple hremoved hcf
      have hkeep := (hkeeps tuple (by simp [hmade, hcf])).1
      simp [hct, hremoved, hsubset hremoved] at hkeep
    have hall : removed \ m.content inter.cf = removed := Finset.sdiff_eq_self_of_disjoint (Finset.disjoint_left.mpr hfalse)
    rw [hmade, hall, hcard] at hmin
    have hle : (m.content inter.ct).card ≤ strength := by omega
    have heq : removed = m.content inter.ct := Finset.eq_of_subset_of_card_le hsubset (by omega)
    exact ⟨hle, heq ▸ Finset.disjoint_left.mpr hfalse⟩
  · rintro ⟨hle, hdisjoint⟩
    have hall : removed \ m.content inter.cf = removed :=
      Finset.sdiff_eq_self_of_disjoint (Finset.disjoint_of_subset_left hsubset hdisjoint)
    refine ⟨m', hm', ?_, fun tuple htuple => ⟨?_, by rw [hcf]⟩, fun table htable => hframe.content htable⟩
    · rw [hmade, hall, hcard]
      omega
    · rw [hmade, hall] at htuple
      rw [hct, Finset.mem_sdiff, and_iff_left htuple]

def DisturbsFromMove (m : Memory T) (inter : DecisionInter) (deleted : ℕ) : Prop :=
  ∃ m' newcttable newcftable, disturbFromMove m inter deleted = some (m', newcttable, newcftable) ∧
    m'.content newcttable = m.content inter.ct \ m.content deleted ∧
    m'.content newcftable = m.content inter.cf \ m.content deleted ∧
    ∀ table, (m.tables table).isSome → m'.content table = m.content table

theorem disturbsFromMove (hm : m.Valid) (hinter : inter.Valid m) {deleted : ℕ} (hdeleted : (m.tables deleted).isSome) :
    DisturbsFromMove m inter deleted := by
  obtain ⟨v, -, hctv, -⟩ := hinter.ctpf
  obtain ⟨w, -, hcfv, -⟩ := hinter.cfpt
  obtain ⟨p, hp, hv⟩ := Option.bind_eq_some_iff.mp hctv
  obtain ⟨q, hq, hw⟩ := Option.bind_eq_some_iff.mp hcfv
  obtain ⟨content, hcontent⟩ := Memory.contentAt_of_mem (hm.table hp)
  have hvalid₁ := hm.newPredTable hcontent
  have hcontent₁ := Memory.newPredTable_contentAt hcontent
  obtain ⟨content', hcontent'⟩ := Memory.contentAt_of_mem (hm.table hq)
  rw [← hcontent₁] at hcontent'
  have hvalid₂ := hvalid₁.newPredTable hcontent'
  generalize hnew₁ : (m.newPredTable p).1 = m₁ at *
  generalize hnew₂ : (m₁.newPredTable q).1 = m₂ at *
  have hnext : m₁.nextTable = m.nextTable + 1 := by rw [← hnew₁, Memory.newPredTable]
  have hlt : ∀ {k}, (m.tables k).isSome → k < m.nextTable := fun hk =>
    Nat.lt_of_not_le fun hle => by simp [hm.freshTable hle] at hk
  have hold : ∀ {k}, (m.tables k).isSome → m₂.tableView k = m.tableView k := by
    intro k hk
    have hk := hlt hk
    rw [← hnew₂, Memory.newPredTable_tableView hcontent' (by omega), ← hnew₁, Memory.newPredTable_tableView hcontent hk.ne]
  have hct : m₂.tableView m.nextTable = some v := by
    rw [← hnew₂, Memory.newPredTable_tableView hcontent' (by omega), ← hnew₁, Memory.newPredTable_self hcontent, hv]
  have hcf : m₂.tableView m₁.nextTable = some w := by
    have hview : m₁.view q = m.view q := Memory.view_congr (by rw [hcontent₁]) fun _ _ => by rw [hcontent₁]
    rw [← hnew₂, Memory.newPredTable_self hcontent', hview, hw]
  have hcontent_of : ∀ {k k' : ℕ} {m' m'' : Memory T}, m'.tableView k = m''.tableView k' → m'.content k = m''.content k' := by
    intro k k' m' m'' h
    rw [Memory.content, Memory.content, h]
  have hltct := hlt (hp ▸ rfl : (m.tables inter.ct).isSome)
  have hltcf := hlt (hq ▸ rfl : (m.tables inter.cf).isSome)
  have hltdeleted := hlt hdeleted
  have hviewct := (hold (hp ▸ rfl : (m.tables inter.ct).isSome)).trans hctv
  have hviewcf := (hold (hq ▸ rfl : (m.tables inter.cf).isSome)).trans hcfv
  obtain ⟨m₃, hm₃, hframe₃, hcontent₃⟩ := removeTuples_isDeleted hvalid₂ hct
    ⟨inter.ct, hltct.ne, v, hviewct, rfl, rfl⟩ hltdeleted.ne
  have hcf₃ : m₃.tableView m₁.nextTable = some w := (hframe₃.tableView (by omega)).trans hcf
  obtain ⟨m₄, hm₄, hframe₄, hcontent₄⟩ := @removeTuples_isDeleted _ _ _ _ _ _ deleted hframe₃.valid hcf₃
    ⟨inter.cf, by omega, w, (hframe₃.tableView hltcf.ne).trans hviewcf, rfl, rfl⟩ (by omega)
  refine ⟨m₄, m.nextTable, m₁.nextTable, ?_, ?_, ?_, fun table htable => ?_⟩
  · rw [disturbFromMove, hp, Option.bind_some, hq, Option.bind_some]
    have hpair₁ : m.newPredTable p = (m₁, m.nextTable) := Prod.ext hnew₁ rfl
    have hpair₂ : m₁.newPredTable q = (m₂, m₁.nextTable) := Prod.ext hnew₂ rfl
    simp [hpair₁, hpair₂, updateInterWithDeletedTable, hm₃, hm₄]
  · rw [hframe₄.content (by omega), hcontent₃, hcontent_of (hct.trans hctv.symm), hcontent_of (hold hdeleted)]
  · rw [hcontent₄, hframe₃.content (by omega), hframe₃.content hltdeleted.ne, hcontent_of (hcf.trans hcfv.symm),
      hcontent_of (hold hdeleted)]
  · have hlt := hlt htable
    rw [hframe₄.content (by omega), hframe₃.content hlt.ne, hcontent_of (hold htable)]

-- the disturbance that is intended: as many tuples as the strength says, and no other table
def Disturbs (m : Memory T) (inter : DecisionInter) (strength rand : ℕ) : Prop :=
  DisturbsRandomly m inter strength rand ∧ ∀ sol : DecisionInter, sol.Valid m → ∀ deleted, (m.tables deleted).isSome →
    DisturbsFromMove m sol deleted

-- two tuples, both of which are certainly true, in a table with its inverses
def bothTrue : Memory (Fin 2) where
  cells p := [⟨{.table 0, .table 1, .inverse 1, .inverse 2}, .enumerated Finset.univ⟩, ⟨{.table 2}, .inverse 0⟩,
    ⟨{.table 3}, .inverse 0⟩][p]?
  next := 3
  tables h := [0, 0, 1, 2][h]?
  nextTable := 4

def bothTrueInter : DecisionInter := ⟨0, 2, 1, 3⟩

theorem bothTrue_valid : bothTrue.Valid where
  table {h p} hh := by
    have hlt : h < 4 := (List.getElem?_eq_some_iff.mp hh).1
    interval_cases h <;> cases hh <;> decide
  inverse {p q} hp := by
    have hlt : p < 3 := by
      obtain ⟨cell, hcell, -⟩ := Option.map_eq_some_iff.mp hp
      exact (List.getElem?_eq_some_iff.mp hcell).1
    interval_cases p <;> cases hp <;> exact ⟨by decide, Finset.univ, rfl⟩
  fresh {p} hp := by
    have hnone : bothTrue.cells p = none := List.getElem?_eq_none hp
    rw [Memory.contentAt, hnone, Option.map_none]
  freshTable hh := List.getElem?_eq_none hh

theorem bothTrueInter_valid : bothTrueInter.Valid bothTrue :=
  ⟨⟨_, _, rfl, rfl, rfl, rfl⟩, ⟨_, _, rfl, rfl, rfl, rfl⟩, by decide, by decide⟩

end Main

end Disturbance

end LocalSearch
