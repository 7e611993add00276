import Mathlib.Data.Finset.Sort

namespace Structure

abbrev Pointer := ℕ

-- what refers to an internal table: a table, or the internal table that is its inverse
inductive Reference where
  | table (h : ℕ)
  | inverse (p : Pointer)
  deriving DecidableEq

inductive InternTable (T : Type) where
  | enumerated (table : Finset T)
  | inverse (invtable : Pointer)
  deriving DecidableEq

-- the source counts the references and does not list them
structure Cell (T : Type) where
  refs : Finset Reference
  content : InternTable T

structure Memory (T : Type) where
  cells : Pointer → Option (Cell T)
  next : Pointer
  tables : ℕ → Option Pointer
  nextTable : ℕ

-- the enumerated table behind an internal table, and whether the latter is its inverse
structure View (T : Type) where
  pointer : Pointer
  inverse : Bool
  table : Finset T

def View.content {T : Type} [DecidableEq T] [Fintype T] (v : View T) : Finset T :=
  if v.inverse then v.tableᶜ else v.table

namespace Memory

variable {T : Type}

def contentAt (m : Memory T) (p : Pointer) : Option (InternTable T) := (m.cells p).map Cell.content

def refsAt (m : Memory T) (p : Pointer) : Finset Reference := (m.cells p).elim ∅ Cell.refs

def view (m : Memory T) (p : Pointer) : Option (View T) :=
  match m.contentAt p with
  | some (.enumerated table) => some ⟨p, false, table⟩
  | some (.inverse q) =>
    match m.contentAt q with
    | some (.enumerated table) => some ⟨q, true, table⟩
    | _ => none
  | none => none

def tableView (m : Memory T) (h : ℕ) : Option (View T) := (m.tables h).bind m.view

def set (m : Memory T) (p : Pointer) (cell : Option (Cell T)) : Memory T :=
  { m with cells := Function.update m.cells p cell }

def alloc (m : Memory T) (content : InternTable T) : Memory T :=
  { m.set m.next (some ⟨∅, content⟩) with next := m.next + 1 }

def incrementRef (m : Memory T) (p : Pointer) (reference : Reference) : Memory T :=
  match m.cells p with
  | some cell => m.set p (some { cell with refs := insert reference cell.refs })
  | none => m

-- the last reference takes the table with it
def release (m : Memory T) (p : Pointer) (reference : Reference) : Memory T :=
  match m.cells p with
  | some cell =>
    let refs := cell.refs.erase reference
    m.set p (if refs = ∅ then none else some { cell with refs })
  | none => m

-- and the destructor of an inverse table gives up its own reference
def decrementRef (m : Memory T) (p : Pointer) (reference : Reference) : Memory T :=
  match m.cells p, (m.release p reference).cells p with
  | some ⟨_, .inverse q⟩, none => (m.release p reference).release q (.inverse p)
  | _, _ => m.release p reference

-- an inverse table goes over from the table q to the table q'
def setInvtable (m : Memory T) (p q q' : Pointer) : Memory T :=
  let m := (m.decrementRef q (.inverse p)).incrementRef q' (.inverse p)
  m.set p ((m.cells p).map fun cell => { cell with content := .inverse q' })

-- and a table from the internal table p to p'
def setTable (m : Memory T) (h : ℕ) (p p' : Pointer) : Memory T :=
  let m := (m.decrementRef p (.table h)).incrementRef p' (.table h)
  { m with tables := Function.update m.tables h (some p') }

def newPredTable (m : Memory T) (p : Pointer) : Memory T × ℕ :=
  ({ m.incrementRef p (.table m.nextTable) with
    tables := Function.update m.tables m.nextTable (some p), nextTable := m.nextTable + 1 }, m.nextTable)

section Operations

variable [DecidableEq T]

-- EnumeratedInternalPredTable::add and remove
def addEnumerated (m : Memory T) (p : Pointer) (tuple : T) : Memory T × Pointer :=
  match m.cells p with
  | some ⟨refs, .enumerated table⟩ =>
    if refs.card ≤ 1 then (m.set p (some ⟨refs, .enumerated (insert tuple table)⟩), p)
    else (m.alloc (.enumerated (insert tuple table)), m.next)
  | _ => (m, p)

def removeEnumerated (m : Memory T) (p : Pointer) (tuple : T) : Memory T × Pointer :=
  match m.cells p with
  | some ⟨refs, .enumerated table⟩ =>
    if tuple ∈ table then
      if refs.card = 1 then (m.set p (some ⟨refs, .enumerated (table.erase tuple)⟩), p)
      else (m.alloc (.enumerated (table.erase tuple)), m.next)
    else (m, p)
  | _ => (m, p)

-- InverseInternalPredTable::remove, where there is at most one reference to the table
def removeUnshared (m : Memory T) (p q : Pointer) (tuple : T) : Memory T :=
  let (m, temp) := m.addEnumerated q tuple
  if temp ≠ q then m.setInvtable p q temp else m

def getInverseTable (m : Memory T) (q : Pointer) : Memory T :=
  (m.alloc (.inverse q)).incrementRef q (.inverse m.next)

-- there is no reference yet to the new inverse table
def remove (m : Memory T) (p : Pointer) (tuple : T) : Memory T × Pointer :=
  match m.cells p with
  | some ⟨refs, .inverse q⟩ =>
    if refs.card > 1 then ((m.getInverseTable q).removeUnshared m.next q tuple, m.next)
    else (m.removeUnshared p q tuple, p)
  | _ => m.removeEnumerated p tuple

variable [Fintype T]

def content (m : Memory T) (h : ℕ) : Finset T := (m.tableView h).elim ∅ View.content

-- PredTable::remove
def removeFrom (m : Memory T) (h : ℕ) (tuple : T) : Memory T :=
  match m.tables h with
  | some p =>
    if tuple ∈ m.content h then
      let (m, p') := m.remove p tuple
      if p ≠ p' then m.setTable h p p' else m
    else m
  | none => m

end Operations

section References

variable {m : Memory T} {p q q' : Pointer} {reference : Reference} {h : ℕ}

@[simp]
theorem contentAt_set {cell : Cell T} :
    (m.set p (some cell)).contentAt = Function.update m.contentAt p (some cell.content) := by
  funext r
  by_cases h : r = p <;> simp [contentAt, set, h]

@[simp]
theorem refsAt_set {cell : Cell T} : (m.set p (some cell)).refsAt = Function.update m.refsAt p cell.refs := by
  funext r
  by_cases h : r = p <;> simp [refsAt, set, h]

theorem cells_eq {content : InternTable T} (h : m.contentAt p = some content) :
    m.cells p = some ⟨m.refsAt p, content⟩ := by
  obtain ⟨cell, hcell, rfl⟩ := Option.map_eq_some_iff.mp h
  rw [hcell, refsAt, hcell]
  rfl

theorem contentAt_of_mem (h : reference ∈ m.refsAt p) : ∃ content, m.contentAt p = some content := by
  cases hcell : m.cells p with
  | none => simp [refsAt, hcell] at h
  | some cell => exact ⟨cell.content, by rw [contentAt, hcell, Option.map_some]⟩

theorem incrementRef_eq {content : InternTable T} (h : m.contentAt p = some content) :
    m.incrementRef p reference = m.set p (some ⟨insert reference (m.refsAt p), content⟩) := by
  rw [incrementRef, cells_eq h]

theorem decrementRef_eq {content : InternTable T} (h : m.contentAt p = some content)
    (hrefs : ((m.refsAt p).erase reference).Nonempty) :
    m.decrementRef p reference = m.set p (some ⟨(m.refsAt p).erase reference, content⟩) := by
  have hrelease : m.release p reference = m.set p (some ⟨(m.refsAt p).erase reference, content⟩) := by
    simp [release, cells_eq h, hrefs.ne_empty]
  simp [decrementRef, hrelease, set]

theorem contentAt_alloc {content : InternTable T} :
    (m.alloc content).contentAt = Function.update m.contentAt m.next (some content) := contentAt_set

theorem refsAt_alloc {content : InternTable T} :
    (m.alloc content).refsAt = Function.update m.refsAt m.next ∅ := refsAt_set

variable {s s' : Finset T}

theorem decrement_increment {content content' : InternTable T} (hp : m.contentAt p = some content)
    (hq : m.contentAt q = some content') (hne : p ≠ q) (hrefs : ((m.refsAt p).erase reference).Nonempty) :
    (m.decrementRef p reference).incrementRef q reference =
      (m.set p (some ⟨(m.refsAt p).erase reference, content⟩)).set q
        (some ⟨insert reference (m.refsAt q), content'⟩) := by
  have hq' : (m.set p (some ⟨(m.refsAt p).erase reference, content⟩)).contentAt q = some content' := by
    rw [contentAt_set, Function.update_of_ne hne.symm, hq]
  rw [decrementRef_eq hp hrefs, incrementRef_eq hq', refsAt_set, Function.update_of_ne hne.symm]

theorem setInvtable_eq (hp : m.contentAt p = some (.inverse q)) (hq : m.contentAt q = some (.enumerated s))
    (hq' : m.contentAt q' = some (.enumerated s')) (hne : q ≠ q')
    (hrefs : ((m.refsAt q).erase (.inverse p)).Nonempty) :
    m.setInvtable p q q' = ((m.set q (some ⟨(m.refsAt q).erase (.inverse p), .enumerated s⟩)).set q'
      (some ⟨insert (.inverse p) (m.refsAt q'), .enumerated s'⟩)).set p (some ⟨m.refsAt p, .inverse q'⟩) := by
  have hpq : p ≠ q := fun h => by simp [h, hq] at hp
  have hpq' : p ≠ q' := fun h => by simp [h, hq'] at hp
  rw [setInvtable, decrement_increment hq hq' hne hrefs]
  simp [set, hpq, hpq', cells_eq hp]

end References

-- whatever refers to an internal table is among its references, and inverse tables are inverses of enumerated ones
structure Valid (m : Memory T) : Prop where
  table : ∀ {h p}, m.tables h = some p → .table h ∈ m.refsAt p
  inverse : ∀ {p q}, m.contentAt p = some (.inverse q) →
    .inverse p ∈ m.refsAt q ∧ ∃ s, m.contentAt q = some (.enumerated s)
  fresh : ∀ {p}, m.next ≤ p → m.contentAt p = none
  freshTable : ∀ {h}, m.nextTable ≤ h → m.tables h = none

section Valid

variable {m : Memory T} {p q q' : Pointer} {h : ℕ} {s s' : Finset T}

theorem Valid.lt_next (hm : m.Valid) {content : InternTable T} (hp : m.contentAt p = some content) :
    p < m.next := by
  refine Nat.lt_of_not_le fun hle => ?_
  rw [hm.fresh hle] at hp
  cases hp

theorem Valid.refsAt_next (hm : m.Valid) : m.refsAt m.next = ∅ := by
  rw [refsAt, Option.map_eq_none_iff.mp (hm.fresh (Nat.le_refl _)), Option.elim_none]

theorem Valid.edit (hm : m.Valid) (hp : m.contentAt p = some (.enumerated s)) :
    (m.set p (some ⟨m.refsAt p, .enumerated s'⟩)).Valid where
  table hr := by
    rw [refsAt_set, Function.update_eq_self]
    exact hm.table hr
  inverse {r q} hr := by
    rw [contentAt_set, Function.update_apply] at hr
    rw [refsAt_set, Function.update_eq_self, contentAt_set, Function.update_apply]
    split_ifs at hr
    · cases hr
    · obtain ⟨hmem, t, ht⟩ := hm.inverse hr
      refine ⟨hmem, ?_⟩
      split_ifs
      · exact ⟨s', rfl⟩
      · exact ⟨t, ht⟩
  fresh {r} hr := by
    have hne : r ≠ p := (Nat.lt_of_lt_of_le (hm.lt_next hp) hr).ne'
    rw [contentAt_set, Function.update_of_ne hne]
    exact hm.fresh hr
  freshTable hr := hm.freshTable hr

theorem Valid.alloc (hm : m.Valid) : (m.alloc (.enumerated s)).Valid where
  table {h r} hr := by
    have hmem := hm.table hr
    have hne : r ≠ m.next := fun heq => by simp [heq, hm.refsAt_next] at hmem
    rwa [refsAt_alloc, Function.update_of_ne hne]
  inverse {r q} hr := by
    rw [contentAt_alloc, Function.update_apply] at hr
    split_ifs at hr
    · cases hr
    · obtain ⟨hmem, t, ht⟩ := hm.inverse hr
      have hne : q ≠ m.next := (hm.lt_next ht).ne
      rw [refsAt_alloc, contentAt_alloc, Function.update_of_ne hne, Function.update_of_ne hne]
      exact ⟨hmem, t, ht⟩
  fresh {r} hr := by
    have hlt : m.next < r := hr
    rw [contentAt_alloc, Function.update_of_ne hlt.ne']
    exact hm.fresh hlt.le
  freshTable hr := hm.freshTable hr

theorem contentAt_getInverseTable (hm : m.Valid) (hq : m.contentAt q = some (.enumerated s)) :
    (m.getInverseTable q).contentAt = Function.update m.contentAt m.next (some (.inverse q)) := by
  have hq' : (m.alloc (.inverse q)).contentAt q = some (.enumerated s) := by
    rw [contentAt_alloc, Function.update_of_ne (hm.lt_next hq).ne, hq]
  rw [getInverseTable, incrementRef_eq hq', contentAt_set, ← hq', Function.update_eq_self, contentAt_alloc]

theorem refsAt_getInverseTable (hm : m.Valid) (hq : m.contentAt q = some (.enumerated s)) :
    (m.getInverseTable q).refsAt = Function.update m.refsAt q (insert (.inverse m.next) (m.refsAt q)) := by
  have hne : q ≠ m.next := (hm.lt_next hq).ne
  have hq' : (m.alloc (.inverse q)).contentAt q = some (.enumerated s) := by
    rw [contentAt_alloc, Function.update_of_ne hne, hq]
  rw [getInverseTable, incrementRef_eq hq', refsAt_set, refsAt_alloc, Function.update_of_ne hne, ← hm.refsAt_next,
    Function.update_eq_self]

theorem Valid.getInverseTable (hm : m.Valid) (hq : m.contentAt q = some (.enumerated s)) :
    (m.getInverseTable q).Valid := by
  have hcontent := contentAt_getInverseTable hm hq
  have hrefs := refsAt_getInverseTable hm hq
  have hq' : (m.alloc (.inverse q)).contentAt q = some (.enumerated s) := by
    rw [contentAt_alloc, Function.update_of_ne (hm.lt_next hq).ne, hq]
  have hmem : ∀ {r reference}, reference ∈ m.refsAt r → reference ∈ (m.getInverseTable q).refsAt r := by
    intro r reference hr
    rw [hrefs, Function.update_apply]
    split_ifs with h
    · exact Finset.mem_insert_of_mem (h ▸ hr)
    · exact hr
  have hne : q ≠ m.next := (hm.lt_next hq).ne
  refine ⟨fun hr => hmem (hm.table ?_), fun {r t} hr => ?_, fun {r} hr => ?_, fun {r} hr => ?_⟩
  · rwa [Memory.getInverseTable, incrementRef_eq hq'] at hr
  · rw [hcontent, Function.update_apply] at hr
    split_ifs at hr with h
    · cases hr
      refine ⟨by simp [hrefs, h], s, ?_⟩
      rw [hcontent, Function.update_of_ne hne, hq]
    · obtain ⟨hr, u, hu⟩ := hm.inverse hr
      refine ⟨hmem hr, u, ?_⟩
      rw [hcontent, Function.update_of_ne (hm.lt_next hu).ne, hu]
  · rw [Memory.getInverseTable, incrementRef_eq hq'] at hr
    have hlt : m.next < r := hr
    rw [hcontent, Function.update_of_ne hlt.ne']
    exact hm.fresh hlt.le
  · rw [Memory.getInverseTable, incrementRef_eq hq'] at hr ⊢
    exact hm.freshTable hr

theorem contentAt_setInvtable (hp : m.contentAt p = some (.inverse q)) (hq : m.contentAt q = some (.enumerated s))
    (hq' : m.contentAt q' = some (.enumerated s')) (hne : q ≠ q')
    (hrefs : ((m.refsAt q).erase (.inverse p)).Nonempty) :
    (m.setInvtable p q q').contentAt = Function.update m.contentAt p (some (.inverse q')) := by
  rw [setInvtable_eq hp hq hq' hne hrefs]
  simp only [contentAt_set]
  rw [← hq, Function.update_eq_self, ← hq', Function.update_eq_self]

theorem refsAt_setInvtable (hp : m.contentAt p = some (.inverse q)) (hq : m.contentAt q = some (.enumerated s))
    (hq' : m.contentAt q' = some (.enumerated s')) (hne : q ≠ q')
    (hrefs : ((m.refsAt q).erase (.inverse p)).Nonempty) :
    (m.setInvtable p q q').refsAt = Function.update (Function.update m.refsAt q ((m.refsAt q).erase (.inverse p))) q'
      (insert (.inverse p) (m.refsAt q')) := by
  have hpq : p ≠ q := fun h => by simp [h, hq] at hp
  have hpq' : p ≠ q' := fun h => by simp [h, hq'] at hp
  rw [setInvtable_eq hp hq hq' hne hrefs]
  simp only [refsAt_set]
  refine Function.update_eq_iff.mpr ⟨?_, fun _ _ => rfl⟩
  rw [Function.update_of_ne hpq', Function.update_of_ne hpq]

theorem Valid.setInvtable (hm : m.Valid) (hp : m.contentAt p = some (.inverse q))
    (hq : m.contentAt q = some (.enumerated s)) (hq' : m.contentAt q' = some (.enumerated s')) (hne : q ≠ q')
    (hrefs : ((m.refsAt q).erase (.inverse p)).Nonempty) : (m.setInvtable p q q').Valid := by
  have hcontent := contentAt_setInvtable hp hq hq' hne hrefs
  have hrefsAt := refsAt_setInvtable hp hq hq' hne hrefs
  have hmem : ∀ {r reference}, reference ∈ m.refsAt r → reference ≠ .inverse p →
      reference ∈ (m.setInvtable p q q').refsAt r := by
    intro r reference hr hother
    rw [hrefsAt, Function.update_apply, Function.update_apply]
    split_ifs with h h
    · exact Finset.mem_insert_of_mem (h ▸ hr)
    · exact Finset.mem_erase.mpr ⟨hother, h ▸ hr⟩
    · exact hr
  have hpq : p ≠ q := fun h => by simp [h, hq] at hp
  refine ⟨fun hr => hmem (hm.table ?_) nofun, fun {r t} hr => ?_, fun {r} hr => ?_, fun {r} hr => ?_⟩
  · rwa [setInvtable_eq hp hq hq' hne hrefs] at hr
  · rw [hcontent, Function.update_apply] at hr
    split_ifs at hr with h
    · cases hr
      refine ⟨by simp [hrefsAt, h], s', ?_⟩
      rw [hcontent, Function.update_of_ne fun h => by simp [h, hp] at hq', hq']
    · obtain ⟨hr, u, hu⟩ := hm.inverse hr
      refine ⟨hmem hr fun heq => h (Reference.inverse.inj heq), u, ?_⟩
      rw [hcontent, Function.update_of_ne fun h => by simp [h, hp] at hu, hu]
  · rw [setInvtable_eq hp hq hq' hne hrefs] at hr
    rw [hcontent, Function.update_of_ne (Nat.lt_of_lt_of_le (hm.lt_next hp) hr).ne']
    exact hm.fresh hr
  · rw [setInvtable_eq hp hq hq' hne hrefs] at hr ⊢
    exact hm.freshTable hr

theorem setTable_eq {content content' : InternTable T} (hp : m.contentAt p = some content)
    (hq : m.contentAt q = some content') (hne : p ≠ q) (hrefs : ((m.refsAt p).erase (.table h)).Nonempty) :
    m.setTable h p q = { (m.set p (some ⟨(m.refsAt p).erase (.table h), content⟩)).set q
      (some ⟨insert (.table h) (m.refsAt q), content'⟩) with tables := Function.update m.tables h (some q) } := by
  rw [setTable, decrement_increment hp hq hne hrefs]
  rfl

theorem contentAt_setTable {content content' : InternTable T} (hp : m.contentAt p = some content)
    (hq : m.contentAt q = some content') (hne : p ≠ q) (hrefs : ((m.refsAt p).erase (.table h)).Nonempty) :
    (m.setTable h p q).contentAt = m.contentAt := by
  rw [setTable_eq hp hq hne hrefs]
  change ((m.set p (some ⟨_, content⟩)).set q (some ⟨_, content'⟩)).contentAt = _
  rw [contentAt_set, contentAt_set, ← hp, Function.update_eq_self, ← hq, Function.update_eq_self]

theorem Valid.setTable {content content' : InternTable T} (hm : m.Valid) (hh : m.tables h = some p)
    (hp : m.contentAt p = some content) (hq : m.contentAt q = some content') (hne : p ≠ q)
    (hrefs : ((m.refsAt p).erase (.table h)).Nonempty) : (m.setTable h p q).Valid := by
  have hcontent := contentAt_setTable hp hq hne hrefs
  have hrefsAt : (m.setTable h p q).refsAt = Function.update (Function.update m.refsAt p
      ((m.refsAt p).erase (.table h))) q (insert (.table h) (m.refsAt q)) := by
    rw [setTable_eq hp hq hne hrefs]
    change ((m.set p (some ⟨_, content⟩)).set q (some ⟨_, content'⟩)).refsAt = _
    rw [refsAt_set, refsAt_set]
  have hmem : ∀ {r reference}, reference ∈ m.refsAt r → reference ≠ .table h →
      reference ∈ (m.setTable h p q).refsAt r := by
    intro r reference hr hother
    rw [hrefsAt, Function.update_apply, Function.update_apply]
    split_ifs with h h
    · exact Finset.mem_insert_of_mem (h ▸ hr)
    · exact Finset.mem_erase.mpr ⟨hother, h ▸ hr⟩
    · exact hr
  refine ⟨fun {k r} hr => ?_, fun {r t} hr => ?_, fun {r} hr => ?_, fun {k} hr => ?_⟩
  · rw [setTable_eq hp hq hne hrefs] at hr
    simp only [Function.update_apply] at hr
    split_ifs at hr with h
    · cases hr
      simp [hrefsAt, h]
    · exact hmem (hm.table hr) fun heq => h (Reference.table.inj heq)
  · rw [hcontent] at hr ⊢
    obtain ⟨hr, u, hu⟩ := hm.inverse hr
    exact ⟨hmem hr nofun, u, hu⟩
  · rw [hcontent]
    rw [setTable_eq hp hq hne hrefs] at hr
    exact hm.fresh hr
  · rw [setTable_eq hp hq hne hrefs] at hr ⊢
    have hne : k ≠ h := fun heq => by
      have hnone := hm.freshTable hr
      rw [heq, hh] at hnone
      cases hnone
    exact (Function.update_of_ne hne _ _).trans (hm.freshTable hr)

end Valid

section Frame

variable {m m' : Memory T} {p q : Pointer} {k : ℕ}

theorem view_congr (hp : m'.contentAt p = m.contentAt p)
    (hq : ∀ q, m.contentAt p = some (.inverse q) → m'.contentAt q = m.contentAt q) : m'.view p = m.view p := by
  unfold view
  rw [hp]
  cases hcontent : m.contentAt p with
  | none => rfl
  | some content =>
    cases content with
    | enumerated table => rfl
    | inverse q => simp only [hq q hcontent]

theorem tableView_congr (htables : m'.tables k = m.tables k)
    (hp : ∀ p, m.tables k = some p → m'.contentAt p = m.contentAt p)
    (hq : ∀ p q, m.tables k = some p → m.contentAt p = some (.inverse q) → m'.contentAt q = m.contentAt q) :
    m'.tableView k = m.tableView k := by
  unfold tableView
  rw [htables]
  cases hk : m.tables k with
  | none => rfl
  | some p => exact view_congr (hp p hk) fun q => hq p q hk

theorem eq_of_card_le_one {refs : Finset Reference} {reference reference' : Reference} (hcard : refs.card ≤ 1)
    (h : reference ∈ refs) (h' : reference' ∈ refs) : reference = reference' := Finset.card_le_one.mp hcard _ h _ h'

theorem erase_nonempty {refs : Finset Reference} {reference : Reference} (hcard : 1 < refs.card) :
    (refs.erase reference).Nonempty := (Finset.one_lt_card_iff_nontrivial.mp hcard).erase_nonempty

end Frame

-- no table changes but the given one
structure Frame (m m' : Memory T) (table : ℕ) : Prop where
  valid : m'.Valid
  tableView : ∀ {k}, k ≠ table → m'.tableView k = m.tableView k
  nextTable : m'.nextTable = m.nextTable

theorem Frame.refl {m : Memory T} {table : ℕ} (hm : m.Valid) : Frame m m table := ⟨hm, fun _ => rfl, rfl⟩

theorem Frame.trans {m m' m'' : Memory T} {table : ℕ} (h : Frame m m' table) (h' : Frame m' m'' table) :
    Frame m m'' table :=
  ⟨h'.valid, fun hk => (h'.tableView hk).trans (h.tableView hk), h'.nextTable.trans h.nextTable⟩

theorem Frame.content [DecidableEq T] [Fintype T] {m m' : Memory T} {table k : ℕ} (h : Frame m m' table)
    (hk : k ≠ table) : m'.content k = m.content k := by
  rw [Memory.content, Memory.content, h.tableView hk]

section NewTable

variable {m : Memory T} {p : Pointer} {content : InternTable T}

theorem newPredTable_contentAt (hp : m.contentAt p = some content) : (m.newPredTable p).1.contentAt = m.contentAt := by
  rw [newPredTable, incrementRef_eq hp]
  change (m.set p (some ⟨_, content⟩)).contentAt = _
  rw [contentAt_set, ← hp, Function.update_eq_self]

theorem newPredTable_tables (hp : m.contentAt p = some content) :
    (m.newPredTable p).1.tables = Function.update m.tables m.nextTable (some p) := by
  rw [newPredTable, incrementRef_eq hp, set]

theorem newPredTable_tableView (hp : m.contentAt p = some content) {k : ℕ} (hk : k ≠ m.nextTable) :
    (m.newPredTable p).1.tableView k = m.tableView k := by
  have hcontent := newPredTable_contentAt hp
  refine tableView_congr ?_ (fun _ _ => by rw [hcontent]) (fun _ _ _ _ => by rw [hcontent])
  rw [newPredTable_tables hp, Function.update_of_ne hk]

theorem newPredTable_self (hp : m.contentAt p = some content) :
    (m.newPredTable p).1.tableView m.nextTable = m.view p := by
  have hcontent := newPredTable_contentAt hp
  rw [tableView, newPredTable_tables hp, Function.update_self, Option.bind_some]
  exact view_congr (by rw [hcontent]) fun _ _ => by rw [hcontent]

theorem Valid.newPredTable (hm : m.Valid) (hp : m.contentAt p = some content) : (m.newPredTable p).1.Valid := by
  have hcontent := newPredTable_contentAt hp
  have hrefsAt : (m.newPredTable p).1.refsAt = Function.update m.refsAt p (insert (.table m.nextTable) (m.refsAt p)) := by
    rw [Memory.newPredTable, incrementRef_eq hp]
    change (m.set p (some ⟨_, content⟩)).refsAt = _
    rw [refsAt_set]
  have hmem : ∀ {r reference}, reference ∈ m.refsAt r → reference ∈ (m.newPredTable p).1.refsAt r := by
    intro r reference hr
    rw [hrefsAt, Function.update_apply]
    split_ifs with h
    · exact Finset.mem_insert_of_mem (h ▸ hr)
    · exact hr
  refine ⟨fun {k r} hr => ?_, fun {r t} hr => ?_, fun {r} hr => ?_, fun {k} hr => ?_⟩
  · rw [newPredTable_tables hp, Function.update_apply] at hr
    split_ifs at hr with h
    · cases hr
      simp [hrefsAt, h]
    · exact hmem (hm.table hr)
  · rw [hcontent] at hr ⊢
    obtain ⟨hr, u, hu⟩ := hm.inverse hr
    exact ⟨hmem hr, u, hu⟩
  · rw [hcontent]
    rw [Memory.newPredTable, incrementRef_eq hp] at hr
    exact hm.fresh hr
  · have hlt : m.nextTable < k := hr
    rw [newPredTable_tables hp, Function.update_of_ne hlt.ne']
    exact hm.freshTable hlt.le

end NewTable

section Removed

variable [DecidableEq T] [Fintype T] {m m' : Memory T} {p q p' : Pointer} {h : ℕ} {s : Finset T} {tuple : T}

theorem content_enumerated (hh : m.tables h = some p) (hp : m.contentAt p = some (.enumerated s)) :
    m.content h = s := by
  simp [content, tableView, view, hh, hp, View.content]

theorem content_inverse (hh : m.tables h = some p) (hp : m.contentAt p = some (.inverse q))
    (hq : m.contentAt q = some (.enumerated s)) : m.content h = sᶜ := by
  simp [content, tableView, view, hh, hp, hq, View.content]

-- the table h loses the tuple, and no other table changes
structure Removed (m m' : Memory T) (h : ℕ) (tuple : T) : Prop extends Frame m m' h where
  content : m'.content h = (m.content h).erase tuple

theorem Removed.refl (hm : m.Valid) (ht : tuple ∉ m.content h) : Removed m m h tuple :=
  ⟨Frame.refl hm, (Finset.erase_eq_of_notMem ht).symm⟩

theorem removed_edit (hm : m.Valid) (hh : m.tables h = some p) (hp : m.contentAt p = some (.enumerated s))
    (hcard : (m.refsAt p).card ≤ 1) :
    Removed m (m.set p (some ⟨m.refsAt p, .enumerated (s.erase tuple)⟩)) h tuple where
  valid := hm.edit hp
  tableView {k} hk := by
    have hother : ∀ r, m.tables k = some r → r ≠ p := by
      rintro r hr rfl
      exact hk (Reference.table.inj (eq_of_card_le_one hcard (hm.table hr) (hm.table hh)))
    refine tableView_congr rfl (fun r hr => ?_) (fun r q hr hq => ?_)
    · rw [contentAt_set, Function.update_of_ne (hother r hr)]
    · have hne : q ≠ p := by
        rintro rfl
        exact absurd (eq_of_card_le_one hcard (hm.inverse hq).1 (hm.table hh)) nofun
      rw [contentAt_set, Function.update_of_ne hne]
  content := by
    rw [content_enumerated hh hp]
    exact content_enumerated hh (by rw [contentAt_set, Function.update_self])
  nextTable := rfl

theorem removed_edit_inverse (hm : m.Valid) (hh : m.tables h = some p) (hp : m.contentAt p = some (.inverse q))
    (hq : m.contentAt q = some (.enumerated s)) (hcard : (m.refsAt p).card ≤ 1) (hcard' : (m.refsAt q).card ≤ 1) :
    Removed m (m.set q (some ⟨m.refsAt q, .enumerated (insert tuple s)⟩)) h tuple where
  valid := hm.edit hq
  tableView {k} hk := by
    have hmem := (hm.inverse hp).1
    refine tableView_congr rfl (fun r hr => ?_) (fun r q' hr hq' => ?_)
    · have hne : r ≠ q := by
        rintro rfl
        exact absurd (eq_of_card_le_one hcard' (hm.table hr) hmem) nofun
      rw [contentAt_set, Function.update_of_ne hne]
    · have hne : q' ≠ q := by
        rintro rfl
        obtain rfl := Reference.inverse.inj (eq_of_card_le_one hcard' (hm.inverse hq').1 hmem)
        exact hk (Reference.table.inj (eq_of_card_le_one hcard (hm.table hr) (hm.table hh)))
      rw [contentAt_set, Function.update_of_ne hne]
  content := by
    have hpq : p ≠ q := fun heq => by simp [heq, hq] at hp
    rw [content_inverse hh hp hq, ← Finset.compl_insert]
    refine content_inverse (q := q) hh ?_ ?_
    · rw [contentAt_set, Function.update_of_ne hpq, hp]
    · rw [contentAt_set, Function.update_self]
  nextTable := rfl

omit [DecidableEq T] [Fintype T] in
theorem setInvtable_alloc (hm : m.Valid) (hp : m.contentAt p = some (.inverse q))
    (hq : m.contentAt q = some (.enumerated s)) (hcard : 1 < (m.refsAt q).card) {s' : Finset T} :
    ∃ m' : Memory T, (m.alloc (.enumerated s')).setInvtable p q m.next = m' ∧ m'.Valid ∧ m'.tables = m.tables ∧
      m'.nextTable = m.nextTable ∧ m'.contentAt p = some (.inverse m.next) ∧
      m'.contentAt m.next = some (.enumerated s') ∧
      (∀ r content, m.contentAt r = some content → r ≠ p → m'.contentAt r = some content) ∧
      (∀ r, r ≠ q → r ≠ m.next → m'.refsAt r = m.refsAt r) := by
  have hlt := hm.lt_next hq
  have hp' : (m.alloc (.enumerated s')).contentAt p = some (.inverse q) := by
    rw [contentAt_alloc, Function.update_of_ne (hm.lt_next hp).ne, hp]
  have hq' : (m.alloc (.enumerated s')).contentAt q = some (.enumerated s) := by
    rw [contentAt_alloc, Function.update_of_ne hlt.ne, hq]
  have hnext : (m.alloc (.enumerated s')).contentAt m.next = some (.enumerated s') := by
    rw [contentAt_alloc, Function.update_self]
  have hrefs : (((m.alloc (.enumerated s')).refsAt q).erase (.inverse p)).Nonempty := by
    rw [refsAt_alloc, Function.update_of_ne hlt.ne]
    exact erase_nonempty hcard
  have hcontent := contentAt_setInvtable hp' hq' hnext hlt.ne hrefs
  refine ⟨_, rfl, hm.alloc.setInvtable hp' hq' hnext hlt.ne hrefs, ?_, ?_, ?_, ?_, fun r content hr hne => ?_,
    fun r hrq hr => ?_⟩
  · rw [setInvtable_eq hp' hq' hnext hlt.ne hrefs]
    rfl
  · rw [setInvtable_eq hp' hq' hnext hlt.ne hrefs]
    rfl
  · rw [hcontent, Function.update_self]
  · rw [hcontent, Function.update_of_ne (hm.lt_next hp).ne', hnext]
  · rw [hcontent, Function.update_of_ne hne, contentAt_alloc, Function.update_of_ne (hm.lt_next hr).ne, hr]
  · rw [refsAt_setInvtable hp' hq' hnext hlt.ne hrefs, Function.update_of_ne hr, Function.update_of_ne hrq, refsAt_alloc,
      Function.update_of_ne hr]

theorem removed_setInvtable (hm : m.Valid) (hh : m.tables h = some p) (hp : m.contentAt p = some (.inverse q))
    (hq : m.contentAt q = some (.enumerated s)) (hcard : (m.refsAt p).card ≤ 1) (hcard' : 1 < (m.refsAt q).card) :
    Removed m ((m.alloc (.enumerated (insert tuple s))).setInvtable p q m.next) h tuple := by
  obtain ⟨m', heq, hm', htables, hnextTable, hp', hnext, hold, -⟩ := @setInvtable_alloc _ _ _ _ _ hm hp hq hcard' (insert tuple s)
  rw [heq]
  refine ⟨⟨hm', fun {k} hk => tableView_congr (by rw [htables]) (fun r hr => ?_) (fun r q' hr hq' => ?_), hnextTable⟩, ?_⟩
  · have hne : r ≠ p := by
      rintro rfl
      exact hk (Reference.table.inj (eq_of_card_le_one hcard (hm.table hr) (hm.table hh)))
    obtain ⟨content, hcontent⟩ := contentAt_of_mem (hm.table hr)
    rw [hcontent, hold r content hcontent hne]
  · obtain ⟨-, t, ht⟩ := hm.inverse hq'
    rw [ht, hold q' _ ht fun heq => by simp [heq, hp] at ht]
  · rw [content_inverse hh hp hq, ← Finset.compl_insert]
    exact content_inverse (by rw [htables, hh]) hp' hnext

theorem removed_setTable {m₁ : Memory T} {content content' : InternTable T} (hm : m.Valid) (hm₁ : m₁.Valid)
    (hh : m.tables h = some p) (hp : m.contentAt p = some content) (hp' : m₁.contentAt p' = some content')
    (htables : m₁.tables = m.tables) (hnextTable : m₁.nextTable = m.nextTable)
    (hold : ∀ r content, m.contentAt r = some content → m₁.contentAt r = some content)
    (hrefs : 1 < (m₁.refsAt p).card) (hne : p ≠ p')
    (hcontent : ∀ m₂ : Memory T, m₂.tables h = some p' → m₂.contentAt = m₁.contentAt →
      m₂.content h = (m.content h).erase tuple) :
    Removed m (m₁.setTable h p p') h tuple := by
  have herase : ((m₁.refsAt p).erase (.table h)).Nonempty := erase_nonempty hrefs
  have hset := contentAt_setTable (hold p content hp) hp' hne herase
  have hset' : ∀ r content, m.contentAt r = some content → (m₁.setTable h p p').contentAt r = m.contentAt r := by
    intro r content hr
    rw [hset, hold r content hr, hr]
  have heq := setTable_eq (hold p content hp) hp' hne herase
  refine ⟨⟨hm₁.setTable (by rw [htables, hh]) (hold p content hp) hp' hne herase, fun {k} hk =>
    tableView_congr ?_ (fun r hr => ?_) (fun r q hr hq => ?_), ?_⟩, hcontent _ ?_ hset⟩
  · rw [heq]
    exact (Function.update_of_ne hk _ _).trans (congrFun htables k)
  · obtain ⟨content, hcontent⟩ := contentAt_of_mem (hm.table hr)
    exact hset' r content hcontent
  · obtain ⟨-, t, ht⟩ := hm.inverse hq
    exact hset' q _ ht
  · rw [heq]
    exact hnextTable
  · rw [heq]
    exact Function.update_self _ _ _

theorem removed_copy (hm : m.Valid) (hh : m.tables h = some p) (hp : m.contentAt p = some (.enumerated s))
    (hcard : 1 < (m.refsAt p).card) :
    Removed m ((m.alloc (.enumerated (s.erase tuple))).setTable h p m.next) h tuple := by
  have hne := (hm.lt_next hp).ne
  refine removed_setTable hm hm.alloc hh hp (by rw [contentAt_alloc, Function.update_self]) rfl rfl (fun r content hr => ?_)
    ?_ hne fun m₂ hh₂ hm₂ => ?_
  · rw [contentAt_alloc, Function.update_of_ne (hm.lt_next hr).ne, hr]
  · rwa [refsAt_alloc, Function.update_of_ne hne]
  · rw [content_enumerated hh hp]
    exact content_enumerated hh₂ (by rw [hm₂, contentAt_alloc, Function.update_self])

omit [Fintype T] in
theorem removeUnshared_edit (hq : m.contentAt q = some (.enumerated s)) (hcard : (m.refsAt q).card ≤ 1) :
    m.removeUnshared p q tuple = m.set q (some ⟨m.refsAt q, .enumerated (insert tuple s)⟩) := by
  simp [removeUnshared, addEnumerated, cells_eq hq, hcard]

omit [Fintype T] in
theorem removeUnshared_copy (hm : m.Valid) (hq : m.contentAt q = some (.enumerated s)) (hcard : 1 < (m.refsAt q).card) :
    m.removeUnshared p q tuple = (m.alloc (.enumerated (insert tuple s))).setInvtable p q m.next := by
  simp [removeUnshared, addEnumerated, cells_eq hq, Nat.not_le.mpr hcard, (hm.lt_next hq).ne']

theorem removed_inverse (hm : m.Valid) (hh : m.tables h = some p) (hp : m.contentAt p = some (.inverse q))
    (hq : m.contentAt q = some (.enumerated s)) (hcard : (m.refsAt p).card ≤ 1) :
    Removed m (m.removeUnshared p q tuple) h tuple := by
  cases Nat.lt_or_ge 1 (m.refsAt q).card with
  | inl hcard' =>
    rw [removeUnshared_copy hm hq hcard']
    exact removed_setInvtable hm hh hp hq hcard hcard'
  | inr hcard' =>
    rw [removeUnshared_edit hq hcard']
    exact removed_edit_inverse hm hh hp hq hcard hcard'

theorem removed_copy_inverse (hm : m.Valid) (hh : m.tables h = some p) (hp : m.contentAt p = some (.inverse q))
    (hq : m.contentAt q = some (.enumerated s)) (hcard : 1 < (m.refsAt p).card) :
    Removed m (((m.getInverseTable q).removeUnshared m.next q tuple).setTable h p m.next) h tuple := by
  have hm₁ := hm.getInverseTable hq
  have hcontent := contentAt_getInverseTable hm hq
  have hrefs := refsAt_getInverseTable hm hq
  have hlt := hm.lt_next hq
  have hlt' := hm.lt_next hp
  have hpq : p ≠ q := fun heq => by simp [heq, hq] at hp
  have hq' : (m.alloc (.inverse q)).contentAt q = some (.enumerated s) := by
    rw [contentAt_alloc, Function.update_of_ne hlt.ne, hq]
  have hnext₁ : (m.getInverseTable q).next = m.next + 1 := by
    rw [getInverseTable, incrementRef_eq hq']
    rfl
  have htables₁ : (m.getInverseTable q).tables = m.tables := by
    rw [getInverseTable, incrementRef_eq hq']
    rfl
  have hnextTable₁ : (m.getInverseTable q).nextTable = m.nextTable := by
    rw [getInverseTable, incrementRef_eq hq']
    rfl
  have hq₁ : (m.getInverseTable q).contentAt q = some (.enumerated s) := by
    rw [hcontent, Function.update_of_ne hlt.ne, hq]
  have hp₁ : (m.getInverseTable q).contentAt m.next = some (.inverse q) := by
    rw [hcontent, Function.update_self]
  have hcard₁ : 1 < ((m.getInverseTable q).refsAt q).card := by
    refine Finset.one_lt_card.mpr ⟨.inverse m.next, ?_, .inverse p, ?_, fun heq => hlt'.ne' (Reference.inverse.inj heq)⟩
    · rw [hrefs, Function.update_self]
      exact Finset.mem_insert_self _ _
    · rw [hrefs, Function.update_self]
      exact Finset.mem_insert_of_mem (hm.inverse hp).1
  obtain ⟨m₂, heq, hm₂, htables₂, hnextTable₂, hp₂, hnext₂, hold₂, hrefs₂⟩ :=
    @setInvtable_alloc _ _ _ _ _ hm₁ hp₁ hq₁ hcard₁ (insert tuple s)
  rw [removeUnshared_copy hm₁ hq₁ hcard₁, heq]
  refine removed_setTable hm hm₂ hh hp hp₂ (htables₂.trans htables₁) (hnextTable₂.trans hnextTable₁)
    (fun r content hr => hold₂ r content ?_ (hm.lt_next hr).ne) ?_ hlt'.ne fun m₃ hh₃ hm₃ => ?_
  · rw [hcontent, Function.update_of_ne (hm.lt_next hr).ne, hr]
  · have hne : p ≠ (m.getInverseTable q).next := by
      rw [hnext₁]
      exact (Nat.lt_succ_of_lt hlt').ne
    rwa [hrefs₂ p hpq hne, hrefs, Function.update_of_ne hpq]
  · rw [content_inverse hh hp hq, ← Finset.compl_insert]
    exact content_inverse hh₃ (by rw [hm₃, hp₂]) (by rw [hm₃, hnext₂])

theorem removeFrom_eq {m' : Memory T} (hh : m.tables h = some p) (ht : tuple ∈ m.content h)
    (hremove : m.remove p tuple = (m', p')) : m.removeFrom h tuple = if p ≠ p' then m'.setTable h p p' else m' := by
  simp [removeFrom, hh, ht, hremove]

theorem removed_enumerated (hm : m.Valid) (hh : m.tables h = some p) (hp : m.contentAt p = some (.enumerated s))
    (ht : tuple ∈ s) : Removed m (m.removeFrom h tuple) h tuple := by
  have hmem : tuple ∈ m.content h := by rwa [content_enumerated hh hp]
  have hremove : m.remove p tuple = m.removeEnumerated p tuple := by rw [remove, cells_eq hp]
  rw [removeEnumerated, cells_eq hp] at hremove
  simp only [if_pos ht] at hremove
  have hpos : 0 < (m.refsAt p).card := Finset.card_pos.mpr ⟨_, hm.table hh⟩
  split_ifs at hremove with hcard
  · rw [removeFrom_eq hh hmem hremove, if_neg (not_not_intro rfl)]
    exact removed_edit hm hh hp hcard.le
  · rw [removeFrom_eq hh hmem hremove, if_pos (hm.lt_next hp).ne]
    exact removed_copy hm hh hp (Nat.lt_of_le_of_ne hpos (Ne.symm hcard))

theorem removed_of_inverse (hm : m.Valid) (hh : m.tables h = some p) (hp : m.contentAt p = some (.inverse q))
    (hq : m.contentAt q = some (.enumerated s)) (ht : tuple ∉ s) : Removed m (m.removeFrom h tuple) h tuple := by
  have hmem : tuple ∈ m.content h := by rwa [content_inverse hh hp hq, Finset.mem_compl]
  cases Nat.lt_or_ge 1 (m.refsAt p).card with
  | inl hcard =>
    have hremove : m.remove p tuple = ((m.getInverseTable q).removeUnshared m.next q tuple, m.next) := by
      simp [remove, cells_eq hp, hcard]
    rw [removeFrom_eq hh hmem hremove, if_pos (hm.lt_next hp).ne]
    exact removed_copy_inverse hm hh hp hq hcard
  | inr hcard =>
    have hremove : m.remove p tuple = (m.removeUnshared p q tuple, p) := by
      simp [remove, cells_eq hp, Nat.not_lt.mpr hcard]
    rw [removeFrom_eq hh hmem hremove, if_neg (not_not_intro rfl)]
    exact removed_inverse hm hh hp hq hcard

theorem removeFrom_removed (hm : m.Valid) (h : ℕ) (tuple : T) : Removed m (m.removeFrom h tuple) h tuple := by
  cases hh : m.tables h with
  | none =>
    rw [removeFrom, hh]
    exact Removed.refl hm (by simp [content, tableView, hh])
  | some p =>
    by_cases ht : tuple ∈ m.content h
    · obtain ⟨content, hp⟩ := contentAt_of_mem (hm.table hh)
      cases content with
      | enumerated s => exact removed_enumerated hm hh hp (content_enumerated hh hp ▸ ht)
      | inverse q =>
        obtain ⟨-, s, hq⟩ := hm.inverse hp
        rw [content_inverse hh hp hq, Finset.mem_compl] at ht
        exact removed_of_inverse hm hh hp hq ht
    · rw [removeFrom, hh]
      simp only [if_neg ht]
      exact Removed.refl hm ht

end Removed

end Memory

end Structure
