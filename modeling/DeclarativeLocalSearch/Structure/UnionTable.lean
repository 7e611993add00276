import DeclarativeLocalSearch.Structure.Compare
import DeclarativeLocalSearch.Structure.UnionIterator

namespace Structure

open UnionInternalIterator

section Run

variable {α : Type} [LinearOrder α] {contains : α → Bool}

-- the calls of setcurriterator, each with the tuple that was given last
inductive Calls (contains : α → Bool) :
    Option α → List (List α) → Option α → List (List α) → Prop where
  | here {last : Option α} {its : List (List α)} : Calls contains last its last its
  | next {last last' : Option α} {its its' : List (List α)} {t : α} :
      (setcurriterator contains its).deref = some t →
      Calls contains (some t) (setcurriterator contains its).advance last' its' →
      Calls contains last its last' its'

def NeverDrops (contains : α → Bool) (last : Option α) (its : List (List α)) : Prop :=
  ∀ last' its', Calls contains last its last' its' → ¬ Drops contains last' its'

theorem neverDrops_of_none {last : Option α} {its : List (List α)}
    (h : (setcurriterator contains its).deref = none) :
    NeverDrops contains last its ↔ ¬ Drops contains last its := by
  refine ⟨fun hn => hn _ _ Calls.here, fun hn last' its' hc => ?_⟩
  cases hc with
  | here => exact hn
  | next hd _ => rw [h] at hd; cases hd

theorem neverDrops_of_some {last : Option α} {its : List (List α)} {t : α}
    (h : (setcurriterator contains its).deref = some t) :
    NeverDrops contains last its ↔ ¬ Drops contains last its ∧
      NeverDrops contains (some t) (setcurriterator contains its).advance := by
  refine ⟨fun hn => ⟨hn _ _ Calls.here, fun _ _ hc => hn _ _ (Calls.next h hc)⟩, ?_⟩
  rintro ⟨hd, hn⟩ last' its' hc
  cases hc with
  | here => exact hd
  | next ht hc =>
    rw [h] at ht
    cases ht
    exact hn _ _ hc

theorem sorted_of_suffix {its' its : List (List α)} (h : List.Forall₂ (· <:+ ·) its' its)
    (hs : Sorted its) : Sorted its' := by
  induction h with
  | nil => exact hs
  | cons h _ ih =>
    intro r hr
    rcases List.mem_cons.mp hr with rfl | hr
    · exact (hs _ List.mem_cons_self).sublist h.sublist
    · exact ih (fun q hq => hs q (List.mem_cons_of_mem _ hq)) r hr

def OutsLast (contains : α → Bool) (its : List (List α)) : Prop :=
  ∀ r ∈ its, ∀ o ∈ r, ∀ t ∈ r, contains o = false → o < t → contains t = false

theorem outsLast_of_suffix {its' its : List (List α)} (h : List.Forall₂ (· <:+ ·) its' its)
    (ho : OutsLast contains its) : OutsLast contains its' := by
  induction h with
  | nil => exact ho
  | cons h _ ih =>
    intro r hr
    rcases List.mem_cons.mp hr with rfl | hr
    · exact fun o ho' t ht => ho _ List.mem_cons_self o (h.mem ho') t (h.mem ht)
    · exact ih (fun q hq => ho q (List.mem_cons_of_mem _ hq)) r hr

theorem not_drops_of_outsLast {last : Option α} {its : List (List α)} (hs : Sorted its)
    (ho : OutsLast contains its) : ¬ Drops contains last its := by
  rintro ⟨t, hc, -, ht, hl⟩
  obtain ⟨r, hr, hready, htr⟩ := exists_not_ready ht hl
  cases r with
  | nil => cases htr
  | cons o r =>
    have hout : contains o = false := hready
    rcases List.mem_cons.mp htr with rfl | htail
    · exact absurd hc (by simp [hout])
    · have hlt := (List.pairwise_cons.mp (hs _ hr)).1 t htail
      exact absurd hc (by simp [ho _ hr o List.mem_cons_self t htr hout hlt])

theorem neverDrops_of_outsLast {last : Option α} {its : List (List α)} (hs : Sorted its)
    (ho : OutsLast contains its) : NeverDrops contains last its := by
  intro last' its' hc
  induction hc with
  | here => exact not_drops_of_outsLast hs ho
  | next _ _ ih =>
    have hsuffix := setcurriterator_suffix contains hs
    exact ih (sorted_of_suffix (suffix_advance _) (sorted_of_suffix hsuffix hs))
      (outsLast_of_suffix (suffix_advance _) (outsLast_of_suffix hsuffix ho))

variable (contains) in
theorem collect_spec (n : ℕ) (last : Option α) {its : List (List α)} (hs : Sorted its)
    (hn : its.flatten.length < n) (hlast : ∀ t, Pool contains its t → ∀ v ∈ last, v < t) :
    ∃ ts, collect contains n (setcurriterator contains its) = some ts ∧ ts.Pairwise (· < ·) ∧
      (∀ t ∈ ts, Pool contains its t) ∧
      ((∀ t, contains t = true → (∀ v ∈ last, v < t) → t ∈ its.flatten → t ∈ ts) ↔
        NeverDrops contains last its) := by
  induction n generalizing last its with
  | zero => cases hn
  | succ n ih =>
    rw [collect]
    rcases setcurriterator_spec hs with ⟨hnone, hlive⟩ | ⟨v, hv⟩
    · have hd : (setcurriterator contains its).deref = none := by rw [deref, hnone]; rfl
      refine ⟨[], by simp [hasNext, hnone], List.Pairwise.nil, nofun, ?_⟩
      rw [neverDrops_of_none hd]
      constructor
      · rintro h ⟨t, hc, hl, ht, -⟩
        cases h t hc hl ht
      · intro h t hc hl ht
        have := (pool_of_mem h hc hl ht).2
        rw [hlive] at this
        cases this
    · have hnext : ∀ t ∈ (setcurriterator contains its).advance.flatten, t ∈ its.flatten :=
        fun t ht => mem_of_suffix (setcurriterator_suffix contains hs) (mem_of_suffix (suffix_advance _) ht)
      have hsorted := sorted_of_suffix (suffix_advance _)
        (sorted_of_suffix (setcurriterator_suffix contains hs) hs)
      have hshort := hv.shorter
      obtain ⟨ts, hts, hp, hm, hiff⟩ := ih (some v) hsorted (by omega) fun t ht u hu =>
        Option.some.inj hu ▸ (hv.later t ht).2
      have hcurr : (setcurriterator contains its).hasNext = true := by
        have := hv.deref
        unfold deref at this
        unfold hasNext
        cases hc : (setcurriterator contains its).curriterator with
        | none => simp [hc] at this
        | some c => rfl
      refine ⟨v :: ts, ?_, ?_, ?_, ?_⟩
      · rw [if_pos hcurr, hv.deref, Option.bind_some, next, hts]
        rfl
      · exact List.pairwise_cons.mpr ⟨fun t ht => (hv.later t (hm t ht)).2, hp⟩
      · intro t ht
        rcases List.mem_cons.mp ht with rfl | ht
        · exact hv.pool
        · exact (hv.later t (hm t ht)).1
      · rw [neverDrops_of_some hv.deref, ← hiff]
        constructor
        · intro h
          refine ⟨?_, ?_⟩
          · rintro ⟨t, hc, hl, ht, hnot⟩
            rcases List.mem_cons.mp (h t hc hl ht) with rfl | hmem
            · exact hnot hv.pool.2
            · exact hnot (hv.later t (hm t hmem)).1.2
          · intro t hc hl ht
            have hvt : v < t := hl v rfl
            have := h t hc (fun u hu => (hlast v hv.pool u hu).trans hvt) (hnext t ht)
            exact (List.mem_cons.mp this).resolve_left hvt.ne'
        · rintro ⟨hd, h⟩ t hc hl ht
          rcases hv.advances t (pool_of_mem hd hc hl ht) with rfl | ⟨hvt, hadv⟩
          · exact List.mem_cons_self
          · exact List.mem_cons_of_mem v
              (h t hc (fun u hu => Option.some.inj hu ▸ hvt) hadv)

end Run

section Table

variable {D : Type} [LinearOrder D]

structure InternalPredTable (D : Type) where
  contains : Tuple D → Bool

-- a table that can be walked through: begin gives the tuples it contains, in increasing order
structure IterableTable (D : Type) [LinearOrder D] extends InternalPredTable D where
  begin : List (Tuple D)
  sorted : begin.Pairwise (· < ·)
  mem_begin : ∀ t, t ∈ begin ↔ contains t = true

structure UnionInternalPredTable (D : Type) [LinearOrder D] where
  intables : List (IterableTable D)
  outtables : List (InternalPredTable D)

namespace UnionInternalPredTable

variable (u : UnionInternalPredTable D)

def contains (t : Tuple D) : Bool :=
  if u.intables.any (fun i => i.contains t) = false then false
  else !u.outtables.any fun o => o.contains t

def outContains (t : Tuple D) : Bool := u.outtables.all fun o => !o.contains t

def iterators : List (List (Tuple D)) := u.intables.map fun i => i.begin

def begin : UnionInternalIterator (Tuple D) := setcurriterator u.outContains u.iterators

def Enumerates (ts : List (Tuple D)) : Prop :=
  ts.Pairwise (· < ·) ∧ ∀ t, t ∈ ts ↔ u.contains t = true

theorem sorted_iterators : Sorted u.iterators := by
  intro r hr
  obtain ⟨i, -, rfl⟩ := List.mem_map.mp hr
  exact i.sorted

theorem contains_iff (t : Tuple D) :
    u.contains t = true ↔ u.outContains t = true ∧ t ∈ u.iterators.flatten := by
  have hmem : t ∈ u.iterators.flatten ↔ ∃ i ∈ u.intables, i.contains t = true := by
    simp [iterators, List.mem_flatten, IterableTable.mem_begin]
  rw [hmem, contains, outContains]
  split
  · rename_i h
    simp only [List.any_eq_false] at h
    simp only [Bool.false_eq_true, false_iff, not_and, not_exists]
    exact fun _ i hi hc => h i hi hc
  · rename_i h
    simp only [Bool.not_eq_false, List.any_eq_true] at h
    simp [List.all_eq_true, List.any_eq_false, h]

theorem begin_collect :
    ∃ ts, collect u.outContains (u.iterators.flatten.length + 1) u.begin = some ts ∧
      (u.Enumerates ts ↔ NeverDrops u.outContains none u.iterators) := by
  obtain ⟨ts, hts, hp, hm, hiff⟩ := collect_spec u.outContains
    (u.iterators.flatten.length + 1) none u.sorted_iterators (Nat.lt_succ_self _) nofun
  refine ⟨ts, hts, ?_⟩
  rw [← hiff, Enumerates]
  constructor
  · rintro ⟨-, h⟩ t hc - ht
    exact (h t).mpr ((u.contains_iff t).mpr ⟨hc, ht⟩)
  · refine fun h => ⟨hp, fun t => ⟨fun ht => ?_, fun ht => ?_⟩⟩
    · exact (u.contains_iff t).mpr ⟨(hm t ht).1, mem_of_mem_live (hm t ht).2⟩
    · obtain ⟨hc, hmem⟩ := (u.contains_iff t).mp ht
      exact h t hc nofun hmem

def toTable (h : NeverDrops u.outContains none u.iterators) : IterableTable D where
  contains := u.contains
  begin := (collect u.outContains (u.iterators.flatten.length + 1) u.begin).getD []
  sorted := by
    obtain ⟨ts, hts, hiff⟩ := u.begin_collect
    rw [hts]
    exact (hiff.mpr h).1
  mem_begin t := by
    obtain ⟨ts, hts, hiff⟩ := u.begin_collect
    rw [hts]
    exact (hiff.mpr h).2 t

end UnionInternalPredTable

section Skipped

def enumerated (ts : List (Tuple D)) (h : ts.Pairwise (· < ·)) : IterableTable D where
  contains t := decide (t ∈ ts)
  begin := ts
  sorted := h
  mem_begin t := by simp

def oneTwo : UnionInternalPredTable ℕ where
  intables := [enumerated [⟨[1]⟩, ⟨[2]⟩] (by decide)]
  outtables := [(enumerated [⟨[1]⟩] (by decide)).toInternalPredTable]

end Skipped

end Table

end Structure
