import Mathlib.Dynamics.PeriodicPts.Lemmas
import DeclarativeLocalSearch.SymmetryBreaking.Symmetry

namespace SymmetryBreaking

open Function

variable {σ : ℕ → ℕ} {order later useful : List ℕ} {a b c : ℕ}

-- every atom of the order has its image in the order, and the images differ
structure Permutes (σ : ℕ → ℕ) (order : List ℕ) : Prop where
  nodup : order.Nodup
  maps : ∀ a ∈ order, σ a ∈ order
  injective : ∀ a ∈ order, ∀ b ∈ order, σ a = σ b → a = b

def InCycle (σ : ℕ → ℕ) (a b : ℕ) : Prop := ∃ k, σ^[k] a = b

section Cycles

theorem InCycle.refl : InCycle σ a a := ⟨0, rfl⟩

theorem InCycle.trans (h : InCycle σ a b) (h' : InCycle σ b c) : InCycle σ a c := by
  obtain ⟨k, rfl⟩ := h
  obtain ⟨j, rfl⟩ := h'
  exact ⟨j + k, iterate_add_apply σ j k a⟩

theorem Permutes.mem_of_inCycle (h : Permutes σ order) (ha : a ∈ order) (hb : InCycle σ a b) : b ∈ order := by
  obtain ⟨k, rfl⟩ := hb
  induction k with
  | zero => exact ha
  | succ k ih =>
    rw [iterate_succ_apply']
    exact h.maps _ ih

theorem Permutes.periodic (h : Permutes σ order) (ha : a ∈ order) : ∃ n > 0, IsPeriodicPt σ n a := by
  let f : {a // a ∈ order} → {a // a ∈ order} := fun a => ⟨σ a.1, h.maps a.1 a.2⟩
  have hinjective : Injective f := fun a b hab => Subtype.ext (h.injective a a.2 b b.2 (congrArg Subtype.val hab))
  obtain ⟨n, hn, hperiodic⟩ := mem_periodicPts.mp (hinjective.mem_periodicPts ⟨a, ha⟩)
  have hsemiconj : Semiconj Subtype.val f σ := fun _ => rfl
  exact ⟨n, hn, hperiodic.map hsemiconj⟩

theorem Permutes.symm (h : Permutes σ order) (ha : a ∈ order) (hb : InCycle σ a b) : InCycle σ b a := by
  obtain ⟨k, rfl⟩ := hb
  obtain ⟨n, hn, hperiodic⟩ := h.periodic ha
  refine ⟨n * k - k, ?_⟩
  rw [← iterate_add_apply, Nat.sub_add_cancel (Nat.le_mul_of_pos_left k hn)]
  exact hperiodic.mul_const k

end Cycles

section MarkCycle

theorem markCycle_eq {j : ℕ} {sym : ℕ} (hne : ∀ i < j, σ^[i] sym ≠ a) (hlast : σ^[j] sym = a) :
    ∃ useful', (∀ n > j, markCycle σ a n sym useful = some useful') ∧
      ∀ b, b ∈ useful' ↔ b ∈ useful ∨ ∃ i < j, σ^[i] sym = b := by
  induction j generalizing sym useful with
  | zero =>
    refine ⟨useful, fun n hn => ?_, by simp⟩
    obtain ⟨n, rfl⟩ := Nat.exists_eq_add_of_lt hn
    rw [Nat.zero_add, markCycle, if_pos (show sym = a from hlast)]
  | succ j ih =>
    have hsym : sym ≠ a := hne 0 (Nat.succ_pos j)
    obtain ⟨useful', heq, hmem⟩ := @ih (sym :: useful) (σ sym)
      (fun i hi => by rw [← iterate_succ_apply]; exact hne (i + 1) (Nat.succ_lt_succ hi))
      (by rw [← iterate_succ_apply]; exact hlast)
    have hmark : ∀ n > j + 1, markCycle σ a n sym useful = some useful' := by
      intro n hn
      obtain ⟨n, rfl⟩ : ∃ m, n = m + 1 := ⟨n - 1, by omega⟩
      rw [markCycle, if_neg hsym, heq n (Nat.lt_of_succ_lt_succ hn)]
    refine ⟨useful', hmark, fun b => (hmem b).trans ?_⟩
    rw [List.mem_cons]
    constructor
    · rintro ((rfl | hb) | ⟨i, hi, rfl⟩)
      · exact Or.inr ⟨0, Nat.succ_pos j, rfl⟩
      · exact Or.inl hb
      · exact Or.inr ⟨i + 1, Nat.succ_lt_succ hi, iterate_succ_apply σ i sym⟩
    · rintro (hb | ⟨i, hi, rfl⟩)
      · exact Or.inl (Or.inr hb)
      · cases i with
        | zero => exact Or.inl (Or.inl rfl)
        | succ i => exact Or.inr ⟨i, Nat.lt_of_succ_lt_succ hi, (iterate_succ_apply σ i sym).symm⟩

-- the images of an atom, up to the atom itself
theorem Permutes.markCycle_returns (h : Permutes σ order) (ha : a ∈ order) : ∃ N, ∀ useful, ∃ useful',
    (∀ n ≥ N, markCycle σ a n (σ a) useful = some useful') ∧ ∀ b, b ∈ useful' ↔ b ∈ useful ∨ b ≠ a ∧ InCycle σ a b := by
  obtain ⟨n, hn, hperiodic⟩ := h.periodic ha
  have hpos := hperiodic.minimalPeriod_pos hn
  obtain ⟨j, hj⟩ : ∃ j, minimalPeriod σ a = j + 1 := ⟨minimalPeriod σ a - 1, by omega⟩
  have hne : ∀ i < j, σ^[i] (σ a) ≠ a := fun i hi heq => by
    rw [← iterate_succ_apply] at heq
    exact not_isPeriodicPt_of_pos_of_lt_minimalPeriod (Nat.succ_ne_zero i) (by omega) heq
  have hlast : σ^[j] (σ a) = a := by
    rw [← iterate_succ_apply, Nat.succ_eq_add_one, ← hj, iterate_minimalPeriod]
  refine ⟨j + 1, fun useful => ?_⟩
  obtain ⟨useful', heq, hmem⟩ := @markCycle_eq _ useful _ _ _ hne hlast
  refine ⟨useful', heq, fun b => (hmem b).trans (or_congr_right ?_)⟩
  constructor
  · rintro ⟨i, hi, rfl⟩
    exact ⟨hne i hi, i + 1, iterate_succ_apply σ i a⟩
  · rintro ⟨hb, k, rfl⟩
    have hmod := (isPeriodicPt_minimalPeriod σ a).iterate_mod_apply k
    have hlt := Nat.mod_lt k hpos
    obtain ⟨i, hi⟩ : ∃ i, k % minimalPeriod σ a = i + 1 := by
      refine Nat.exists_eq_add_one.mpr (Nat.pos_of_ne_zero fun hzero => hb ?_)
      rw [← hmod, hzero, iterate_zero_apply]
    exact ⟨i, by omega, by rw [← hmod, hi, iterate_succ_apply]⟩

end MarkCycle

-- what is known after the atoms from some point on
structure Marked (σ : ℕ → ℕ) (later useful : List ℕ) : Prop where
  earlier : ∀ b ∈ later, ∀ a, InCycle σ b a → a ∉ later → a ∈ useful
  cycles : ∀ b ∈ useful, ∃ d ∈ later, InCycle σ d b
  last : ∀ l a r, later = l ++ a :: r → a ∉ useful → ∀ c ∈ r, ¬ InCycle σ c a

theorem Marked.skip (h : Marked σ later useful) (hc : c ∉ later) (huseful : c ∈ useful) : Marked σ (c :: later) useful where
  earlier b hb a hcycle ha := by
    have hrest := fun hmem => ha (List.mem_cons_of_mem c hmem)
    rcases List.mem_cons.mp hb with rfl | hb
    · obtain ⟨d, hd, hcycle'⟩ := h.cycles b huseful
      exact h.earlier d hd a (hcycle'.trans hcycle) hrest
    · exact h.earlier b hb a hcycle hrest
  cycles b hb := by
    obtain ⟨d, hd, hcycle⟩ := h.cycles b hb
    exact ⟨d, List.mem_cons_of_mem c hd, hcycle⟩
  last l a r heq ha := by
    cases l with
    | nil =>
      obtain ⟨rfl, rfl⟩ := List.cons.inj heq
      exact absurd huseful ha
    | cons x l => exact h.last l a r (List.cons.inj heq).2 ha

theorem Marked.mark {useful' : List ℕ} (h : Marked σ later useful) (hc : c ∉ later)
    (hmem : ∀ b, b ∈ useful' ↔ b ∈ useful ∨ b ≠ c ∧ InCycle σ c b) : Marked σ (c :: later) useful' where
  earlier b hb a hcycle ha := by
    obtain ⟨hne, hrest⟩ := not_or.mp (mt List.mem_cons.mpr ha)
    rcases List.mem_cons.mp hb with rfl | hb
    · exact (hmem a).mpr (Or.inr ⟨hne, hcycle⟩)
    · exact (hmem a).mpr (Or.inl (h.earlier b hb a hcycle hrest))
  cycles b hb := by
    rcases (hmem b).mp hb with hb | ⟨-, hcycle⟩
    · obtain ⟨d, hd, hcycle⟩ := h.cycles b hb
      exact ⟨d, List.mem_cons_of_mem c hd, hcycle⟩
    · exact ⟨c, List.mem_cons_self, hcycle⟩
  last l a r heq ha := by
    have hold : a ∉ useful := fun hold => ha ((hmem a).mpr (Or.inl hold))
    cases l with
    | nil =>
      obtain ⟨rfl, rfl⟩ := List.cons.inj heq
      exact fun b hb hcycle => hold (h.earlier b hb c hcycle hc)
    | cons x l => exact h.last l a r (List.cons.inj heq).2 hold

theorem Permutes.markUseful_returns (h : Permutes σ order) {l : List ℕ} (horder : order = l ++ later) :
    ∃ N useful, (∀ n ≥ N, markUseful σ n later = some useful) ∧ Marked σ later useful := by
  induction later generalizing l with
  | nil => exact ⟨0, [], fun _ _ => rfl, nofun, nofun, fun l a r heq => absurd heq.symm (by simp)⟩
  | cons c later ih =>
    obtain ⟨N, useful, heq, hmarked⟩ := ih (l := l ++ [c]) (by rw [horder, List.append_assoc, List.singleton_append])
    have hc : c ∉ later := by
      have hnodup := h.nodup
      rw [horder] at hnodup
      exact (List.nodup_cons.mp (List.nodup_append.mp hnodup).2.1).1
    by_cases huseful : c ∈ useful
    · refine ⟨N, useful, fun n hn => ?_, hmarked.skip hc huseful⟩
      rw [markUseful, heq n hn]
      exact if_pos huseful
    · obtain ⟨M, hM⟩ := h.markCycle_returns (a := c) (by rw [horder]; simp)
      obtain ⟨useful', heq', hmem⟩ := hM useful
      refine ⟨max N M, useful', fun n hn => ?_, hmarked.mark hc hmem⟩
      rw [markUseful, heq n (le_of_max_le_left hn)]
      exact (if_neg huseful).trans (heq' n (le_of_max_le_right hn))

-- the last atom of a cycle is equal to its image if the others are equal to theirs
theorem Permutes.last_equal (h : Permutes σ order) (hmarked : Marked σ order useful) {x : ℕ → Bool} {l r : List ℕ}
    (horder : order = l ++ a :: r) (ha : a ∉ useful) (hl : ∀ b ∈ l, x b = x (σ b)) : x a = x (σ a) := by
  have hmem : a ∈ order := by
    rw [horder]
    simp
  obtain ⟨n, hn, hperiodic⟩ := h.periodic hmem
  have hchain : ∀ k, x (σ^[k] (σ a)) = x (σ a) := by
    intro k
    induction k with
    | zero => rfl
    | succ k ih =>
      rw [iterate_succ_apply']
      have hcycle : InCycle σ a (σ^[k] (σ a)) := ⟨k + 1, iterate_succ_apply σ k a⟩
      have hin := h.mem_of_inCycle hmem hcycle
      rw [horder, List.mem_append, List.mem_cons] at hin
      rcases hin with hin | hin | hin
      · rw [← hl _ hin, ih]
      · rw [hin]
      · exact absurd (h.symm hmem hcycle) (hmarked.last l a r horder ha _ hin)
  obtain ⟨k, rfl⟩ := Nat.exists_eq_add_of_lt hn
  rw [Nat.zero_add, IsPeriodicPt, IsFixedPt, iterate_succ_apply] at hperiodic
  rw [← hchain k, hperiodic]

theorem Permutes.getUsefulAtoms_returns (h : Permutes σ order) : ∃ N orig, (∀ a ∈ orig, a ∈ order) ∧
    (∀ n ≥ N, getUsefulAtoms σ n order = some (orig, orig.map σ)) ∧
      ∀ x : ℕ → Bool, orig.map x ≤ (orig.map σ).map x ↔ order.map x ≤ order.map fun a => x (σ a) := by
  obtain ⟨N, useful, heq, hmarked⟩ := h.markUseful_returns (l := []) rfl
  refine ⟨N, order.filter (· ∈ useful), fun a ha => (List.mem_filter.mp ha).1, fun n hn => ?_, fun x => ?_⟩
  · rw [getUsefulAtoms, heq n hn]
    rfl
  · rw [List.map_map]
    exact LexLeader.map_le_map_filter fun l a r horder ha => h.last_equal hmarked horder (by simpa using ha)

end SymmetryBreaking

namespace SymmetryBreaking

open Grounding (Lit)

variable {σ : ℕ → ℕ} {order : List ℕ} {gt : GroundTheory}

def literals (atoms : List ℕ) : List Lit := atoms.map fun atom => ⟨true, atom⟩

-- not greater than the image
def IsLeader (σ : ℕ → ℕ) (order : List ℕ) (x : ℕ → Bool) : Prop := order.map x ≤ order.map fun a => x (σ a)

def permuted (σ : ℕ → ℕ) (order : List ℕ) (k : ℕ) (x : ℕ → Bool) (a : ℕ) : Bool := if a ∈ order then x (σ^[k] a) else x a

theorem map_value_literals {x : ℕ → Bool} {atoms : List ℕ} : (literals atoms).map (value x) = atoms.map x := by
  rw [literals, List.map_map]
  exact List.map_congr_left fun a _ => value_pos

theorem literals_below {n : ℕ} {atoms : List ℕ} (h : ∀ a ∈ atoms, a < n) : ∀ l ∈ literals atoms, l.atom < n := by
  intro l hl
  obtain ⟨a, ha, rfl⟩ := List.mem_map.mp hl
  exact h a ha

theorem exists_isLeader (h : Permutes σ order) (x : ℕ → Bool) : ∃ k, IsLeader σ order (permuted σ order k x) := by
  obtain ⟨k, hk⟩ := LexLeader.exists_leader σ order x
  refine ⟨k, ?_⟩
  have heq : order.map (permuted σ order k x) = order.map fun a => x (σ^[k] a) :=
    List.map_congr_left fun a ha => if_pos ha
  have himage : (order.map fun a => permuted σ order k x (σ a)) = order.map fun a => x (σ^[k] (σ a)) :=
    List.map_congr_left fun a ha => if_pos (h.maps a ha)
  rw [IsLeader, heq, himage]
  exact hk

-- with both encodings the models are the leaders, and with the full one there is one model for each
structure Breaks (σ : ℕ → ℕ) (order : List ℕ) (gt : GroundTheory) (orig sym : List Lit) : Prop where
  full : ∀ x, (∃ ν, (∀ a < gt.next, ν a = x a) ∧ (addSymBreakingClausesToGroundTheory orig sym gt).Holds ν) ↔
    gt.Holds x ∧ IsLeader σ order x
  shortest : ∀ x, (∃ ν, (∀ a < gt.next, ν a = x a) ∧ (addSymBreakingClausesToGroundTheoryShortest orig sym gt).Holds ν) ↔
    gt.Holds x ∧ IsLeader σ order x
  unique : ∀ ν ν', (addSymBreakingClausesToGroundTheory orig sym gt).Holds ν →
    (addSymBreakingClausesToGroundTheory orig sym gt).Holds ν' → (∀ a < gt.next, ν a = ν' a) →
      ∀ a < (addSymBreakingClausesToGroundTheory orig sym gt).next, ν a = ν' a
  orbit : ∀ x, (∀ k, gt.Holds (permuted σ order k x)) → ∃ k,
    (∃ ν, (∀ a < gt.next, ν a = permuted σ order k x a) ∧ (addSymBreakingClausesToGroundTheory orig sym gt).Holds ν) ∧
      ∃ ν, (∀ a < gt.next, ν a = permuted σ order k x a) ∧
        (addSymBreakingClausesToGroundTheoryShortest orig sym gt).Holds ν

theorem addSymBreaking_holds_iff {full : Bool} {orig sym : List Lit} (hbelow : gt.Below)
    (horig : ∀ l ∈ orig, l.atom < gt.next) (hsym : ∀ l ∈ sym, l.atom < gt.next) (hlength : orig.length = sym.length)
    (x : ℕ → Bool) : (∃ ν, (∀ a < gt.next, ν a = x a) ∧ (addSymBreaking full orig sym gt).Holds ν) ↔
      gt.Holds x ∧ orig.map (value x) ≤ sym.map (value x) := by
  constructor
  · rintro ⟨ν, hagree, hholds⟩
    obtain ⟨hgt, hle⟩ := addSymBreaking_sound hlength hholds
    rw [map_value_congr fun l hl => hagree _ (horig l hl), map_value_congr fun l hl => hagree _ (hsym l hl)] at hle
    exact ⟨(hbelow.holds_congr hagree).mp hgt, hle⟩
  · rintro ⟨hgt, hle⟩
    exact addSymBreaking_complete hlength hgt hbelow horig hsym hle

theorem literals_image_below (h : Permutes σ order) {n : ℕ} {orig : List ℕ} (horig : ∀ a ∈ orig, a ∈ order)
    (horder : ∀ a ∈ order, a < n) : ∀ l ∈ literals (orig.map σ), l.atom < n := literals_below fun a ha => by
  obtain ⟨b, hb, rfl⟩ := List.mem_map.mp ha
  exact horder _ (h.maps b (horig b hb))

theorem Permutes.useful_holds_iff (h : Permutes σ order) (hbelow : gt.Below) (horder : ∀ a ∈ order, a < gt.next) :
    ∃ N orig, (∀ a ∈ orig, a ∈ order) ∧ (∀ n ≥ N, getUsefulAtoms σ n order = some (orig, orig.map σ)) ∧
      (∀ x : ℕ → Bool, orig.map x ≤ (orig.map σ).map x ↔ IsLeader σ order x) ∧
      ∀ full x, (∃ ν, (∀ a < gt.next, ν a = x a) ∧
        (addSymBreaking full (literals orig) (literals (orig.map σ)) gt).Holds ν) ↔ gt.Holds x ∧ IsLeader σ order x := by
  obtain ⟨N, orig, horig, heq, hle⟩ := h.getUsefulAtoms_returns
  refine ⟨N, orig, horig, heq, hle, fun full x => ?_⟩
  rw [addSymBreaking_holds_iff hbelow (literals_below fun a ha => horder a (horig a ha))
    (literals_image_below h horig horder) (by simp [literals]), map_value_literals, map_value_literals, hle x, IsLeader]

theorem getUsefulAtoms_breaks (σ : ℕ → ℕ) (order : List ℕ) (gt : GroundTheory) (h : Permutes σ order) (hbelow : gt.Below)
    (horder : ∀ a ∈ order, a < gt.next) : ∃ N orig sym, (∀ n ≥ N, getUsefulAtoms σ n order = some (orig, sym)) ∧
      (∀ x : ℕ → Bool, orig.map x ≤ sym.map x ↔ IsLeader σ order x) ∧ Breaks σ order gt (literals orig) (literals sym) := by
  obtain ⟨N, orig, horig, heq, hle, hiff⟩ := h.useful_holds_iff hbelow horder
  refine ⟨N, orig, orig.map σ, heq, hle, hiff true, hiff false, fun ν ν' hν hν' hagree =>
    addSymBreaking_unique hbelow (literals_below fun a ha => horder a (horig a ha)) (literals_image_below h horig horder)
      (by simp [literals]) hν hν' hagree, fun x hx => ?_⟩
  obtain ⟨k, hk⟩ := exists_isLeader h x
  exact ⟨k, (hiff true _).mpr ⟨hx k, hk⟩, (hiff false _).mpr ⟨hx k, hk⟩⟩

def exchange (a : ℕ) : ℕ := 1 - a

theorem getUsefulAtoms_exchange : ∃ N orig sym, (∀ n ≥ N, getUsefulAtoms exchange n [0, 1] = some (orig, sym)) ∧
    (∀ x : ℕ → Bool, orig.map x ≤ sym.map x ↔ IsLeader exchange [0, 1] x) ∧
      Breaks exchange [0, 1] ⟨[], 2⟩ (literals orig) (literals sym) :=
  getUsefulAtoms_breaks exchange [0, 1] ⟨[], 2⟩ ⟨by decide, by decide, by decide⟩ (fun _ h => absurd h List.not_mem_nil)
    (by decide)

end SymmetryBreaking
