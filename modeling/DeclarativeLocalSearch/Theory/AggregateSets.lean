import DeclarativeLocalSearch.Theory.Clone
import Mathlib.Algebra.Order.BigOperators.Group.Multiset

set_option linter.unusedSectionVars false

namespace Theory

open Structure

variable {S P F D : Type}

section Values

variable {K : Type} [CommRing K] [LinearOrder K] [IsStrictOrderedRing K]

-- the numbers among the values with two extremes
def number (k : K) : WithBot (WithTop K) := ((k : WithTop K) : WithBot (WithTop K))

-- the smallest of nothing is above all numbers, and the largest below
def AggFunction.apply (g : AggFunction) (ks : Multiset K) : WithBot (WithTop K) :=
  match g with
  | .card => number (ks.card : K)
  | .sum => number ks.sum
  | .prod => number ks.prod
  | .min => (ks.map number).inf
  | .max => (ks.map number).sup

theorem number_le {k k' : K} : number k ≤ number k' ↔ k ≤ k' := by
  rw [number, number, WithBot.coe_le_coe, WithTop.coe_le_coe]

theorem one_le_prod {ks : Multiset K} (h : ∀ k ∈ ks, 1 ≤ k) : 1 ≤ ks.prod := by
  induction ks using Multiset.induction with
  | empty => simp
  | cons k ks ih =>
    obtain ⟨hk, hks⟩ := Multiset.forall_mem_cons.mp h
    rw [Multiset.prod_cons]
    exact one_le_mul_of_one_le_of_one_le hk (ih hks)

-- more elements: a smaller minimum, and otherwise a larger value
def AggFunction.Grows (g : AggFunction) (old new : WithBot (WithTop K)) : Prop :=
  if g = .min then new ≤ old else old ≤ new

-- the weights for which a larger set has a larger value
def AggFunction.Admits (g : AggFunction) (k : K) : Prop := (g = .sum → 0 ≤ k) ∧ (g = .prod → 1 ≤ k)

theorem AggFunction.apply_grows {g : AggFunction} {ks ks' : Multiset K} (h : ∀ k ∈ ks + ks', g.Admits k) :
    g.Grows (g.apply ks) (g.apply (ks + ks')) := by
  have hnew : ∀ k ∈ ks', g.Admits k := fun k hk => h k (Multiset.mem_add.mpr (Or.inr hk))
  cases g with
  | card =>
    refine number_le.mpr ?_
    rw [Multiset.card_add]
    exact_mod_cast Nat.le_add_right _ _
  | sum =>
    refine number_le.mpr ?_
    rw [Multiset.sum_add]
    exact le_add_of_nonneg_right (Multiset.sum_nonneg fun k hk => (hnew k hk).1 rfl)
  | prod =>
    refine number_le.mpr ?_
    rw [Multiset.prod_add]
    have hold : 1 ≤ ks.prod := one_le_prod fun k hk => (h k (Multiset.mem_add.mpr (Or.inl hk))).2 rfl
    exact le_mul_of_one_le_right (zero_le_one.trans hold) (one_le_prod fun k hk => (hnew k hk).2 rfl)
  | min =>
    change ((ks + ks').map number).inf ≤ (ks.map number).inf
    rw [Multiset.map_add, Multiset.inf_add]
    exact inf_le_left
  | max =>
    change (ks.map number).sup ≤ ((ks + ks').map number).sup
    rw [Multiset.map_add, Multiset.sup_add]
    exact le_sup_left

theorem AggFunction.admits_of_grows {g : AggFunction} {k : K} (h : g.Grows (g.apply 0) (g.apply {k})) : g.Admits k := by
  constructor
  · rintro rfl
    simpa [AggFunction.apply] using number_le.mp h
  · rintro rfl
    simpa [AggFunction.apply] using number_le.mp h

end Values

namespace Structure

variable [DecidableEq S] (I : Structure S P F D)

section Elements

-- the elements of the sets, satisfied or not
def Elements : List (QuantSetExpr S P F D) → Type
  | [] => Empty
  | .mk vars _ _ :: ss => I.Tuple vars ⊕ Elements ss

variable (e : Variable S → D)

def Satisfied : (ss : List (QuantSetExpr S P F D)) → I.Elements ss → Prop
  | [], x => nomatch x
  | .mk _ condition _ :: _, .inl a => I.holds condition (I.extend e a)
  | .mk _ _ _ :: ss, .inr x => Satisfied ss x

noncomputable def weight : (ss : List (QuantSetExpr S P F D)) → I.Elements ss → Option D
  | [], x => nomatch x
  | .mk _ _ term :: _, .inl a => I.value term (I.extend e a)
  | .mk _ _ _ :: ss, .inr x => weight ss x

-- how often each weight occurs among some elements
noncomputable def count {ι : Type} (w : ι → Option D) (chosen : Set ι) (d : Option D) : ℕ∞ :=
  ENat.card {x : chosen // w x = d}

theorem occurrences_eq_count (ss : List (QuantSetExpr S P F D)) :
    I.occurrences ss e = count (I.weight e ss) {x | I.Satisfied e ss x} := by
  have hcount : ∀ {ι : Type} (w : ι → Option D) (chosen : Set ι) (d : Option D),
      count w chosen d = ENat.card {x // x ∈ chosen ∧ w x = d} := fun w chosen d =>
    ENat.card_congr (Equiv.subtypeSubtypeEquivSubtypeInter (· ∈ chosen) (w · = d))
  funext d
  induction ss with
  | nil =>
    rw [hcount]
    exact (ENat.card_eq_zero_iff_empty _ |>.mpr ⟨fun x => nomatch x.1⟩).symm
  | cons s ss ih =>
    obtain ⟨vars, condition, term⟩ := s
    rw [hcount] at ih
    rw [hcount]
    refine (congrArg (I.setOccurrences _ e d + ·) ih).trans ((ENat.card_sum _ _).symm.trans (ENat.card_congr ?_))
    exact (Equiv.subtypeSum (α := I.Tuple vars) (β := I.Elements ss) (p := fun x =>
      x ∈ {x | I.Satisfied e (.mk vars condition term :: ss) x} ∧ I.weight e (.mk vars condition term :: ss) x = d)).symm

end Elements

-- the truth of an aggregate formula when some elements of its sets are satisfied
def aggHolds {ι : Type} (sign : SIGN) (bound : Option D) (comp : CompType) (g : AggFunction) (w : ι → Option D)
    (chosen : Set ι) : Prop :=
  sign.apply (I.compare comp bound (I.aggregate g (count w chosen)))

variable {K : Type} [CommRing K] [LinearOrder K] [IsStrictOrderedRing K]

def IsNumber (num : D → WithBot (WithTop K)) (d : Option D) (k : K) : Prop := ∃ d', d = some d' ∧ num d' = number k

-- the domain has numbers and two extremes, and the aggregates of finitely many numbers are the usual ones
structure Arithmetic (num : D → WithBot (WithTop K)) : Prop where
  injective : Function.Injective num
  less : ∀ d d', I.less d d' ↔ num d < num d'
  aggregate : ∀ (g : AggFunction) (ι : Type) (w : ι → Option D) (k : ι → K) (chosen : Finset ι),
    (∀ x ∈ chosen, IsNumber num (w x) (k x)) →
      ∃ d, I.aggregate g (count w chosen) = some d ∧ num d = g.apply (chosen.val.map k)

section Directions

variable (num : D → WithBot (WithTop K)) {ι : Type} (sign : SIGN) (comp : CompType) (g : AggFunction) (w : ι → Option D)

-- enlarging the set of satisfied elements keeps the formula true
def MonotoneIn : Prop :=
  ∀ (b : D) (k : ι → K) (chosen chosen' : Finset ι), chosen ⊆ chosen' → (∀ x ∈ chosen', IsNumber num (w x) (k x)) →
    I.aggHolds sign (some b) comp g w chosen → I.aggHolds sign (some b) comp g w chosen'

def AntimonotoneIn : Prop :=
  ∀ (b : D) (k : ι → K) (chosen chosen' : Finset ι), chosen ⊆ chosen' → (∀ x ∈ chosen', IsNumber num (w x) (k x)) →
    I.aggHolds sign (some b) comp g w chosen' → I.aggHolds sign (some b) comp g w chosen

end Directions

variable {I} {num : D → WithBot (WithTop K)}

section Compare

variable (h : I.Arithmetic num) {sign : SIGN} {comp : CompType} {b u v : D}

include h

theorem compare_number : I.compare comp (some b) (some u) ↔ match comp with
    | .eq => num b = num u
    | .neq => num b ≠ num u
    | .lt => num b < num u
    | .gt => num u < num b
    | .leq => num b ≤ num u
    | .geq => num u ≤ num b := by
  cases comp <;> simp [compare, h.less, h.injective.eq_iff]
  · exact eq_comm
  · exact not_congr eq_comm

theorem compare_iff (hcomp : comp ≠ .eq ∧ comp ≠ .neq) :
    (∀ b : D, I.compare comp (some b) (some u) → I.compare comp (some b) (some v)) ↔
      if comp = .lt ∨ comp = .leq then num u ≤ num v else num v ≤ num u := by
  simp only [compare_number h]
  cases comp with
  | eq => exact absurd rfl hcomp.1
  | neq => exact absurd rfl hcomp.2
  | lt => exact ⟨fun h => not_lt.mp fun hlt => (h v hlt).false, fun hle b hb => hb.trans_le hle⟩
  | leq => exact ⟨fun h => h u le_rfl, fun hle b hb => hb.trans hle⟩
  | gt => exact ⟨fun h => not_lt.mp fun hlt => (h v hlt).false, fun hle b hb => hle.trans_lt hb⟩
  | geq => exact ⟨fun h => h u le_rfl, fun hle b hb => hle.trans hb⟩

omit h in
-- whether a larger value makes the formula true
def upward (sign : SIGN) (comp : CompType) : Bool := (comp = .lt ∨ comp = .leq) ↔ sign = .pos

theorem apply_compare_iff (hcomp : comp ≠ .eq ∧ comp ≠ .neq) :
    (∀ b : D, sign.apply (I.compare comp (some b) (some u)) → sign.apply (I.compare comp (some b) (some v))) ↔
      if upward sign comp then num u ≤ num v else num v ≤ num u := by
  cases sign with
  | pos => simpa [upward, SIGN.apply] using compare_iff h hcomp
  | neg =>
    simp only [SIGN.apply, not_imp_not]
    rw [compare_iff h hcomp]
    cases comp <;> simp [upward] at hcomp ⊢

end Compare

section Chosen

variable (h : I.Arithmetic num) {ι : Type} {sign : SIGN} {comp : CompType} {g : AggFunction} {w : ι → Option D}

include h

theorem aggHolds_imp_iff (hcomp : comp ≠ .eq ∧ comp ≠ .neq) {k : ι → K} {old new : Finset ι}
    (hold : ∀ x ∈ old, IsNumber num (w x) (k x)) (hnew : ∀ x ∈ new, IsNumber num (w x) (k x)) :
    (∀ b : D, I.aggHolds sign (some b) comp g w old → I.aggHolds sign (some b) comp g w new) ↔
      if upward sign comp then g.apply (old.val.map k) ≤ g.apply (new.val.map k)
      else g.apply (new.val.map k) ≤ g.apply (old.val.map k) := by
  obtain ⟨u, hu, hunum⟩ := h.aggregate g ι w k old hold
  obtain ⟨v, hv, hvnum⟩ := h.aggregate g ι w k new hnew
  simp only [aggHolds, hu, hv]
  rw [apply_compare_iff h hcomp, hunum, hvnum]

omit h in
theorem grows_iff : (∀ (k : ι → K) (old new : Finset ι), old ⊆ new → (∀ x ∈ new, IsNumber num (w x) (k x)) →
    g.Grows (g.apply (old.val.map k)) (g.apply (new.val.map k))) ↔ ∀ x k, IsNumber num (w x) k → g.Admits k := by
  constructor
  · intro hgrows x k hk
    have hone := hgrows (fun _ => k) ∅ {x} (Finset.empty_subset _) fun y hy => Finset.mem_singleton.mp hy ▸ hk
    exact AggFunction.admits_of_grows (by simpa using hone)
  · intro hadmits k old new hsub hnew
    obtain ⟨rest, hrest⟩ := Multiset.le_iff_exists_add.mp (Finset.val_le_iff.mpr hsub)
    rw [hrest, Multiset.map_add]
    refine AggFunction.apply_grows fun l hl => ?_
    rw [← Multiset.map_add, ← hrest] at hl
    obtain ⟨x, hx, rfl⟩ := Multiset.mem_map.mp hl
    exact hadmits x _ (hnew x hx)

end Chosen

end Structure

end Theory
