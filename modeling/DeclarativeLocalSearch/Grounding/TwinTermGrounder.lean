import Mathlib.Algebra.Order.Ring.Int
import Mathlib.Data.Finset.Prod

namespace TwinTermGrounder

def Machine (n : ℤ) : Prop := -2147483648 ≤ n ∧ n ≤ 2147483647

-- what int arithmetic makes of a result
def wrap (n : ℤ) : ℤ := n.bmod 4294967296

theorem machine_wrap (n : ℤ) : Machine (wrap n) := by
  rw [Machine, wrap, Int.bmod_def]
  split_ifs <;> omega

theorem wrap_eq_iff {n : ℤ} : wrap n = n ↔ Machine n := by
  constructor
  · intro h
    exact h ▸ machine_wrap n
  · rw [Machine, wrap, Int.bmod_def]
    intro h
    split_ifs <;> omega

-- the integers from the one to the other
def between (min max : ℤ) : Finset ℤ := (Finset.range (max - min + 1).toNat).image fun i : ℕ => min + i

theorem mem_between {min max n : ℤ} : n ∈ between min max ↔ min ≤ n ∧ n ≤ max := by
  simp only [between, Finset.mem_image, Finset.mem_range]
  constructor
  · rintro ⟨i, hi, rfl⟩
    omega
  · intro h
    exact ⟨(n - min).toNat, by omega, by omega⟩

inductive TwinTT where
  | plus
  | min
  | prod

def TwinTT.op : TwinTT → ℤ → ℤ → ℤ
  | plus, l, r => l + r
  | min, l, r => l - r
  | prod, l, r => l * r

-- a finite table of integers; only a table that knows that it is a range tells its first and its last element
structure SortTable where
  elements : Finset ℤ
  machine : ∀ n ∈ elements, Machine n
  isRange : Bool
  first : ℤ
  last : ℤ
  ordered : isRange = true → first ≤ last
  range : isRange = true → ∀ n, n ∈ elements ↔ first ≤ n ∧ n ≤ last

def SortTable.singleton (d : {n : ℤ // Machine n}) : SortTable where
  elements := {d.1}
  machine n hn := Finset.mem_singleton.1 hn ▸ d.2
  isRange := true
  first := d.1
  last := d.1
  ordered _ := le_refl _
  range _ n := by rw [Finset.mem_singleton]; omega

inductive GroundTerm where
  | domelement (d : {n : ℤ // Machine n})
  | varid

-- a domain for a new variable, and the results before they were wrapped
structure Computed where
  elements : Finset ℤ
  values : Finset ℤ

-- what the two grounders return and report
structure Call where
  left : GroundTerm
  right : GroundTerm
  latestleft : SortTable
  latestright : SortTable

def GroundTerm.domain : GroundTerm → SortTable → SortTable
  | domelement d, _ => .singleton d
  | varid, latest => latest

def GroundTerm.isVariable : GroundTerm → Bool
  | domelement _ => false
  | varid => true

namespace Call

def leftdomain (c : Call) : SortTable := c.left.domain c.latestleft

def rightdomain (c : Call) : SortTable := c.right.domain c.latestright

def cansave (c : Call) : Bool := c.left.isVariable && c.right.isVariable

-- for two domain elements the function table has the result, and there is no variable
def creates (c : Call) : Bool := c.left.isVariable || c.right.isVariable

end Call

def endpoints (type : TwinTT) (l r : SortTable) : List ℤ :=
  match type with
  | .plus => [l.first + r.first, l.last + r.last]
  | .min => [l.first - r.last, l.last - r.first]
  | .prod => [l.first * r.first, l.first * r.last, l.last * r.first, l.last * r.last]

def rangeDomain (type : TwinTT) (l r : SortTable) : Finset ℤ :=
  match type with
  | .plus => table (wrap (l.first + r.first)) (wrap (l.last + r.last))
  | .min => table (wrap (l.first - r.last)) (wrap (l.last - r.first))
  | .prod =>
    let a := wrap (l.first * r.first)
    let b := wrap (l.first * r.last)
    let c := wrap (l.last * r.first)
    let d := wrap (l.last * r.last)
    table (Min.min (Min.min a b) (Min.min c d)) (Max.max (Max.max a b) (Max.max c d))
where
  table (min max : ℤ) : Finset ℤ := if max < min then between max min else between min max

def results (type : TwinTT) (l r : SortTable) : Finset ℤ :=
  (l.elements ×ˢ r.elements).image fun p => type.op p.1 p.2

def newdomain (type : TwinTT) (l r : SortTable) : Computed :=
  if l.isRange && r.isRange then ⟨rangeDomain type l r, (endpoints type l r).toFinset⟩
  else ⟨(results type l r).image wrap, results type l r⟩

-- with the domain that the grounder has saved, for it and the next calls
def computeDomain (type : TwinTT) (domain : Option Computed) (c : Call) : Computed × Option Computed :=
  match domain with
  | some d => (d, some d)
  | none =>
    let d := newdomain type c.leftdomain c.rightdomain
    (d, if c.cansave then some d else none)

def run (type : TwinTT) : Option Computed → List Call → List (Call × Computed)
  | _, [] => []
  | domain, c :: calls =>
    let (d, domain) := computeDomain type domain c
    (c, d) :: run type domain calls

section Answer

variable (type : TwinTT)

-- all results are machine integers
def Fits (c : Call) : Prop :=
  ∀ l ∈ c.leftdomain.elements, ∀ r ∈ c.rightdomain.elements, Machine (type.op l r)

-- the results, and what lies between them when both domains are ranges
def Spanned (l r : SortTable) (n : ℤ) : Prop :=
  if l.isRange && r.isRange then ∃ v ∈ results type l r, ∃ v' ∈ results type l r, v ≤ n ∧ n ≤ v'
  else n ∈ results type l r

def Covers (first c : Call) : Prop :=
  ∀ l ∈ c.leftdomain.elements, ∀ r ∈ c.rightdomain.elements, Spanned type first.leftdomain first.rightdomain (type.op l r)

-- the first call with two variables is the one whose domain is saved
def Safe : Option Call → List Call → Prop
  | _, [] => True
  | none, c :: calls => Fits type c ∧ Safe (if c.cansave then some c else none) calls
  | some first, c :: calls => (c.creates → Covers type first c) ∧ Safe (some first) calls

structure Good (c : Call) (d : Computed) : Prop where
  contains : c.creates → ∀ l ∈ c.leftdomain.elements, ∀ r ∈ c.rightdomain.elements, type.op l r ∈ d.elements
  not_wrapped : ∀ n ∈ d.values, wrap n ∈ d.elements → wrap n = n

end Answer

section Ranges

variable {type : TwinTT} {l r : SortTable} {n x y : ℤ}

theorem mem_table {min max : ℤ} :
    n ∈ rangeDomain.table min max ↔ ∃ e ∈ [min, max], ∃ e' ∈ [min, max], e ≤ n ∧ n ≤ e' := by
  simp only [rangeDomain.table, List.mem_cons, List.not_mem_nil, or_false, exists_eq_or_imp, exists_eq_left]
  split_ifs <;> rw [mem_between] <;> omega

theorem mem_rangeDomain :
    n ∈ rangeDomain type l r ↔ ∃ e ∈ endpoints type l r, ∃ e' ∈ endpoints type l r, wrap e ≤ n ∧ n ≤ wrap e' := by
  cases type with
  | plus => simp [rangeDomain, endpoints, mem_table]
  | min => simp [rangeDomain, endpoints, mem_table]
  | prod =>
    rw [rangeDomain, mem_table]
    simp only [endpoints, List.mem_cons, List.not_mem_nil, or_false, exists_eq_or_imp, exists_eq_left]
    omega

theorem mem_results : n ∈ results type l r ↔ ∃ x ∈ l.elements, ∃ y ∈ r.elements, type.op x y = n := by
  simp [results, and_assoc]

theorem endpoints_subset (hl : l.isRange = true) (hr : r.isRange = true) :
    ∀ e ∈ endpoints type l r, e ∈ results type l r := by
  have hlf : l.first ∈ l.elements := (l.range hl _).2 ⟨le_refl _, l.ordered hl⟩
  have hll : l.last ∈ l.elements := (l.range hl _).2 ⟨l.ordered hl, le_refl _⟩
  have hrf : r.first ∈ r.elements := (r.range hr _).2 ⟨le_refl _, r.ordered hr⟩
  have hrl : r.last ∈ r.elements := (r.range hr _).2 ⟨r.ordered hr, le_refl _⟩
  intro e he
  rw [mem_results]
  cases type with
  | plus =>
    simp only [endpoints, List.mem_cons, List.not_mem_nil, or_false] at he
    rcases he with rfl | rfl
    · exact ⟨_, hlf, _, hrf, rfl⟩
    · exact ⟨_, hll, _, hrl, rfl⟩
  | min =>
    simp only [endpoints, List.mem_cons, List.not_mem_nil, or_false] at he
    rcases he with rfl | rfl
    · exact ⟨_, hlf, _, hrl, rfl⟩
    · exact ⟨_, hll, _, hrf, rfl⟩
  | prod =>
    simp only [endpoints, List.mem_cons, List.not_mem_nil, or_false] at he
    rcases he with rfl | rfl | rfl | rfl
    · exact ⟨_, hlf, _, hrf, rfl⟩
    · exact ⟨_, hlf, _, hrl, rfl⟩
    · exact ⟨_, hll, _, hrf, rfl⟩
    · exact ⟨_, hll, _, hrl, rfl⟩

-- for one factor, the product lies between those with the ends of the other
theorem mul_between {a b : ℤ} (hx : a ≤ x ∧ x ≤ b) (y : ℤ) :
    (∃ e ∈ [a, b], e * y ≤ x * y) ∧ ∃ e ∈ [a, b], x * y ≤ e * y := by
  rcases le_total 0 y with hy | hy
  · exact ⟨⟨a, by simp, mul_le_mul_of_nonneg_right hx.1 hy⟩, ⟨b, by simp, mul_le_mul_of_nonneg_right hx.2 hy⟩⟩
  · exact ⟨⟨b, by simp, mul_le_mul_of_nonpos_right hx.2 hy⟩, ⟨a, by simp, mul_le_mul_of_nonpos_right hx.1 hy⟩⟩

theorem mem_endpoints_prod {e f : ℤ} (he : e ∈ [l.first, l.last]) (hf : f ∈ [r.first, r.last]) :
    e * f ∈ endpoints .prod l r := by
  simp only [List.mem_cons, List.not_mem_nil, or_false] at he hf
  rcases he with rfl | rfl <;> rcases hf with rfl | rfl <;> simp [endpoints]

theorem op_between (hx : l.first ≤ x ∧ x ≤ l.last) (hy : r.first ≤ y ∧ y ≤ r.last) :
    (∃ e ∈ endpoints type l r, e ≤ type.op x y) ∧ ∃ e ∈ endpoints type l r, type.op x y ≤ e := by
  cases type with
  | plus =>
    exact ⟨⟨l.first + r.first, by simp [endpoints], add_le_add hx.1 hy.1⟩,
      ⟨l.last + r.last, by simp [endpoints], add_le_add hx.2 hy.2⟩⟩
  | min =>
    exact ⟨⟨l.first - r.last, by simp [endpoints], Int.sub_le_sub hx.1 hy.2⟩,
      ⟨l.last - r.first, by simp [endpoints], Int.sub_le_sub hx.2 hy.1⟩⟩
  | prod =>
    obtain ⟨⟨e, he, hle⟩, ⟨e', he', hle'⟩⟩ := mul_between hx y
    obtain ⟨⟨f, hf, hlf⟩, -⟩ := mul_between hy e
    obtain ⟨-, ⟨f', hf', hlf'⟩⟩ := mul_between hy e'
    refine ⟨⟨e * f, mem_endpoints_prod he hf, ?_⟩, ⟨e' * f', mem_endpoints_prod he' hf', ?_⟩⟩
    · calc e * f = f * e := mul_comm _ _
        _ ≤ y * e := hlf
        _ = e * y := mul_comm _ _
        _ ≤ x * y := hle
    · calc x * y ≤ e' * y := hle'
        _ = y * e' := mul_comm _ _
        _ ≤ f' * e' := hlf'
        _ = e' * f' := mul_comm _ _

end Ranges

section Domains

variable {type : TwinTT} {l r : SortTable} {n v : ℤ}

theorem spanned_of_mem (h : n ∈ results type l r) : Spanned type l r n := by
  unfold Spanned
  split_ifs
  · exact ⟨n, h, n, h, le_refl _, le_refl _⟩
  · exact h

theorem mem_newdomain (hfit : ∀ n ∈ results type l r, Machine n) :
    n ∈ (newdomain type l r).elements ↔ Spanned type l r n := by
  unfold newdomain Spanned
  split_ifs with hrange
  · obtain ⟨hl, hr⟩ := Bool.and_eq_true _ _ |>.mp hrange
    have hwrap : ∀ e ∈ endpoints type l r, wrap e = e :=
      fun e he => wrap_eq_iff.2 (hfit e (endpoints_subset hl hr e he))
    rw [mem_rangeDomain]
    constructor
    · rintro ⟨e, he, e', he', hle, hle'⟩
      rw [hwrap e he] at hle
      rw [hwrap e' he'] at hle'
      exact ⟨e, endpoints_subset hl hr e he, e', endpoints_subset hl hr e' he', hle, hle'⟩
    · rintro ⟨v, hv, v', hv', hle, hle'⟩
      obtain ⟨x, hx, y, hy, rfl⟩ := mem_results.1 hv
      obtain ⟨x', hx', y', hy', rfl⟩ := mem_results.1 hv'
      obtain ⟨e, he, hlow⟩ := (op_between ((l.range hl x).1 hx) ((r.range hr y).1 hy)).1
      obtain ⟨e', he', hhigh⟩ := (op_between ((l.range hl x').1 hx') ((r.range hr y').1 hy')).2
      refine ⟨e, he, e', he', ?_, ?_⟩
      · exact (hwrap e he).trans_le (hlow.trans hle)
      · exact (hle'.trans hhigh).trans_eq (hwrap e' he').symm
  · rw [Finset.mem_image]
    constructor
    · rintro ⟨v, hv, rfl⟩
      rwa [wrap_eq_iff.2 (hfit v hv)]
    · exact fun hn => ⟨n, hn, wrap_eq_iff.2 (hfit n hn)⟩

theorem wrap_mem_newdomain (h : v ∈ (newdomain type l r).values) : wrap v ∈ (newdomain type l r).elements := by
  unfold newdomain at h ⊢
  split_ifs at h ⊢
  · have hv : v ∈ endpoints type l r := List.mem_toFinset.1 h
    exact mem_rangeDomain.2 ⟨v, hv, v, hv, le_refl _, le_refl _⟩
  · exact Finset.mem_image_of_mem _ h

theorem machine_values_iff :
    (∀ v ∈ (newdomain type l r).values, Machine v) ↔ ∀ n ∈ results type l r, Machine n := by
  unfold newdomain
  split_ifs with hrange
  · obtain ⟨hl, hr⟩ := Bool.and_eq_true _ _ |>.mp hrange
    simp only [List.mem_toFinset]
    constructor
    · intro h n hn
      obtain ⟨x, hx, y, hy, rfl⟩ := mem_results.1 hn
      have hbetween := @op_between type _ _ _ _ ((l.range hl x).1 hx) ((r.range hr y).1 hy)
      obtain ⟨⟨e, he, hlow⟩, ⟨e', he', hhigh⟩⟩ := hbetween
      exact ⟨(h e he).1.trans hlow, hhigh.trans (h e' he').2⟩
    · exact fun h e he => h e (endpoints_subset hl hr e he)
  · exact Iff.rfl

theorem not_wrapped_iff :
    (∀ v ∈ (newdomain type l r).values, wrap v ∈ (newdomain type l r).elements → wrap v = v) ↔
      ∀ n ∈ results type l r, Machine n := by
  rw [← machine_values_iff]
  exact forall₂_congr fun v hv => (forall_prop_of_true (wrap_mem_newdomain hv)).trans wrap_eq_iff

end Domains

section Calls

variable {type : TwinTT} {c first : Call} {calls : List Call}

theorem fits_iff : Fits type c ↔ ∀ n ∈ results type c.leftdomain c.rightdomain, Machine n := by
  simp only [Fits, mem_results]
  constructor
  · rintro h n ⟨x, hx, y, hy, rfl⟩
    exact h x hx y hy
  · exact fun h x hx y hy => h _ ⟨x, hx, y, hy, rfl⟩

theorem good_new : Good type c (newdomain type c.leftdomain c.rightdomain) ↔ Fits type c := by
  rw [fits_iff]
  constructor
  · exact fun h => not_wrapped_iff.1 h.not_wrapped
  · intro h
    refine ⟨fun _ x hx y hy => (mem_newdomain h).2 (spanned_of_mem ?_), not_wrapped_iff.2 h⟩
    exact mem_results.2 ⟨x, hx, y, hy, rfl⟩

theorem good_saved (hfit : Fits type first) :
    Good type c (newdomain type first.leftdomain first.rightdomain) ↔ (c.creates → Covers type first c) := by
  rw [fits_iff] at hfit
  constructor
  · intro h hcreates x hx y hy
    exact (mem_newdomain hfit).1 (h.contains hcreates x hx y hy)
  · intro h
    exact ⟨fun hcreates x hx y hy => (mem_newdomain hfit).2 (h hcreates x hx y hy), not_wrapped_iff.2 hfit⟩

theorem good_run_saved (hfit : Fits type first) :
    (∀ p ∈ run type (some (newdomain type first.leftdomain first.rightdomain)) calls, Good type p.1 p.2) ↔
      Safe type (some first) calls := by
  induction calls with
  | nil => simp [run, Safe]
  | cons c calls ih => rw [run, computeDomain, Safe, List.forall_mem_cons, good_saved hfit, ih]

theorem good_run_iff (type : TwinTT) (calls : List Call) :
    (∀ p ∈ run type none calls, Good type p.1 p.2) ↔ Safe type none calls := by
  induction calls with
  | nil => simp [run, Safe]
  | cons c calls ih =>
    rw [run, computeDomain, Safe, List.forall_mem_cons, good_new]
    refine and_congr_right fun hfit => ?_
    cases hsave : c.cansave with
    | false => simpa using ih
    | true => simpa using good_run_saved hfit

end Calls

def zeroToOne : SortTable where
  elements := between 0 1
  machine n hn := by rw [mem_between] at hn; unfold Machine; omega
  isRange := true
  first := 0
  last := 1
  ordered _ := by decide
  range _ n := mem_between

def zeroToTwo : SortTable where
  elements := between 0 2
  machine n hn := by rw [mem_between] at hn; unfold Machine; omega
  isRange := true
  first := 0
  last := 2
  ordered _ := by decide
  range _ n := mem_between

-- the second call has a larger operand, and gets the domain of the first one
theorem not_good_larger :
    ¬ ∀ p ∈ run .plus none [⟨.varid, .varid, zeroToOne, zeroToOne⟩, ⟨.varid, .varid, zeroToTwo, zeroToOne⟩],
      Good .plus p.1 p.2 := by
  intro h
  have hgood := h (⟨.varid, .varid, zeroToTwo, zeroToOne⟩, newdomain .plus zeroToOne zeroToOne) (by
    simp [run, computeDomain, Call.cansave, GroundTerm.isVariable, Call.leftdomain, Call.rightdomain,
      GroundTerm.domain])
  have : (3 : ℤ) ∈ (newdomain .plus zeroToOne zeroToOne).elements :=
    hgood.contains rfl 2 (by decide) 1 (by decide)
  exact absurd this (by decide)

end TwinTermGrounder
