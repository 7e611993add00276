import DeclarativeLocalSearch.Grounding.BodyOrder
import DeclarativeLocalSearch.Foundation.SearchTree
import Mathlib.Data.Set.Insert

namespace Ecnf

open Theory (CompType)
open SearchTree (Tree)

-- a comparison of the type that makes its literal equivalent with it
structure Comparison where
  left : CPTerm
  comp : CompType
  right : CPBound
  deriving DecidableEq

namespace Comparison

variable (termBefore : TermKind → ℕ)

def lt (a b : Comparison) : Bool := TsBody.cpLt termBefore id a.left b.left a.comp b.comp a.right b.right

end Comparison

-- an equality of two variables has the smaller one on the left
def swapped (left : CPTerm) (comp : CompType) (right : CPBound) : CPTerm × CPBound :=
  match left, right with
  | .var leftvar, .varid rightvar =>
    if leftvar > rightvar && (comp == .eq || comp == .neq) then (.var rightvar, .varid leftvar) else (left, right)
  | _, _ => (left, right)

def tsbody (q : Comparison) : Comparison :=
  let (left, right) := swapped q.left q.comp q.right
  ⟨left, if q.comp = .neq then .eq else q.comp, right⟩

structure Translator where
  cpset : Tree Comparison ℕ
  next : ℕ

section Reify

-- rebalance is what the tree does to its shape after an insertion
variable (termBefore : TermKind → ℕ) (rebalance : Tree Comparison ℕ → Tree Comparison ℕ)

def Translator.reify (g : Translator) (q : Comparison) : ℤ × Translator :=
  let body := tsbody q
  match g.cpset.find (Comparison.lt termBefore) body with
  | some (stored, lit) => (if stored.comp = q.comp then lit else -lit, g)
  | none =>
    let nr := g.next
    (if q.comp = .neq then -nr else nr,
      ⟨rebalance (g.cpset.insert (Comparison.lt termBefore) body nr), nr + 1⟩)

-- the requests with the literals returned for them
def Translator.run (g : Translator) : List Comparison → List (Comparison × ℤ) × Translator
  | [] => ([], g)
  | q :: qs =>
    let (lit, g) := g.reify termBefore rebalance q
    let (answers, g) := g.run qs
    ((q, lit) :: answers, g)

def Translator.start (n : ℕ) : Translator := ⟨.leaf, n⟩

end Reify

section Meaning

-- the values of terms and bounds, where a minimum of nothing is above every number
structure Valuation (K : Type) where
  term : CPTerm → K
  bound : CPBound → K
  var_eq : ∀ v, term (.var v) = bound (.varid v)

variable {K : Type} [LinearOrder K]

def holds (V : Valuation K) (q : Comparison) : Prop :=
  match q.comp with
  | .eq => V.term q.left = V.bound q.right
  | .neq => V.term q.left ≠ V.bound q.right
  | .lt => V.term q.left < V.bound q.right
  | .gt => V.term q.left > V.bound q.right
  | .leq => V.term q.left ≤ V.bound q.right
  | .geq => V.term q.left ≥ V.bound q.right

def litHolds (ν : ℕ → Prop) (l : ℤ) : Prop := if 0 < l then ν l.natAbs else ¬ ν l.natAbs

-- equal or complementary after normalisation
def Related (q q' : Comparison) : Prop :=
  compEqThroughNeg q.comp q'.comp = true ∧ swapped q.left q.comp q.right = swapped q'.left q'.comp q'.right

-- what is asked for of the literals returned
structure Correct (answers : List (Comparison × ℤ)) (g : Translator) : Prop where
  equivalent : ∀ {K : Type} [LinearOrder K] (V : Valuation K) (ν : ℕ → Prop),
    (∀ e ∈ g.cpset.toList, ν e.2 ↔ holds V e.1) → ∀ a ∈ answers, litHolds ν a.2 ↔ holds V a.1
  shared : ∀ a ∈ answers, ∀ a' ∈ answers, Related a.1 a'.1 → a.2.natAbs = a'.2.natAbs
  separate : ∀ a ∈ answers, ∀ a' ∈ answers, a.2.natAbs = a'.2.natAbs → Related a.1 a'.1

end Meaning

section Runs

variable {termBefore : TermKind → ℕ} {rebalance : Tree Comparison ℕ → Tree Comparison ℕ} {q : Comparison}

theorem lt_iff (hinj : Function.Injective termBefore) {a b : Comparison} : Comparison.lt termBefore a b = true ↔
    TsBody.CpBelow termBefore id a.left b.left a.comp b.comp a.right b.right :=
  TsBody.cpLt_iff hinj

-- the same operands, and equal or complementary operators
def Same (a b : Comparison) : Prop :=
  compEqThroughNeg a.comp b.comp = true ∧ a.left = b.left ∧ a.right = b.right

theorem same_iff (hinj : Function.Injective termBefore) {a b : Comparison} :
    Same a b ↔ Comparison.lt termBefore a b = false ∧ Comparison.lt termBefore b a = false := by
  rw [← Bool.not_eq_true, ← Bool.not_eq_true, lt_iff hinj, lt_iff hinj, TsBody.CpBelow, TsBody.CpBelow,
    TsBody.compEqThroughNeg_comm b.comp]
  cases hclass : compEqThroughNeg a.comp b.comp with
  | true =>
    simp only [↓reduceIte, id_eq]
    rw [not_lt, not_lt, ← le_antisymm_iff, eq_comm, operands_eq_iff hinj, Same, hclass]
    simp
  | false =>
    have hne := TsBody.compRank_ne hclass
    simp only [Bool.false_eq_true, ↓reduceIte, Same, hclass, false_and, false_iff]
    omega

theorem Same.symm {a b : Comparison} (h : Same a b) : Same b a :=
  ⟨by rw [TsBody.compEqThroughNeg_comm]; exact h.1, h.2.1.symm, h.2.2.symm⟩

theorem Same.trans {a b c : Comparison} (h : Same a b) (h' : Same b c) : Same a c :=
  ⟨(TsBody.compEqThroughNeg_trans h.1).trans h'.1, h.2.1.trans h'.2.1, h.2.2.trans h'.2.2⟩

theorem tsbody_comp_ne (q : Comparison) : (tsbody q).comp ≠ .neq := by
  unfold tsbody
  dsimp only
  split
  · nofun
  · assumption

theorem compEqThroughNeg_tsbody (q : Comparison) : compEqThroughNeg (tsbody q).comp q.comp = true := by
  unfold tsbody
  dsimp only
  split
  case isTrue h => rw [h]; rfl
  case isFalse => exact TsBody.compEqThroughNeg_refl _

theorem related_iff {q q' : Comparison} : Related q q' ↔ Same (tsbody q) (tsbody q') := by
  have hclass : compEqThroughNeg (tsbody q).comp (tsbody q').comp = compEqThroughNeg q.comp q'.comp := by
    rw [TsBody.compEqThroughNeg_trans (compEqThroughNeg_tsbody q), TsBody.compEqThroughNeg_comm,
      TsBody.compEqThroughNeg_trans (compEqThroughNeg_tsbody q'), TsBody.compEqThroughNeg_comm]
  rw [Related, Same, hclass, Prod.ext_iff]
  rfl

-- a class has two operators, so that two changes to the complement are none
theorem class_two {c c' c'' : CompType} (h : compEqThroughNeg c c' = true) (h' : compEqThroughNeg c' c'' = true)
    (P : Prop) : (if c = c'' then (if c = c' then P else ¬ P) else ¬ (if c = c' then P else ¬ P)) ↔
      if c' = c'' then P else ¬ P := by
  cases c <;> cases c' <;> first | exact absurd h (by decide) | skip
  all_goals cases c'' <;> first | exact absurd h' (by decide) | simp

section Values

variable {K : Type} [LinearOrder K] {V : Valuation K}

theorem holds_congr {a b : Comparison} (hcomp : a.comp = b.comp) (hleft : V.term a.left = V.term b.left)
    (hright : V.bound a.right = V.bound b.right) : holds V a ↔ holds V b := by
  unfold holds
  rw [hcomp, hleft, hright]

-- operators of one class are equal or complementary
theorem holds_of_same {a b : Comparison} (h : Same a b) :
    holds V a ↔ if a.comp = b.comp then holds V b else ¬ holds V b := by
  obtain ⟨left, comp, right⟩ := a
  obtain ⟨left', comp', right'⟩ := b
  obtain ⟨hclass, rfl, rfl⟩ := h
  dsimp only at hclass
  cases comp <;> cases comp' <;> first | exact absurd hclass (by decide) | simp [holds]

theorem swapped_cases (left : CPTerm) (comp : CompType) (right : CPBound) :
    swapped left comp right = (left, right) ∨ ∃ x y, left = .var x ∧ right = .varid y ∧
      swapped left comp right = (.var y, .varid x) ∧ (comp = .eq ∨ comp = .neq) := by
  unfold swapped
  split
  case h_1 x y =>
    split
    case isTrue h => exact .inr ⟨x, y, rfl, rfl, rfl, by simpa using (Bool.and_eq_true_iff.mp h).2⟩
    case isFalse => exact .inl rfl
  case h_2 => exact .inl rfl

theorem holds_tsbody (q : Comparison) :
    holds V q ↔ if (tsbody q).comp = q.comp then holds V (tsbody q) else ¬ holds V (tsbody q) := by
  obtain ⟨left, comp, right⟩ := q
  obtain hswap | ⟨x, y, rfl, rfl, hswap, rfl | rfl⟩ := swapped_cases left comp right
  · rw [tsbody, hswap]
    cases comp <;> simp [holds]
  · rw [tsbody, hswap]
    simp [holds, V.var_eq, eq_comm]
  · rw [tsbody, hswap]
    simp [holds, V.var_eq, eq_comm]

end Values

section Answers

variable (hinj : Function.Injective termBefore) (hbalance : ∀ t, (rebalance t).toList = t.toList)
  {g g' : Translator} {qs : List Comparison} {answers : List (Comparison × ℤ)}

-- the entry that an answer comes from
def Answered (g : Translator) (a : Comparison × ℤ) : Prop :=
  ∃ e ∈ g.cpset.toList, Same e.1 (tsbody a.1) ∧ e.1.comp ≠ .neq ∧
    a.2 = if e.1.comp = a.1.comp then (e.2 : ℤ) else -(e.2 : ℤ)

structure Valid (g : Translator) : Prop where
  next : 0 < g.next
  comp : ∀ e ∈ g.cpset.toList, e.1.comp ≠ .neq
  fresh : ∀ e ∈ g.cpset.toList, 0 < e.2 ∧ e.2 < g.next
  one_key : ∀ e ∈ g.cpset.toList, ∀ e' ∈ g.cpset.toList, e.2 = e'.2 → e.1 = e'.1

theorem Valid.start {n : ℕ} (hn : 0 < n) : Valid (Translator.start n) :=
  ⟨hn, fun _ he => absurd he List.not_mem_nil, fun _ he => absurd he List.not_mem_nil,
    fun _ he => absurd he List.not_mem_nil⟩

variable (rebalance) in
theorem reify_cases (hinj : Function.Injective termBefore) (g : Translator) (q : Comparison) :
    (∃ e ∈ g.cpset.toList, Same e.1 (tsbody q) ∧
      g.reify termBefore rebalance q = (if e.1.comp = q.comp then (e.2 : ℤ) else -(e.2 : ℤ), g)) ∨
    g.cpset.find (Comparison.lt termBefore) (tsbody q) = none ∧
      g.reify termBefore rebalance q = (if q.comp = .neq then -(g.next : ℤ) else (g.next : ℤ),
        ⟨rebalance (g.cpset.insert (Comparison.lt termBefore) (tsbody q) g.next), g.next + 1⟩) := by
  cases hfind : g.cpset.find (Comparison.lt termBefore) (tsbody q) with
  | some e =>
    obtain ⟨hmem, hlow, hhigh⟩ := Tree.mem_of_find hfind
    exact .inl ⟨e, hmem, (same_iff hinj).mpr ⟨hlow, hhigh⟩, by simp only [Translator.reify, hfind]⟩
  | none => exact .inr ⟨rfl, by simp only [Translator.reify, hfind]⟩

theorem tsbody_comp_eq_iff (q : Comparison) : (tsbody q).comp = q.comp ↔ q.comp ≠ .neq := by
  unfold tsbody
  dsimp only
  split
  case isTrue h => simp [h]
  case isFalse h => simp [h]

include hbalance

theorem mem_inserted {k : Comparison} {e : Comparison × ℕ} {n : ℕ} :
    e ∈ (rebalance (g.cpset.insert (Comparison.lt termBefore) k n)).toList ↔ e = (k, n) ∨ e ∈ g.cpset.toList := by
  rw [hbalance, Tree.mem_insert]

include hinj

theorem reify_mono (q : Comparison) {e : Comparison × ℕ} (he : e ∈ g.cpset.toList) :
    e ∈ (g.reify termBefore rebalance q).2.cpset.toList := by
  obtain ⟨_, _, _, hreify⟩ | ⟨_, hreify⟩ := reify_cases rebalance hinj g q
  · rwa [hreify]
  · rw [hreify]
    exact (mem_inserted hbalance).mpr (.inr he)

theorem Valid.reify (hg : Valid g) (q : Comparison) : Valid (g.reify termBefore rebalance q).2 := by
  obtain ⟨_, _, _, hreify⟩ | ⟨_, hreify⟩ := reify_cases rebalance hinj g q
  · rwa [hreify]
  · rw [hreify]
    refine ⟨g.next.succ_pos, fun e he => ?_, fun e he => ?_, fun e he e' he' heq => ?_⟩
    · obtain rfl | he := (mem_inserted hbalance).mp he
      · exact tsbody_comp_ne q
      · exact hg.comp e he
    · obtain rfl | he := (mem_inserted hbalance).mp he
      · exact ⟨hg.next, g.next.lt_succ_self⟩
      · exact ⟨(hg.fresh e he).1, (hg.fresh e he).2.trans g.next.lt_succ_self⟩
    · obtain rfl | he := (mem_inserted hbalance).mp he <;> obtain rfl | he' := (mem_inserted hbalance).mp he'
      · rfl
      · exact absurd heq (hg.fresh e' he').2.ne'
      · exact absurd heq (hg.fresh e he).2.ne
      · exact hg.one_key e he e' he' heq

theorem answered_reify (hg : Valid g) (q : Comparison) :
    Answered (g.reify termBefore rebalance q).2 (q, (g.reify termBefore rebalance q).1) := by
  obtain ⟨e, he, hsame, hreify⟩ | ⟨_, hreify⟩ := reify_cases rebalance hinj g q
  · rw [hreify]
    exact ⟨e, he, hsame, hg.comp e he, rfl⟩
  · rw [hreify]
    refine ⟨(tsbody q, g.next), (mem_inserted hbalance).mpr (.inl rfl), ?_, tsbody_comp_ne q, ?_⟩
    · exact ⟨TsBody.compEqThroughNeg_refl _, rfl, rfl⟩
    · dsimp only
      by_cases h : q.comp = .neq
      · rw [if_pos h, if_neg fun hc => (tsbody_comp_eq_iff q).mp hc h]
      · rw [if_neg h, if_pos ((tsbody_comp_eq_iff q).mpr h)]

theorem run_mono {e : Comparison × ℕ} (he : e ∈ g.cpset.toList) :
    e ∈ (g.run termBefore rebalance qs).2.cpset.toList := by
  induction qs generalizing g with
  | nil => exact he
  | cons q qs ih => exact ih (reify_mono hinj hbalance q he)

theorem Valid.run (hg : Valid g) (qs : List Comparison) : Valid (g.run termBefore rebalance qs).2 := by
  induction qs generalizing g with
  | nil => exact hg
  | cons q qs ih => exact ih (hg.reify hinj hbalance q)

theorem answered_run (hg : Valid g) (qs : List Comparison) {a : Comparison × ℤ}
    (ha : a ∈ (g.run termBefore rebalance qs).1) : Answered (g.run termBefore rebalance qs).2 a := by
  induction qs generalizing g with
  | nil => cases ha
  | cons q qs ih =>
    obtain rfl | ha := List.mem_cons.mp ha
    · obtain ⟨e, he, hanswer⟩ := answered_reify hinj hbalance hg q
      change Answered ((g.reify termBefore rebalance q).2.run termBefore rebalance qs).2 _
      exact ⟨e, run_mono hinj hbalance he, hanswer⟩
    · exact ih (hg.reify hinj hbalance q) ha

omit hinj hbalance

theorem Answered.natAbs {a : Comparison × ℤ} (h : Answered g a) :
    ∃ e ∈ g.cpset.toList, Same e.1 (tsbody a.1) ∧ e.2 = a.2.natAbs := by
  obtain ⟨e, he, hsame, _, hlit⟩ := h
  refine ⟨e, he, hsame, ?_⟩
  rw [hlit]
  split <;> simp

theorem Answered.equivalent (hg : Valid g) {a : Comparison × ℤ} (h : Answered g a) {K : Type} [LinearOrder K]
    (V : Valuation K) {ν : ℕ → Prop} (hν : ∀ e ∈ g.cpset.toList, ν e.2 ↔ holds V e.1) :
    litHolds ν a.2 ↔ holds V a.1 := by
  obtain ⟨e, he, hsame, hcomp, hlit⟩ := h
  have hpos : (0 : ℤ) < e.2 := Int.natCast_pos.mpr (hg.fresh e he).1
  have hvalue : litHolds ν a.2 ↔ if e.1.comp = a.1.comp then holds V e.1 else ¬ holds V e.1 := by
    rw [hlit]
    split
    · rw [litHolds, if_pos hpos, Int.natAbs_natCast, hν e he]
    · rw [litHolds, if_neg (by omega), Int.natAbs_neg, Int.natAbs_natCast, hν e he]
  rw [hvalue, holds_tsbody a.1, holds_of_same hsame]
  exact class_two hsame.1 (compEqThroughNeg_tsbody a.1) _

section Ordered

-- < and >= are not requested together with > or =<
def Apart (operators : Set CompType) : Prop :=
  ¬ (.lt ∈ operators ∧ .geq ∈ operators ∧ (.gt ∈ operators ∨ .leq ∈ operators))

def keys (operators : Set CompType) : Set Comparison := {k | k.comp ∈ operators ∨ k.comp = .eq}

variable {operators : Set CompType} (hapart : Apart operators)
include hapart

theorem Apart.mem {c c' c'' : CompType} (hlt : c = .lt) (hgeq : c' = .geq) (hbetween : c'' = .gt ∨ c'' = .leq)
    (h : c ∈ operators ∨ c = .eq) (h' : c' ∈ operators ∨ c' = .eq) (h'' : c'' ∈ operators ∨ c'' = .eq) : False := by
  subst hlt hgeq
  obtain rfl | rfl := hbetween
  · exact hapart ⟨h.resolve_right nofun, h'.resolve_right nofun, .inl (h''.resolve_right nofun)⟩
  · exact hapart ⟨h.resolve_right nofun, h'.resolve_right nofun, .inr (h''.resolve_right nofun)⟩

-- the keys as bodies, each term at its own address
theorem consistent_keys : TsBody.Consistent termBefore id
    {b : TsBody Unit CPTerm | ∃ k ∈ keys operators, b = .cp .eq k.left k.comp k.right} where
  no_agg := by
    rintro _ ⟨k, _, rfl⟩
    nofun
  one_address := fun _ _ _ _ _ _ _ _ _ h => h
  ordered := by
    rintro _ _ _ _ _ _ _ _ ⟨k₁, h₁, e₁⟩ ⟨k₂, h₂, e₂⟩ ⟨k₃, h₃, e₃⟩ hbetween
    injection e₁ with _ _ hc₁
    injection e₂ with _ _ hc₂
    injection e₃ with _ _ hc₃
    exact (hapart.mem hc₁.symm hc₂.symm (hc₃ ▸ hbetween) h₁ h₂ h₃).elim

include hinj

theorem orders_keys : Tree.Orders (Comparison.lt termBefore) (keys operators) where
  trans a ha b hb c hc h h' := by
    rw [lt_iff hinj] at h h' ⊢
    exact TsBody.cpBelow_trans (consistent_keys hapart) ⟨a, ha, rfl⟩ ⟨b, hb, rfl⟩ ⟨c, hc, rfl⟩ h h'
  incomparable_left a ha b hb c hc h h' hab := by
    obtain ⟨hclass, hleft, hright⟩ := (same_iff hinj).mpr ⟨h, h'⟩
    rw [lt_iff hinj, TsBody.CpBelow] at hab ⊢
    have hcongr : compEqThroughNeg a.comp c.comp = compEqThroughNeg a.comp b.comp := by
      rw [TsBody.compEqThroughNeg_comm, ← TsBody.compEqThroughNeg_trans hclass, TsBody.compEqThroughNeg_comm]
    rw [hcongr, ← hleft, ← hright]
    split
    case isTrue hab' => rwa [if_pos hab'] at hab
    case isFalse hab' =>
      rw [if_neg hab'] at hab
      by_contra hhigh
      have hac : compEqThroughNeg c.comp a.comp = false := by
        rw [TsBody.compEqThroughNeg_comm, hcongr]
        exact eq_false_of_ne_true hab'
      obtain ⟨hc', hb', hbetween⟩ := TsBody.overlap (by rw [TsBody.compEqThroughNeg_comm]; exact hclass) hac
        (lt_of_le_of_ne (not_lt.mp hhigh) (TsBody.compRank_ne hac)) (Nat.lt_asymm hab)
      exact hapart.mem hc' hb' hbetween hc hb ha

omit hinj hapart in
theorem tsbody_mem_keys {q : Comparison} (hq : q.comp ∈ operators) : tsbody q ∈ keys operators := by
  by_cases h : q.comp = .neq
  · exact .inr (if_pos h)
  · refine .inl ?_
    rwa [(tsbody_comp_eq_iff q).mpr h]

-- a sorted map, with keys of the operators requested
structure Kept (termBefore : TermKind → ℕ) (operators : Set CompType) (g : Translator) : Prop where
  keys : ∀ e ∈ g.cpset.toList, e.1 ∈ keys operators
  sorted : Tree.Sorted (Comparison.lt termBefore) g.cpset

include hbalance

theorem Kept.reify (hg : Kept termBefore operators g) (hq : q.comp ∈ operators) :
    Kept termBefore operators (g.reify termBefore rebalance q).2 := by
  obtain ⟨_, _, _, hreify⟩ | ⟨hnone, hreify⟩ := reify_cases rebalance hinj g q
  · rwa [hreify]
  · rw [hreify]
    have horders := orders_keys hinj hapart
    refine ⟨fun e he => ?_, ?_⟩
    · obtain rfl | he := (mem_inserted hbalance).mp he
      · exact tsbody_mem_keys hq
      · exact hg.keys e he
    · have hsorted := Tree.sorted_insert (v := g.next) horders (tsbody_mem_keys hq) hg.keys hg.sorted
        fun e he => by
          by_contra hno
          rw [not_or, Bool.not_eq_true, Bool.not_eq_true] at hno
          rw [Tree.find_of_mem horders (tsbody_mem_keys hq) hg.keys hg.sorted he hno.1 hno.2] at hnone
          cases hnone
      rwa [Tree.Sorted, hbalance]

theorem Kept.run (hg : Kept termBefore operators g) (hqs : ∀ q ∈ qs, q.comp ∈ operators) :
    Kept termBefore operators (g.run termBefore rebalance qs).2 := by
  induction qs generalizing g with
  | nil => exact hg
  | cons q qs ih =>
    exact ih (hg.reify hinj hbalance hapart (hqs q List.mem_cons_self)) fun q hq => hqs q (List.mem_cons_of_mem _ hq)

omit hinj hapart hbalance in
theorem Kept.eq_of_same (hinj : Function.Injective termBefore) (hg : Kept termBefore operators g)
    {e e' : Comparison × ℕ} (he : e ∈ g.cpset.toList) (he' : e' ∈ g.cpset.toList) (h : Same e.1 e'.1) : e = e' := by
  obtain ⟨hlow, hhigh⟩ := (same_iff hinj).mp h
  exact hg.sorted.eq_of_incomparable he he' hlow hhigh

theorem run_correct (hg : Valid g) (hkept : Kept termBefore operators g) (hqs : ∀ q ∈ qs, q.comp ∈ operators) :
    Correct (g.run termBefore rebalance qs).1 (g.run termBefore rebalance qs).2 where
  equivalent V _ hν a ha :=
    (answered_run hinj hbalance hg qs ha).equivalent (hg.run hinj hbalance qs) V hν
  shared a ha a' ha' h := by
    obtain ⟨e, he, hsame, hlit⟩ := (answered_run hinj hbalance hg qs ha).natAbs
    obtain ⟨e', he', hsame', hlit'⟩ := (answered_run hinj hbalance hg qs ha').natAbs
    have heq := (hkept.run hinj hbalance hapart hqs).eq_of_same hinj he he'
      (hsame.trans ((related_iff.mp h).trans hsame'.symm))
    rw [← hlit, ← hlit', heq]
  separate a ha a' ha' h := by
    obtain ⟨e, he, hsame, hlit⟩ := (answered_run hinj hbalance hg qs ha).natAbs
    obtain ⟨e', he', hsame', hlit'⟩ := (answered_run hinj hbalance hg qs ha').natAbs
    have hkey := (hg.run hinj hbalance qs).one_key e he e' he' (by rw [hlit, hlit', h])
    exact related_iff.mpr (hsame.symm.trans (hkey ▸ hsame'))

end Ordered

-- x op 0
def xZero (op : CompType) : Comparison := ⟨.var 1, op, .bound 0⟩

-- the search for >= goes past < when the root is > or =<
theorem run_overlapping (hsmall : ∀ t, t.toList.length ≤ 2 → rebalance t = t) (n : ℕ) {op : CompType}
    (hop : op = .gt ∨ op = .leq) :
    ((Translator.start n).run termBefore rebalance [xZero op, xZero .lt, xZero .geq]).1 =
      [(xZero op, (n : ℤ)), (xZero .lt, (n : ℤ) + 1), (xZero .geq, (n : ℤ) + 1 + 1)] := by
  have hone (k : Comparison) (m : ℕ) : rebalance (.node .leaf k m .leaf) = .node .leaf k m .leaf :=
    hsmall _ (by simp [Tree.toList])
  have htwo (k k' : Comparison) (m m' : ℕ) : rebalance (.node (.node .leaf k m .leaf) k' m' .leaf) =
      .node (.node .leaf k m .leaf) k' m' .leaf := hsmall _ (by simp [Tree.toList])
  obtain rfl | rfl := hop <;>
    simp [Translator.run, Translator.reify, Translator.start, tsbody, swapped, xZero, Tree.find, Tree.lowerBound,
      Tree.insert, Comparison.lt, TsBody.cpLt, compEqThroughNeg, compRank, hone, htwo]

theorem run_correct_iff (hinj : Function.Injective termBefore) (hbalance : ∀ t, (rebalance t).toList = t.toList)
    (hsmall : ∀ t, t.toList.length ≤ 2 → rebalance t = t) {n : ℕ} (hn : 0 < n) (operators : Set CompType) :
    (∀ qs, (∀ q ∈ qs, q.comp ∈ operators) → Correct ((Translator.start n).run termBefore rebalance qs).1
      ((Translator.start n).run termBefore rebalance qs).2) ↔ Apart operators := by
  constructor
  · rintro h ⟨hlt, hgeq, hbetween⟩
    obtain ⟨op, hop, hmem⟩ : ∃ op, (op = .gt ∨ op = .leq) ∧ op ∈ operators := by
      obtain hgt | hleq := hbetween
      · exact ⟨.gt, .inl rfl, hgt⟩
      · exact ⟨.leq, .inr rfl, hleq⟩
    have hcorrect := h [xZero op, xZero .lt, xZero .geq] (by simp [xZero, hlt, hgeq, hmem])
    rw [run_overlapping hsmall n hop] at hcorrect
    have hshared := hcorrect.shared (xZero .lt, (n : ℤ) + 1) (by simp) (xZero .geq, (n : ℤ) + 1 + 1) (by simp)
      ⟨rfl, rfl⟩
    omega
  · intro hapart qs hqs
    exact run_correct hinj hbalance hapart (Valid.start hn) ⟨fun _ he => absurd he List.not_mem_nil, List.Pairwise.nil⟩
      hqs

theorem not_correct_overlapping :
    ¬ Correct ((Translator.start 1).run termRank id [xZero .gt, xZero .lt, xZero .geq]).1
      ((Translator.start 1).run termRank id [xZero .gt, xZero .lt, xZero .geq]).2 := by
  intro h
  have hrun : ((Translator.start 1).run termRank id [xZero .gt, xZero .lt, xZero .geq]).1 = _ :=
    run_overlapping (fun _ _ => rfl) 1 (.inl rfl)
  rw [hrun] at h
  have hshared := h.shared (xZero .lt, ((1 : ℕ) : ℤ) + 1) (by simp) (xZero .geq, ((1 : ℕ) : ℤ) + 1 + 1) (by simp)
    ⟨rfl, rfl⟩
  omega

theorem run_correct_apart :
    Correct ((Translator.start 1).run termRank id [xZero .lt, xZero .geq, xZero .neq]).1
      ((Translator.start 1).run termRank id [xZero .lt, xZero .geq, xZero .neq]).2 :=
  (run_correct_iff termRank_injective (fun _ => rfl) (fun _ _ => rfl) Nat.one_pos {.lt, .geq, .neq}).mpr
    (by simp [Apart]) _ (by simp [xZero])

end Answers

end Runs

end Ecnf
