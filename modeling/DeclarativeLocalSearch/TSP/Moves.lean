import Mathlib
import DeclarativeLocalSearch.Foundation.Tour

namespace TSP

structure V (City : Type) where
  N : Set ℕ
  decPath : City → City → Prop
  distance : City → City → N
  reachable : City → Prop
  reach : City → City → Prop
  longestEdge : N

variable {City : Type} [LinearOrder City] [OrderBot City]

inductive Reachable (decPath : City → City → Prop) : City → Prop
  | min : Reachable decPath ⊥
  | step {x y : City} : Reachable decPath y → decPath y x → Reachable decPath x

inductive Reach (decPath : City → City → Prop) : City → City → Prop
  | refl (x : City) : Reach decPath x x
  | edge {x y : City} : decPath x y → y ≠ ⊥ → Reach decPath x y
  | step {x y z : City} : decPath x z → Reach decPath z y → z ≠ ⊥ → Reach decPath x y

structure T (s : V City) : Prop where
  succ : ∀ x, ∃! y, s.decPath x y
  pred : ∀ x, ∃! y, s.decPath y x
  loopless : ∀ x, ¬ s.decPath x x
  allReachable : ∀ x, s.reachable x
  defReachable : ∀ x, s.reachable x ↔ Reachable s.decPath x
  defReach : ∀ x y, s.reach x y ↔ Reach s.decPath x y
  defLongestEdge : ∀ le : s.N, s.longestEdge = le ↔ ∀ a b, (s.distance a b).1 ≤ le.1

-- expansion of the input structure with a new interpretation of the decision predicate
def V.withPath (s : V City) (path : City → City → Prop) : V City :=
  { s with decPath := path, reachable := Reachable path, reach := Reach path }

def V.dist (s : V City) (x y : City) : ℤ := ((s.distance x y).1 : ℤ)

def getDeltaObj2opt (s : V City) (a b c d : City) : ℤ :=
  s.dist a c + s.dist b d - s.dist a b - s.dist c d

def getValidMoves2opt (s : V City) (a b c d : City) : Prop :=
  s.decPath a b ∧ s.decPath c d ∧ b ≠ c ∧ a ≠ c ∧ s.reach b c ∧ b ≠ ⊥ ∧
    s.dist a c + s.dist b d - s.dist a b - s.dist c d < 0

def nextDecPath2opt (s : V City) (a b c d x y : City) : Prop :=
  (x = a ∧ y = c) ∨
  (x = b ∧ y = d) ∨
  (s.decPath x y ∧ s.reach y a ∧ y ≠ ⊥) ∨
  (s.decPath x y ∧ s.reach d x ∧ d ≠ ⊥) ∨
  (s.decPath y x ∧ s.reach b y ∧ s.reach x c ∧ x ≠ ⊥)

def getDeltaObjOropt1 (s : V City) (a b nextA nextB preA : City) : ℤ :=
  s.dist preA nextA + s.dist b a + s.dist a nextB
    - s.dist preA a - s.dist a nextA - s.dist b nextB

def getValidMovesOropt1 (s : V City) (a b nextA nextB preA : City) : Prop :=
  a ≠ b ∧ a ≠ ⊥ ∧ ¬ s.decPath a b ∧ s.reach a b ∧
    s.decPath preA a ∧ s.decPath a nextA ∧ s.decPath b nextB ∧
    s.dist preA nextA + s.dist b a + s.dist a nextB
      - s.dist preA a - s.dist a nextA - s.dist b nextB < 0

def nextDecPathOropt1 (s : V City) (a b nextA nextB preA x y : City) : Prop :=
  (x = preA ∧ y = nextA) ∨
  (x = b ∧ y = a) ∨
  (x = a ∧ y = nextB) ∨
  (s.decPath x y ∧ x ≠ preA ∧ y ≠ nextA ∧ x ≠ b)

def getDeltaObjOropt2 (s : V City) (a b c d nextB preA : City) : ℤ :=
  s.dist preA nextB + s.dist c b + s.dist b a + s.dist a d
    - s.dist preA a - s.dist a b - s.dist b nextB - s.dist c d

def getValidMovesOropt2 (s : V City) (a b c d nextB preA : City) : Prop :=
  s.decPath a b ∧ s.decPath c d ∧ s.decPath preA a ∧ s.decPath b nextB ∧
    s.reach nextB c ∧ nextB ≠ c ∧ a ≠ ⊥ ∧ b ≠ ⊥ ∧ nextB ≠ ⊥ ∧
    s.dist preA nextB + s.dist c b + s.dist b a + s.dist a d
      - s.dist preA a - s.dist a b - s.dist b nextB - s.dist c d < 0

def nextDecPathOropt2 (s : V City) (a b c d nextB preA x y : City) : Prop :=
  (x = preA ∧ y = nextB) ∨
  (x = c ∧ y = b) ∨
  (x = b ∧ y = a) ∨
  (x = a ∧ y = d) ∨
  (s.decPath x y ∧ x ≠ preA ∧ x ≠ a ∧ x ≠ b ∧ x ≠ c)

theorem reachable_iff (path : City → City → Prop) (x : City) :
    Reachable path x ↔ Relation.ReflTransGen path ⊥ x := by
  constructor
  · intro h
    induction h with
    | min => exact .refl
    | step _ hp ih => exact ih.tail hp
  · intro h
    induction h with
    | refl => exact .min
    | tail _ hp ih => exact .step ih hp

theorem reach_iff (path : City → City → Prop) (x y : City) :
    Reach path x y ↔ Relation.ReflTransGen (Tour.cut path ⊥) x y := by
  constructor
  · intro h
    induction h with
    | refl x => exact .refl
    | edge hp hy => exact .single ⟨hp, hy⟩
    | step hp _ hz ih => exact ih.head ⟨hp, hz⟩
  · intro h
    induction h using Relation.ReflTransGen.head_induction_on with
    | refl => exact .refl _
    | head hc _ ih => exact .step hc.1 ih hc.2

theorem T.axioms {s : V City} (h : T s) : Tour.Axioms s.decPath ⊥ :=
  ⟨h.succ, h.pred, h.loopless,
    fun x => (reachable_iff _ _).mp ((h.defReachable x).mp (h.allReachable x))⟩

theorem T.presents {s : V City} (h : T s) : ∃ l, Tour.Presents s.decPath ⊥ l :=
  Tour.presents_of_axioms h.axioms

theorem T.withPath {s : V City} (h : T s) {path : City → City → Prop}
    (ha : Tour.Axioms path ⊥) : T (s.withPath path) where
  succ := ha.succ
  pred := ha.pred
  loopless := ha.loopless
  allReachable := fun x => (reachable_iff _ _).mpr (ha.reach x)
  defReachable := fun _ => Iff.rfl
  defReach := fun _ _ => Iff.rfl
  defLongestEdge := h.defLongestEdge

theorem T.reach_before {s : V City} (h : T s) {l : List City}
    (hl : Tour.Presents s.decPath ⊥ l) (x y : City) :
    s.reach x y ↔ Tour.Before (⊥ :: l) x y := by
  rw [h.defReach, reach_iff, hl.reach_cut]

end TSP

namespace TSP

open Tour

variable {City : Type} [LinearOrder City] [OrderBot City]

theorem twoOpt_segments {s : V City} (h : T s) {l : List City} (hl : Presents s.decPath ⊥ l)
    {a b c d : City} (hv : getValidMoves2opt s a b c d) :
    ∃ p q r t, ⊥ :: l = p ++ a :: b :: (q ++ c :: r) ∧ r ++ [⊥] = d :: t := by
  obtain ⟨hab, hcd, hbc, -, hr, hb, -⟩ := hv
  obtain ⟨p, m, e⟩ := hl.split_edge hab hb
  have hn := hl.nodup
  have e' : ⊥ :: l = (p ++ [a]) ++ b :: m := by simp [e]
  have hcm : c ∈ b :: m := by
    have := (h.reach_before hl b c).mp hr
    rw [e'] at this hn
    exact (before_iff hn).mp this
  obtain ⟨q, r, rfl⟩ := List.mem_iff_append.mp ((List.mem_cons.mp hcm).resolve_left (Ne.symm hbc))
  obtain ⟨t, ht⟩ := hl.split_succ (p := p ++ a :: b :: q) (s := r) (by simp [e]) hcd
  exact ⟨p, q, r, t, e, ht⟩

theorem turned_adj {s : V City} (h : T s) {l : List City} (hl : Presents s.decPath ⊥ l)
    {a b c : City} {p q r : List City} (e : ⊥ :: l = p ++ a :: b :: (q ++ c :: r)) (x y : City) :
    (s.decPath x y ∧ s.reach b x ∧ s.reach y c ∧ y ≠ ⊥) ↔ Adj (b :: (q ++ [c])) x y := by
  have hn := hl.nodup
  have eb : ⊥ :: l = (p ++ [a]) ++ b :: (q ++ c :: r) := by simp [e]
  have ec : ⊥ :: l = (p ++ a :: b :: q) ++ c :: r := by simp [e]
  have ec' : (p ++ a :: b :: q) ++ [c] = ((p ++ [a]) ++ b :: q) ++ [c] := by simp
  have from_b : s.reach b x ↔ x ∈ b :: (q ++ c :: r) := by
    rw [h.reach_before hl, eb]
    exact before_iff (eb ▸ hn)
  have before_c : s.reach y c ↔ y ∈ (p ++ a :: b :: q) ++ [c] := by
    rw [h.reach_before hl, ec]
    exact before_iff_left (ec ▸ hn)
  rw [from_b, before_c, ec', hl.edge_into_mid eb]

theorem twoOpt_adj {s : V City} (h : T s) {l : List City} (hl : Presents s.decPath ⊥ l)
    {a b c d : City} {p q r t : List City} (e : ⊥ :: l = p ++ a :: b :: (q ++ c :: r))
    (ht : r ++ [⊥] = d :: t) (x y : City) :
    nextDecPath2opt s a b c d x y ↔
      Adj (p ++ a :: ((c :: (q.reverse ++ b :: r)) ++ [⊥])) x y := by
  have hn := hl.nodup
  have ea : ⊥ :: l = p ++ a :: (b :: (q ++ c :: r)) := e
  have ec : ⊥ :: l = (p ++ a :: b :: q) ++ c :: r := by simp [e]
  have before_a : ∀ z, s.reach z a ↔ z ∈ p ++ [a] := fun z => by
    rw [h.reach_before hl, ea]
    exact before_iff_left (ea ▸ hn)
  have rule3 : (s.decPath x y ∧ s.reach y a ∧ y ≠ ⊥) ↔ Adj (p ++ [a]) x y := by
    rw [before_a, hl.edge_into_prefix ea]
  have rule4 : (s.decPath x y ∧ s.reach d x ∧ d ≠ ⊥) ↔ Adj (r ++ [⊥]) x y := by
    rw [← hl.edge_tail ec]
    cases r with
    | nil =>
      simp only [List.nil_append, List.cons.injEq] at ht
      simp [← ht.1]
    | cons d' r =>
      simp only [List.cons_append, List.cons.injEq] at ht
      obtain ⟨rfl, -⟩ := ht
      have ed : ⊥ :: l = (p ++ a :: b :: (q ++ [c])) ++ d' :: r := by simp [e]
      have hne : d' ≠ ⊥ := by
        rintro rfl
        exact hl.base_not_mem ec (by simp)
      rw [h.reach_before hl, ed, before_iff (ed ▸ hn)]
      tauto
  have rule5 : (s.decPath y x ∧ s.reach b y ∧ s.reach x c ∧ x ≠ ⊥) ↔
      Adj (c :: (q.reverse ++ [b])) x y := by
    have hrev : c :: (q.reverse ++ [b]) = (b :: (q ++ [c])).reverse := by simp
    rw [hrev, adj_reverse, turned_adj h hl e]
  have htail : (c :: (q.reverse ++ b :: r)) ++ [⊥] = (c :: q.reverse) ++ b :: d :: t := by
    simp [ht]
  have hmid : Adj (c :: (q.reverse ++ b :: d :: t)) x y ↔
      Adj (c :: (q.reverse ++ [b])) x y ∨ (x = b ∧ y = d) ∨ Adj (r ++ [⊥]) x y := by
    rw [← List.cons_append, adj_append, adj_cons_cons, ht, List.cons_append]
  rw [htail, adj_append, List.cons_append, adj_cons_cons, hmid, nextDecPath2opt, rule3, rule4, rule5]
  clear * -
  tauto

omit [LinearOrder City] [OrderBot City] in
theorem twoOpt_perm (b c : City) (q r : List City) :
    (c :: (q.reverse ++ b :: r)).Perm (b :: (q ++ c :: r)) := by
  have h1 : (q ++ c :: r).Perm (c :: (q ++ r)) := List.perm_middle
  have h2 : (q.reverse ++ b :: r).Perm (b :: (q ++ r)) :=
    List.perm_middle.trans (((List.reverse_perm q).append_right r).cons b)
  exact ((h2.cons c).trans (List.Perm.swap b c (q ++ r))).trans (h1.symm.cons b)

theorem twoOpt_presents {s : V City} (h : T s) {a b c d : City}
    (hv : getValidMoves2opt s a b c d) :
    ∃ l, Presents (nextDecPath2opt s a b c d) ⊥ l := by
  obtain ⟨l, hl⟩ := h.presents
  obtain ⟨p, q, r, t, e, ht⟩ := twoOpt_segments h hl hv
  exact hl.rearrange e (twoOpt_perm b c q r) (twoOpt_adj h hl e ht)

theorem pred_unique {s : V City} (h : T s) {x y z : City} (hx : s.decPath x z)
    (hy : s.decPath y z) : x = y :=
  (h.pred z).unique hx hy

theorem orOpt1_segments {s : V City} (h : T s) {l : List City} (hl : Presents s.decPath ⊥ l)
    {a b nextA nextB preA : City} (hv : getValidMovesOropt1 s a b nextA nextB preA) :
    ∃ p q r t, ⊥ :: l = p ++ preA :: ([a] ++ nextA :: (q ++ b :: r)) ∧ r ++ [⊥] = nextB :: t := by
  obtain ⟨hab, ha, hnab, hr, hpa, han, hbn, -⟩ := hv
  obtain ⟨p, m, e⟩ := hl.split_edge hpa ha
  have hn := hl.nodup
  have ea : ⊥ :: l = (p ++ [preA]) ++ a :: m := by simp [e]
  have hbm : b ∈ m := by
    have := (h.reach_before hl a b).mp hr
    rw [ea] at this hn
    exact (List.mem_cons.mp ((before_iff hn).mp this)).resolve_left (Ne.symm hab)
  obtain ⟨t, ht⟩ := hl.split_succ ea han
  cases m with
  | nil => simp at hbm
  | cons n m =>
    simp only [List.cons_append, List.cons.injEq] at ht
    obtain ⟨rfl, -⟩ := ht
    have hbn' : b ≠ n := fun hbn' => hnab (hbn' ▸ han)
    obtain ⟨q, r, rfl⟩ := List.mem_iff_append.mp ((List.mem_cons.mp hbm).resolve_left hbn')
    obtain ⟨t, ht⟩ := hl.split_succ (p := p ++ preA :: a :: n :: q) (s := r) (by simp [e]) hbn
    exact ⟨p, q, r, t, e, ht⟩

theorem orOpt1_adj {s : V City} (h : T s) {l : List City} (hl : Presents s.decPath ⊥ l)
    {a b nextA nextB preA : City} {p q r t : List City}
    (e : ⊥ :: l = p ++ preA :: ([a] ++ nextA :: (q ++ b :: r))) (ht : r ++ [⊥] = nextB :: t)
    (x y : City) :
    nextDecPathOropt1 s a b nextA nextB preA x y ↔
      Adj (p ++ preA :: ((nextA :: (q ++ b :: a :: r)) ++ [⊥])) x y := by
  have han : s.decPath a nextA :=
    (hl.adj _ _).mpr ⟨p ++ [preA], (q ++ b :: r) ++ [⊥], by rw [← List.cons_append, e]; simp⟩
  have kept : (s.decPath x y ∧ x ≠ preA ∧ y ≠ nextA ∧ x ≠ b) ↔
      Adj (p ++ [preA]) x y ∨ Adj (nextA :: (q ++ [b])) x y ∨ Adj (r ++ [⊥]) x y := by
    rw [← hl.edge_except e]
    constructor
    · rintro ⟨hxy, hx, hy, hxb⟩
      refine ⟨hxy, hx, ?_, hxb⟩
      simp only [List.mem_singleton]
      rintro rfl
      exact hy ((h.succ x).unique hxy han)
    · rintro ⟨hxy, hx, hxa, hxb⟩
      refine ⟨hxy, hx, ?_, hxb⟩
      rintro rfl
      exact hxa (List.mem_singleton.mpr (pred_unique h hxy han))
  have htail : (nextA :: (q ++ b :: a :: r)) ++ [⊥] = (nextA :: q) ++ b :: a :: nextB :: t := by
    simp [ht]
  have hmid : Adj (nextA :: (q ++ b :: a :: nextB :: t)) x y ↔ Adj (nextA :: (q ++ [b])) x y ∨
      (x = b ∧ y = a) ∨ (x = a ∧ y = nextB) ∨ Adj (r ++ [⊥]) x y := by
    rw [← List.cons_append, adj_append, adj_cons_cons, adj_cons_cons, ht, List.cons_append]
  rw [htail, adj_append, List.cons_append, adj_cons_cons, hmid, nextDecPathOropt1, kept]
  clear * -
  tauto

omit [LinearOrder City] [OrderBot City] in
theorem orOpt1_perm (a b nextA : City) (q r : List City) :
    (nextA :: (q ++ b :: a :: r)).Perm ([a] ++ nextA :: (q ++ b :: r)) := by
  have h1 : ((q ++ [b]) ++ a :: r).Perm (a :: ((q ++ [b]) ++ r)) := List.perm_middle
  have h2 : (q ++ b :: a :: r).Perm (a :: (q ++ b :: r)) := by
    simpa using h1
  exact (h2.cons nextA).trans (List.Perm.swap a nextA _)

theorem orOpt1_presents {s : V City} (h : T s) {a b nextA nextB preA : City}
    (hv : getValidMovesOropt1 s a b nextA nextB preA) :
    ∃ l, Presents (nextDecPathOropt1 s a b nextA nextB preA) ⊥ l := by
  obtain ⟨l, hl⟩ := h.presents
  obtain ⟨p, q, r, t, e, ht⟩ := orOpt1_segments h hl hv
  exact hl.rearrange e (orOpt1_perm a b nextA q r) (orOpt1_adj h hl e ht)

theorem orOpt2_segments {s : V City} (h : T s) {l : List City} (hl : Presents s.decPath ⊥ l)
    {a b c d nextB preA : City} (hv : getValidMovesOropt2 s a b c d nextB preA) :
    ∃ p q r t, ⊥ :: l = p ++ preA :: ([a, b] ++ nextB :: (q ++ c :: r)) ∧
      r ++ [⊥] = d :: t := by
  obtain ⟨hab, hcd, hpa, hbn, hr, hnc, ha, hb, hnb, -⟩ := hv
  obtain ⟨p, m, e⟩ := hl.split_edge hpa ha
  have hn := hl.nodup
  obtain ⟨t, ht⟩ := hl.split_succ (p := p ++ [preA]) (s := m) (by simp [e]) hab
  cases m with
  | nil =>
    simp only [List.nil_append, List.cons.injEq] at ht
    exact absurd ht.1.symm hb
  | cons b' m =>
    simp only [List.cons_append, List.cons.injEq] at ht
    obtain ⟨rfl, -⟩ := ht
    obtain ⟨t, ht⟩ := hl.split_succ (p := p ++ [preA, a]) (s := m) (by simp [e]) hbn
    cases m with
    | nil =>
      simp only [List.nil_append, List.cons.injEq] at ht
      exact absurd ht.1.symm hnb
    | cons n m =>
      simp only [List.cons_append, List.cons.injEq] at ht
      obtain ⟨rfl, -⟩ := ht
      have en : ⊥ :: l = (p ++ [preA, a, b']) ++ n :: m := by simp [e]
      have hcm : c ∈ m := by
        have := (h.reach_before hl n c).mp hr
        rw [en] at this hn
        exact (List.mem_cons.mp ((before_iff hn).mp this)).resolve_left (Ne.symm hnc)
      obtain ⟨q, r, rfl⟩ := List.mem_iff_append.mp hcm
      obtain ⟨t, ht⟩ := hl.split_succ (p := p ++ preA :: a :: b' :: n :: q) (s := r)
        (by simp [e]) hcd
      exact ⟨p, q, r, t, e, ht⟩

theorem orOpt2_adj {s : V City} {l : List City} (hl : Presents s.decPath ⊥ l)
    {a b c d nextB preA : City} {p q r t : List City}
    (e : ⊥ :: l = p ++ preA :: ([a, b] ++ nextB :: (q ++ c :: r))) (ht : r ++ [⊥] = d :: t)
    (x y : City) :
    nextDecPathOropt2 s a b c d nextB preA x y ↔
      Adj (p ++ preA :: ((nextB :: (q ++ c :: b :: a :: r)) ++ [⊥])) x y := by
  have kept : (s.decPath x y ∧ x ≠ preA ∧ x ≠ a ∧ x ≠ b ∧ x ≠ c) ↔
      Adj (p ++ [preA]) x y ∨ Adj (nextB :: (q ++ [c])) x y ∨ Adj (r ++ [⊥]) x y := by
    rw [← hl.edge_except e]
    simp only [List.mem_cons, List.not_mem_nil, or_false, not_or]
    tauto
  have htail : (nextB :: (q ++ c :: b :: a :: r)) ++ [⊥] =
      (nextB :: q) ++ c :: b :: a :: d :: t := by
    simp [ht]
  have hmid : Adj (nextB :: (q ++ c :: b :: a :: d :: t)) x y ↔
      Adj (nextB :: (q ++ [c])) x y ∨ (x = c ∧ y = b) ∨ (x = b ∧ y = a) ∨ (x = a ∧ y = d) ∨
        Adj (r ++ [⊥]) x y := by
    rw [← List.cons_append, adj_append, adj_cons_cons, adj_cons_cons, adj_cons_cons, ht,
      List.cons_append]
  rw [htail, adj_append, List.cons_append, adj_cons_cons, hmid, nextDecPathOropt2, kept]
  clear * -
  tauto

omit [LinearOrder City] [OrderBot City] in
theorem orOpt2_perm (a b c nextB : City) (q r : List City) :
    (nextB :: (q ++ c :: b :: a :: r)).Perm ([a, b] ++ nextB :: (q ++ c :: r)) := by
  have h1 : (q ++ c :: b :: a :: r).Perm (b :: a :: (q ++ c :: r)) := by
    have h2 : ((q ++ [c]) ++ b :: a :: r).Perm (b :: ((q ++ [c]) ++ a :: r)) := List.perm_middle
    have h3 : ((q ++ [c]) ++ a :: r).Perm (a :: ((q ++ [c]) ++ r)) := List.perm_middle
    have h3 := h3.cons b
    simpa using h2.trans h3
  have h4 : (nextB :: b :: a :: (q ++ c :: r)).Perm (a :: b :: nextB :: (q ++ c :: r)) :=
    (List.reverse_perm [a, b, nextB]).append_right (q ++ c :: r)
  exact (h1.cons nextB).trans h4

theorem orOpt2_presents {s : V City} (h : T s) {a b c d nextB preA : City}
    (hv : getValidMovesOropt2 s a b c d nextB preA) :
    ∃ l, Presents (nextDecPathOropt2 s a b c d nextB preA) ⊥ l := by
  obtain ⟨l, hl⟩ := h.presents
  obtain ⟨p, q, r, t, e, ht⟩ := orOpt2_segments h hl hv
  exact hl.rearrange e (orOpt2_perm a b c nextB q r) (orOpt2_adj hl e ht)

def SatisfiesAgain (s : V City) (path : City → City → Prop) : Prop :=
  T (s.withPath path) ∧ ∀ x y, Relation.ReflTransGen path x y

theorem satisfiesAgain_of_presents {s : V City} (h : T s) {path : City → City → Prop}
    (hp : ∃ l, Presents path ⊥ l) : SatisfiesAgain s path := by
  obtain ⟨l, hl⟩ := hp
  exact ⟨h.withPath hl.axioms, hl.reach⟩

theorem moves_keep_theory (s : V City) (h : T s) :
    (∀ a b c d, getValidMoves2opt s a b c d → SatisfiesAgain s (nextDecPath2opt s a b c d)) ∧
    (∀ a b nextA nextB preA, getValidMovesOropt1 s a b nextA nextB preA →
      SatisfiesAgain s (nextDecPathOropt1 s a b nextA nextB preA)) ∧
    (∀ a b c d nextB preA, getValidMovesOropt2 s a b c d nextB preA →
      SatisfiesAgain s (nextDecPathOropt2 s a b c d nextB preA)) :=
  ⟨fun _ _ _ _ hv => satisfiesAgain_of_presents h (twoOpt_presents h hv),
    fun _ _ _ _ _ hv => satisfiesAgain_of_presents h (orOpt1_presents h hv),
    fun _ _ _ _ _ _ hv => satisfiesAgain_of_presents h (orOpt2_presents h hv)⟩

section Ring

def ringPath (x y : Fin 6) : Prop := y = x + 1

instance : DecidableRel ringPath := fun x y => inferInstanceAs (Decidable (y = x + 1))

def ring : V (Fin 6) where
  N := {n | n ≤ 5}
  decPath := ringPath
  distance x y := if y = x + 1 ∨ x = y + 1 then ⟨5, Nat.le_refl 5⟩ else ⟨1, by simp⟩
  reachable := Reachable ringPath
  reach := Reach ringPath
  longestEdge := ⟨5, Nat.le_refl 5⟩

theorem ring_presents : Presents ringPath ⊥ [1, 2, 3, 4, 5] where
  nodup := by decide
  cover := by decide
  nontrivial := by decide
  adj := by
    have h : ∀ x y, ringPath x y ↔ (x, y) ∈ [((⊥ : Fin 6), 1), (1, 2), (2, 3), (3, 4), (4, 5),
      (5, ⊥)] := by decide
    intro x y
    rw [h]
    simp [adj_cons_cons, adj_singleton]

theorem ring_theory : T ring := by
  have ha := ring_presents.axioms
  refine ⟨ha.succ, ha.pred, ha.loopless, fun x => (reachable_iff _ _).mpr (ha.reach x),
    fun _ => Iff.rfl, fun _ _ => Iff.rfl, ?_⟩
  rintro ⟨le, hle⟩
  have hle' : le ≤ 5 := hle
  constructor
  · rintro h a b
    obtain rfl : 5 = le := congrArg Subtype.val h
    exact (ring.distance a b).2
  · intro h
    have h5 : 5 ≤ le := h 0 1
    exact Subtype.ext (by change 5 = le; omega)

theorem moves_keep_theory_ring :
    SatisfiesAgain ring (nextDecPath2opt ring 0 1 2 3) ∧
    SatisfiesAgain ring (nextDecPathOropt1 ring 1 3 2 4 0) ∧
    SatisfiesAgain ring (nextDecPathOropt2 ring 1 2 4 5 3 0) := by
  have near : ∀ x y : Fin 6, ringPath x y → y ≠ ⊥ → ring.reach x y := fun _ _ h hy => .edge h hy
  refine ⟨(moves_keep_theory ring ring_theory).1 0 1 2 3 ?_,
    (moves_keep_theory ring ring_theory).2.1 1 3 2 4 0 ?_,
    (moves_keep_theory ring ring_theory).2.2 1 2 4 5 3 0 ?_⟩
  · exact ⟨rfl, rfl, by decide, by decide, near 1 2 rfl (by decide), by decide, by decide⟩
  · exact ⟨by decide, by decide, by change ¬ ringPath 1 3; decide,
      .step (z := 2) rfl (near 2 3 rfl (by decide)) (by decide), rfl, rfl, rfl, by decide⟩
  · exact ⟨rfl, rfl, rfl, rfl, near 3 4 rfl (by decide), by decide, by decide, by decide,
      by decide, by decide⟩

end Ring

end TSP
