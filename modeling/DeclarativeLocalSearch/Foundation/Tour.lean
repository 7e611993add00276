import Mathlib.Algebra.BigOperators.Group.Finset.Basic
import Mathlib.Data.Fintype.Prod
import Mathlib.Dynamics.PeriodicPts.Lemmas

namespace Tour

variable {A : Type}

def Adj (l : List A) (x y : A) : Prop := ∃ p s, l = p ++ x :: y :: s

theorem adj_nil (x y : A) : ¬ Adj [] x y := by
  rintro ⟨p, s, h⟩
  simp at h

theorem adj_singleton (a x y : A) : ¬ Adj [a] x y := by
  rintro ⟨p, s, h⟩
  have := congrArg List.length h
  simp at this
  omega

theorem adj_cons_cons (a b x y : A) (l : List A) :
    Adj (a :: b :: l) x y ↔ (x = a ∧ y = b) ∨ Adj (b :: l) x y := by
  constructor
  · rintro ⟨p, s, h⟩
    cases p with
    | nil =>
      simp only [List.nil_append, List.cons.injEq] at h
      exact .inl ⟨h.1.symm, h.2.1.symm⟩
    | cons c p =>
      simp only [List.cons_append, List.cons.injEq] at h
      exact .inr ⟨p, s, h.2⟩
  · rintro (⟨rfl, rfl⟩ | ⟨p, s, h⟩)
    · exact ⟨[], l, rfl⟩
    · exact ⟨a :: p, s, by rw [h]; rfl⟩

theorem adj_append (p s : List A) (a x y : A) :
    Adj (p ++ a :: s) x y ↔ Adj (p ++ [a]) x y ∨ Adj (a :: s) x y := by
  induction p with
  | nil => simp [adj_singleton]
  | cons b p ih =>
    cases p with
    | nil => simp [adj_cons_cons, adj_singleton]
    | cons c p =>
      simp only [List.cons_append, adj_cons_cons] at ih ⊢
      rw [ih]
      tauto

theorem adj_reverse (l : List A) (x y : A) : Adj l.reverse x y ↔ Adj l y x := by
  have half : ∀ {m : List A} {u v : A}, Adj m u v → Adj m.reverse v u := by
    rintro m u v ⟨p, s, rfl⟩
    exact ⟨s.reverse, p.reverse, by simp⟩
  constructor
  · intro h
    simpa using half h
  · exact half

theorem adj_mem_left {l : List A} {a x y : A} (h : Adj (l ++ [a]) x y) : x ∈ l := by
  obtain ⟨p, s, h⟩ := h
  rcases List.eq_nil_or_concat s with rfl | ⟨s, b, rfl⟩
  · have h' : l ++ [a] = (p ++ [x]) ++ [y] := by simpa using h
    rw [(List.append_inj' h' rfl).1]
    simp
  · have h' : l ++ [a] = (p ++ x :: y :: s) ++ [b] := by simpa using h
    rw [(List.append_inj' h' rfl).1]
    simp

theorem adj_mem_right {l : List A} {a x y : A} (h : Adj (a :: l) x y) : y ∈ l := by
  obtain ⟨p, s, h⟩ := h
  cases p with
  | nil =>
    simp only [List.nil_append, List.cons.injEq] at h
    simp [h.2]
  | cons b p =>
    simp only [List.cons_append, List.cons.injEq] at h
    simp [h.2]

def Before (l : List A) (x y : A) : Prop := ∃ p s, l = p ++ x :: s ∧ y ∈ x :: s

theorem split_unique {p p' s s' : List A} {x : A} (hn : (p ++ x :: s).Nodup)
    (h : p ++ x :: s = p' ++ x :: s') : p = p' ∧ s = s' := by
  induction p generalizing p' with
  | nil =>
    cases p' with
    | nil => simpa using h
    | cons b p' =>
      simp only [List.nil_append, List.cons_append, List.cons.injEq] at h
      have hx : x ∈ s := by simp [h.2]
      exact absurd hx (List.nodup_cons.mp hn).1
  | cons b p ih =>
    cases p' with
    | nil =>
      simp only [List.nil_append, List.cons_append, List.cons.injEq] at h
      have hb : b ∈ p ++ x :: s := by simp [h.1]
      exact absurd hb (List.nodup_cons.mp hn).1
    | cons c p' =>
      simp only [List.cons_append, List.cons.injEq] at h
      obtain ⟨rfl, hs⟩ := ih (List.nodup_cons.mp hn).2 h.2
      exact ⟨by rw [h.1], hs⟩

theorem before_iff {p s : List A} {x y : A} (hn : (p ++ x :: s).Nodup) :
    Before (p ++ x :: s) x y ↔ y ∈ x :: s := by
  constructor
  · rintro ⟨p', s', h, hy⟩
    rw [(split_unique hn h).2]
    exact hy
  · exact fun hy => ⟨p, s, rfl, hy⟩

theorem before_iff_left {p s : List A} {x y : A} (hn : (p ++ x :: s).Nodup) :
    Before (p ++ x :: s) y x ↔ y ∈ p ++ [x] := by
  constructor
  · rintro ⟨p', s', h, hx⟩
    rcases List.mem_cons.mp hx with rfl | hx
    · simp
    · obtain ⟨q, t, rfl⟩ := List.mem_iff_append.mp hx
      have h' : p ++ x :: s = (p' ++ y :: q) ++ x :: t := by simpa using h
      rw [(split_unique hn h').1]
      simp
  · intro hy
    obtain ⟨q, t, h⟩ := List.mem_iff_append.mp hy
    refine ⟨q, t ++ s, ?_, ?_⟩
    · rw [show p ++ x :: s = (p ++ [x]) ++ s by simp, h]
      simp
    · rcases List.eq_nil_or_concat t with rfl | ⟨t, b, rfl⟩
      · have h' := (List.append_inj' (show p ++ [x] = q ++ [y] by simpa using h) rfl).2
        simp at h'
        simp [h']
      · have h' : p ++ [x] = (q ++ y :: t) ++ [b] := by simpa using h
        have hb := (List.append_inj' h' rfl).2
        simp at hb
        simp [hb]

structure Presents (r : A → A → Prop) (o : A) (l : List A) : Prop where
  nodup : (o :: l).Nodup
  cover : ∀ x, x ∈ o :: l
  nontrivial : l ≠ []
  adj : ∀ x y, r x y ↔ Adj (o :: (l ++ [o])) x y

def cut (r : A → A → Prop) (o : A) (x y : A) : Prop := r x y ∧ y ≠ o

structure Axioms (r : A → A → Prop) (o : A) : Prop where
  succ : ∀ x, ∃! y, r x y
  pred : ∀ x, ∃! y, r y x
  loopless : ∀ x, ¬ r x x
  reach : ∀ x, Relation.ReflTransGen r o x

section Successor

open Function

variable {r : A → A → Prop} {o : A}

theorem iterate_reach (f : A → A) (hf : ∀ x y, r x y ↔ y = f x) {x : A}
    (h : Relation.ReflTransGen r o x) : ∃ k, f^[k] o = x := by
  induction h with
  | refl => exact ⟨0, rfl⟩
  | tail _ hr ih =>
    obtain ⟨k, rfl⟩ := ih
    exact ⟨k + 1, by rw [iterate_succ_apply', ← (hf _ _).mp hr]⟩

theorem orbit_adj (f : A → A) (n : ℕ) (x y : A) :
    Adj ((List.range (n + 1)).map (fun k => f^[k] o)) x y ↔
      ∃ k < n, x = f^[k] o ∧ y = f^[k + 1] o := by
  induction n with
  | zero =>
    simp only [Nat.zero_add, List.range_one, List.map_cons, List.map_nil, not_lt_zero,
      false_and, exists_false, iff_false]
    exact adj_singleton _ _ _
  | succ n ih =>
    rw [List.range_succ, List.range_succ, List.map_append, List.map_append, List.append_assoc]
    simp only [List.map_cons, List.map_nil, List.cons_append, List.nil_append]
    rw [adj_append]
    rw [List.range_succ, List.map_append] at ih
    simp only [List.map_cons, List.map_nil] at ih
    rw [ih, adj_cons_cons]
    constructor
    · rintro (⟨k, hk, hx, hy⟩ | (⟨hx, hy⟩ | h))
      · exact ⟨k, by omega, hx, hy⟩
      · exact ⟨n, by omega, hx, hy⟩
      · exact absurd h (adj_singleton _ _ _)
    · rintro ⟨k, hk, hx, hy⟩
      rcases Nat.lt_succ_iff_lt_or_eq.mp hk with hk | rfl
      · exact .inl ⟨k, hk, hx, hy⟩
      · exact .inr (.inl ⟨hx, hy⟩)

theorem presents_of_axioms (h : Axioms r o) : ∃ l, Presents r o l := by
  classical
  choose f hr hu using h.succ
  have hf : ∀ x y, r x y ↔ y = f x := fun x y =>
    ⟨fun hxy => hu x y hxy, fun e => e ▸ hr x⟩
  have hreach : ∀ x, ∃ k, f^[k] o = x := fun x => iterate_reach f hf (h.reach x)
  obtain ⟨z, hz, -⟩ := h.pred o
  obtain ⟨k, hk⟩ := hreach z
  have hper : o ∈ periodicPts f := by
    refine ⟨k + 1, Nat.succ_pos k, ?_⟩
    change f^[k + 1] o = o
    rw [iterate_succ_apply', hk]
    exact ((hf _ _).mp hz).symm
  let n := minimalPeriod f o
  have hpos : 0 < n := minimalPeriod_pos_of_mem_periodicPts hper
  have hback : f^[n] o = o := iterate_minimalPeriod
  obtain ⟨m, hm⟩ : ∃ m, n = m + 1 := ⟨n - 1, by omega⟩
  have hmne : m ≠ 0 := by
    rintro rfl
    rw [hm] at hback
    exact h.loopless o ((hf o o).mpr hback.symm)
  let l := (List.range m).map (fun k => f^[k + 1] o)
  have hl : o :: l = (List.range n).map (fun k => f^[k] o) := by
    rw [hm, List.range_succ_eq_map, List.map_cons, List.map_map, iterate_zero_apply]
    rfl
  refine ⟨l, ?_, ?_, ?_, ?_⟩
  · rw [hl]
    refine List.Nodup.map_on ?_ List.nodup_range
    intro i hi j hj hij
    exact iterate_injOn_Iio_minimalPeriod (by simpa using hi) (by simpa using hj) hij
  · intro x
    obtain ⟨j, rfl⟩ := hreach x
    rw [hl]
    refine List.mem_map.mpr ⟨j % n, by simpa using Nat.mod_lt j hpos, ?_⟩
    exact iterate_mod_minimalPeriod_eq
  · simpa [l] using hmne
  · intro x y
    have hc : o :: (l ++ [o]) = (List.range (n + 1)).map (fun k => f^[k] o) := by
      rw [List.range_succ, List.map_append, ← hl]
      simp [hback]
    rw [hc, orbit_adj, hf]
    constructor
    · rintro rfl
      obtain ⟨j, rfl⟩ := hreach x
      refine ⟨j % n, Nat.mod_lt j hpos, iterate_mod_minimalPeriod_eq.symm, ?_⟩
      rw [iterate_succ_apply', iterate_mod_minimalPeriod_eq]
    · rintro ⟨j, -, rfl, rfl⟩
      rw [iterate_succ_apply']

end Successor

section Presented

variable {r : A → A → Prop} {o : A} {l : List A}

theorem Presents.reach_cut (h : Presents r o l) (x y : A) :
    Relation.ReflTransGen (cut r o) x y ↔ Before (o :: l) x y := by
  constructor
  · intro hr
    induction hr with
    | refl =>
      obtain ⟨p, s, e⟩ := List.mem_iff_append.mp (h.cover x)
      exact ⟨p, s, e, by simp⟩
    | @tail y z _ hc ih =>
      obtain ⟨p, s, e, hy⟩ := ih
      have hn := h.nodup
      have hz := (h.adj y z).mp hc.1
      refine ⟨p, s, e, ?_⟩
      rw [← List.cons_append, e] at hz
      rw [e] at hn
      rcases List.mem_iff_append.mp hy with ⟨q, t, ht⟩
      have hsplit : p ++ x :: s ++ [o] = (p ++ q) ++ y :: (t ++ [o]) := by
        rw [List.append_assoc, ← List.cons_append]
        have : x :: s = q ++ y :: t := ht
        simp [this]
      rw [hsplit, adj_append] at hz
      have hn' : ((p ++ q) ++ y :: t).Nodup := by
        have : p ++ x :: s = (p ++ q) ++ y :: t := by simp [ht]
        rwa [← this]
      rcases hz with hz | hz
      · exact absurd (adj_mem_left hz) (by
          intro hy'
          exact (List.nodup_middle.mp hn' |> List.nodup_cons.mp).1 (by simp at hy' ⊢; tauto))
      · have hz' := adj_mem_right hz
        have : z ∈ t := by
          rcases List.mem_append.mp hz' with ht' | ht'
          · exact ht'
          · exact absurd (by simpa using ht') hc.2
        rw [ht]
        simp [this]
  · rintro ⟨p, s, e, hy⟩
    induction s generalizing p x with
    | nil =>
      obtain rfl : y = x := by simpa using hy
      exact .refl
    | cons b s ih =>
      rcases List.mem_cons.mp hy with rfl | hy
      · exact .refl
      · have hstep : cut r o x b := by
          refine ⟨(h.adj x b).mpr ⟨p, s ++ [o], ?_⟩, ?_⟩
          · rw [← List.cons_append, e]
            simp
          · rintro rfl
            have hn := h.nodup
            cases p with
            | nil =>
              simp only [List.nil_append, List.cons.injEq] at e
              rw [e.2] at hn
              exact (List.nodup_cons.mp hn).1 (by simp)
            | cons c p =>
              simp only [List.cons_append, List.cons.injEq] at e
              rw [e.2] at hn
              exact (List.nodup_cons.mp hn).1 (by simp)
        exact (ih b (p ++ [x]) (by simpa using e) hy).head hstep

theorem Presents.edge_prefix (h : Presents r o l) {p s : List A} {a x y : A}
    (e : o :: l = p ++ a :: s) : r x y ∧ x ∈ p ↔ Adj (p ++ [a]) x y := by
  have hn := h.nodup
  rw [e] at hn
  have hsplit : o :: (l ++ [o]) = p ++ a :: (s ++ [o]) := by
    rw [← List.cons_append, e]
    simp
  rw [h.adj, hsplit, adj_append]
  constructor
  · rintro ⟨hr | hr, hx⟩
    · exact hr
    · have hx' : x ∈ a :: s := adj_mem_left (l := a :: s) (by simpa using hr)
      exact absurd rfl ((List.nodup_append.mp hn).2.2 x hx x hx')
  · exact fun hr => ⟨.inl hr, adj_mem_left hr⟩

theorem Presents.edge_suffix (h : Presents r o l) {p s : List A} {a x y : A}
    (e : o :: l = p ++ a :: s) : r x y ∧ x ∈ a :: s ↔ Adj (a :: (s ++ [o])) x y := by
  have hn := h.nodup
  rw [e] at hn
  have hsplit : o :: (l ++ [o]) = p ++ a :: (s ++ [o]) := by
    rw [← List.cons_append, e]
    simp
  rw [h.adj, hsplit, adj_append]
  constructor
  · rintro ⟨hr | hr, hx⟩
    · exact absurd rfl ((List.nodup_append.mp hn).2.2 x (adj_mem_left hr) x hx)
    · exact hr
  · exact fun hr => ⟨.inr hr, adj_mem_left (l := a :: s) (by simpa using hr)⟩

theorem Presents.edge_mid (h : Presents r o l) {p q s : List A} {b c x y : A}
    (e : o :: l = p ++ b :: (q ++ c :: s)) :
    r x y ∧ x ∈ b :: q ↔ Adj (b :: (q ++ [c])) x y := by
  have hn := h.nodup
  rw [e] at hn
  have hl := h.edge_prefix (p := p ++ b :: q) (s := s) (a := c) (x := x) (y := y) (by simp [e])
  rw [List.append_assoc, List.cons_append, adj_append] at hl
  constructor
  · rintro ⟨hr, hx⟩
    rcases hl.mp ⟨hr, List.mem_append_right p hx⟩ with hp | hq
    · have hx' : x ∈ b :: (q ++ c :: s) := by simp at hx ⊢; tauto
      exact absurd rfl ((List.nodup_append.mp hn).2.2 x (adj_mem_left hp) x hx')
    · exact hq
  · intro hq
    exact ⟨(hl.mpr (.inr hq)).1, adj_mem_left (l := b :: q) (by simpa using hq)⟩

theorem Presents.base_not_mem (h : Presents r o l) {p s : List A} {a : A}
    (e : o :: l = p ++ a :: s) : o ∉ s := by
  have hn := h.nodup
  intro ho
  cases p with
  | nil =>
    simp only [List.nil_append, List.cons.injEq] at e
    rw [e.2] at hn
    exact (List.nodup_cons.mp hn).1 ho
  | cons b p =>
    simp only [List.cons_append, List.cons.injEq] at e
    rw [e.2] at hn
    exact (List.nodup_cons.mp hn).1 (by simp [ho])

theorem Presents.mem_tail (h : Presents r o l) {p s : List A} {a x y : A}
    (e : o :: l = p ++ a :: s) (hr : r x y) (hx : x ∈ a :: s) (hy : y ≠ o) : y ∈ s := by
  have hm := adj_mem_right ((h.edge_suffix e).mp ⟨hr, hx⟩)
  rcases List.mem_append.mp hm with hs | ho
  · exact hs
  · exact absurd (List.mem_singleton.mp ho) hy

theorem Presents.edge_into_prefix (h : Presents r o l) {p s : List A} {a x y : A}
    (e : o :: l = p ++ a :: s) : r x y ∧ y ∈ p ++ [a] ∧ y ≠ o ↔ Adj (p ++ [a]) x y := by
  have hn := h.nodup
  have e' : o :: l = (p ++ [a]) ++ s := by simp [e]
  rw [← h.edge_prefix e]
  constructor
  · rintro ⟨hr, hy, hyo⟩
    refine ⟨hr, ?_⟩
    by_contra hx
    have hx' : x ∈ a :: s := by
      have := h.cover x
      rw [e, List.mem_append] at this
      exact this.resolve_left hx
    rw [e'] at hn
    exact absurd rfl ((List.nodup_append.mp hn).2.2 y hy y (h.mem_tail e hr hx' hyo))
  · rintro ⟨hr, hx⟩
    have hadj := (h.edge_prefix e).mp ⟨hr, hx⟩
    cases p with
    | nil => simp at hx
    | cons w p =>
      rw [List.cons_append] at hadj ⊢
      have hy := adj_mem_right hadj
      have ew : o :: l = [] ++ w :: (p ++ a :: s) := e
      refine ⟨hr, List.mem_cons_of_mem _ hy, ?_⟩
      rintro rfl
      exact h.base_not_mem ew (by simp at hy ⊢; tauto)

theorem Presents.edge_into_mid (h : Presents r o l) {p q s : List A} {b c x y : A}
    (e : o :: l = p ++ b :: (q ++ c :: s)) :
    r x y ∧ x ∈ b :: (q ++ c :: s) ∧ y ∈ (p ++ b :: q) ++ [c] ∧ y ≠ o ↔
      Adj (b :: (q ++ [c])) x y := by
  have hn := h.nodup
  have ec : o :: l = (p ++ b :: q) ++ c :: s := by simp [e]
  rw [← h.edge_mid e]
  constructor
  · rintro ⟨hr, hx, hy, hyo⟩
    refine ⟨hr, ?_⟩
    by_contra hx'
    have hxs : x ∈ c :: s := by grind
    have es : o :: l = ((p ++ b :: q) ++ [c]) ++ s := by simp [e]
    rw [es] at hn
    exact absurd rfl ((List.nodup_append.mp hn).2.2 y hy y (h.mem_tail ec hr hxs hyo))
  · rintro ⟨hr, hx⟩
    have hy := adj_mem_right ((h.edge_mid e).mp ⟨hr, hx⟩)
    refine ⟨hr, by simp at hx ⊢; tauto, by simp at hy ⊢; tauto, ?_⟩
    rintro rfl
    exact h.base_not_mem e (by simp at hy ⊢; tauto)

theorem Presents.edge_tail (h : Presents r o l) {p s : List A} {a x y : A}
    (e : o :: l = p ++ a :: s) : r x y ∧ x ∈ s ↔ Adj (s ++ [o]) x y := by
  cases s with
  | nil => simp [adj_singleton]
  | cons b s => exact h.edge_suffix (p := p ++ [a]) (by simp [e])

theorem Presents.edge_except (h : Presents r o l) {p v q s : List A} {u n c x y : A}
    (e : o :: l = p ++ u :: (v ++ n :: (q ++ c :: s))) :
    r x y ∧ x ≠ u ∧ x ∉ v ∧ x ≠ c ↔
      Adj (p ++ [u]) x y ∨ Adj (n :: (q ++ [c])) x y ∨ Adj (s ++ [o]) x y := by
  have hn := h.nodup
  have en : o :: l = (p ++ u :: v) ++ n :: (q ++ c :: s) := by simp [e]
  have ec : o :: l = (p ++ u :: (v ++ n :: q)) ++ c :: s := by simp [e]
  have hx := h.cover x
  rw [e] at hn hx
  simp only [List.mem_append, List.mem_cons] at hx
  have hd := fun z hz => (List.nodup_append.mp hn).2.2 x z hz
  have hu := List.nodup_cons.mp (List.nodup_middle.mp hn)
  have hvn := (List.nodup_append.mp hu.2).2.1
  have hv := List.nodup_append.mp hvn
  have hc := List.nodup_cons.mp ((@List.nodup_middle _ c (n :: q) s).mp hv.2.1)
  rw [← h.edge_prefix e, ← h.edge_mid en, ← h.edge_tail ec]
  have disjoint : x ∈ p ∨ x ∈ n :: q ∨ x ∈ s → x ≠ u ∧ x ∉ v ∧ x ≠ c := by
    intro hm
    refine ⟨?_, ?_, ?_⟩
    · rintro rfl
      exact hu.1 (by grind)
    · intro hxv
      rcases hm with hm | hm
      · exact absurd rfl ((List.nodup_append.mp hn).2.2 x hm x (by simp [hxv]))
      · exact absurd rfl (hv.2.2 x hxv x (by grind))
    · rintro rfl
      rcases hm with hm | hm
      · exact absurd rfl ((List.nodup_append.mp hn).2.2 x hm x (by simp))
      · exact hc.1 (by grind)
  constructor
  · rintro ⟨hr, hxu, hxv, hxc⟩
    rcases hx with hp | hu | hv | hn | hq | hc | hs
    · exact .inl ⟨hr, hp⟩
    · exact absurd hu hxu
    · exact absurd hv hxv
    · exact .inr (.inl ⟨hr, by simp [hn]⟩)
    · exact .inr (.inl ⟨hr, by simp [hq]⟩)
    · exact absurd hc hxc
    · exact .inr (.inr ⟨hr, hs⟩)
  · rintro (⟨hr, hm⟩ | ⟨hr, hm⟩ | ⟨hr, hm⟩)
    · exact ⟨hr, disjoint (.inl hm)⟩
    · exact ⟨hr, disjoint (.inr (.inl hm))⟩
    · exact ⟨hr, disjoint (.inr (.inr hm))⟩

theorem Presents.split_succ (h : Presents r o l) {p s : List A} {a b : A}
    (e : o :: l = p ++ a :: s) (hr : r a b) : ∃ t, s ++ [o] = b :: t := by
  have ha := (h.edge_suffix e).mp ⟨hr, by simp⟩
  obtain ⟨c, t, hc⟩ : ∃ c t, s ++ [o] = c :: t := by
    cases s with
    | nil => exact ⟨o, [], rfl⟩
    | cons c s => exact ⟨c, s ++ [o], rfl⟩
  rw [hc, adj_cons_cons] at ha
  have hn := h.nodup
  rw [e] at hn
  rcases ha with ⟨-, rfl⟩ | ha
  · exact ⟨t, hc⟩
  · rw [← hc] at ha
    have := (List.nodup_cons.mp (List.nodup_middle.mp hn)).1
    exact absurd (adj_mem_left ha) (fun hs => this (by simp [hs]))

theorem Presents.split_edge (h : Presents r o l) {a b : A} (hr : r a b) (hb : b ≠ o) :
    ∃ p s, o :: l = p ++ a :: b :: s := by
  obtain ⟨p, s, e⟩ := List.mem_iff_append.mp (h.cover a)
  obtain ⟨t, ht⟩ := h.split_succ e hr
  cases s with
  | nil =>
    simp only [List.nil_append, List.cons.injEq] at ht
    exact absurd ht.1.symm hb
  | cons c s =>
    simp only [List.cons_append, List.cons.injEq] at ht
    exact ⟨p, s, by rw [e, ht.1]⟩

theorem Presents.rearrange (h : Presents r o l) {r' : A → A → Prop} {w : List A} {p s : List A}
    {a : A} (e : o :: l = p ++ a :: s) (hp : w.Perm s)
    (hadj : ∀ x y, r' x y ↔ Adj (p ++ a :: (w ++ [o])) x y) : ∃ l', Presents r' o l' := by
  obtain ⟨u, hu⟩ : ∃ u, p ++ [a] = o :: u := by
    cases p with
    | nil =>
      simp only [List.nil_append, List.cons.injEq] at e
      exact ⟨[], by simp [e.1]⟩
    | cons b p =>
      simp only [List.cons_append, List.cons.injEq] at e
      exact ⟨p ++ [a], by simp [e.1]⟩
  have hw : o :: (u ++ w) = p ++ a :: w := by
    rw [← List.cons_append, ← hu]
    simp
  have hperm : (o :: (u ++ w)).Perm (o :: l) := by
    rw [hw, e]
    exact (hp.cons a).append_left p
  refine ⟨u ++ w, hperm.nodup_iff.mpr h.nodup, fun x => hperm.mem_iff.mpr (h.cover x), ?_, ?_⟩
  · intro hnil
    rw [hnil] at hperm
    exact h.nontrivial (by simpa using hperm.length_eq.symm)
  · intro x y
    rw [hadj]
    have : o :: (u ++ w ++ [o]) = p ++ a :: (w ++ [o]) := by
      rw [← List.cons_append, hw]
      simp
    rw [this]

theorem Presents.reach (h : Presents r o l) (x y : A) : Relation.ReflTransGen r x y := by
  have lift : ∀ {u v : A}, Relation.ReflTransGen (cut r o) u v → Relation.ReflTransGen r u v :=
    fun hr => Relation.ReflTransGen.mono (r := cut r o) (p := r) (fun _ _ hc => hc.1) _ _ hr
  have out : ∀ v, Relation.ReflTransGen r o v := fun v =>
    lift ((h.reach_cut o v).mpr ⟨[], l, rfl, h.cover v⟩)
  obtain ⟨m, e, hl⟩ := List.eq_nil_or_concat l |>.resolve_left h.nontrivial
  have last : r e o := (h.adj e o).mpr ⟨o :: m, [], by simp [hl]⟩
  have back : Relation.ReflTransGen r x e := by
    obtain ⟨p, s, hs⟩ := List.mem_iff_append.mp (h.cover x)
    refine lift ((h.reach_cut x e).mpr ⟨p, s, hs, ?_⟩)
    have : (o :: m) ++ [e] = p ++ x :: s := by rw [← hs, hl]; simp
    rcases List.eq_nil_or_concat s with rfl | ⟨s, b, rfl⟩
    · have hb := (List.append_inj' this rfl).2
      simpa using hb
    · have hb := (List.append_inj' (show (o :: m) ++ [e] = (p ++ x :: s) ++ [b] by
        simpa using this) rfl).2
      simp at hb
      simp [hb]
  exact (back.tail last).trans (out y)

theorem Presents.axioms (h : Presents r o l) : Axioms r o := by
  have hn := h.nodup
  have hol : o ∉ l := (List.nodup_cons.mp hn).1
  refine ⟨?_, ?_, ?_, fun x => h.reach o x⟩
  · intro x
    obtain ⟨p, s, e⟩ := List.mem_iff_append.mp (h.cover x)
    have hsplit : o :: (l ++ [o]) = p ++ x :: (s ++ [o]) := by
      rw [← List.cons_append, e]
      simp
    obtain ⟨y, t, hy⟩ : ∃ y t, s ++ [o] = y :: t := by
      cases s with
      | nil => exact ⟨o, [], rfl⟩
      | cons b s => exact ⟨b, s ++ [o], rfl⟩
    refine ⟨y, (h.adj x y).mpr ⟨p, t, by rw [hsplit, hy]⟩, ?_⟩
    intro z hz
    have hz' := (h.adj x z).mp hz
    rw [hsplit, hy, adj_append, adj_cons_cons] at hz'
    rw [e] at hn
    have hx : x ∉ p ∧ x ∉ s := by
      have := List.nodup_cons.mp (List.nodup_middle.mp hn)
      simpa using this.1
    rcases hz' with hz' | ⟨-, rfl⟩ | hz'
    · exact absurd (adj_mem_left hz') hx.1
    · rfl
    · rw [← hy] at hz'
      exact absurd (adj_mem_left hz') hx.2
  · intro x
    have hx : x ∈ l ++ [o] := by
      have := h.cover x
      simp only [List.mem_cons] at this
      simp only [List.mem_append, List.mem_singleton]
      tauto
    have hn' : (l ++ [o]).Nodup := by
      rw [List.nodup_append]
      refine ⟨(List.nodup_cons.mp hn).2, by simp, ?_⟩
      intro a ha b hb hab
      rw [List.mem_singleton.mp hb] at hab
      exact hol (hab ▸ ha)
    obtain ⟨p, s, e⟩ := List.mem_iff_append.mp hx
    have hxp : x ∉ p ∧ x ∉ s := by
      rw [e] at hn'
      have := List.nodup_cons.mp (List.nodup_middle.mp hn')
      simpa using this.1
    obtain ⟨q, y, hy⟩ : ∃ q y, o :: p = q ++ [y] := by
      rcases List.eq_nil_or_concat (o :: p) with h0 | ⟨q, y, h0⟩
      · simp at h0
      · exact ⟨q, y, by simpa using h0⟩
    have hsplit : o :: (l ++ [o]) = q ++ y :: x :: s := by
      rw [e, ← List.cons_append, hy]
      simp
    refine ⟨y, (h.adj y x).mpr ⟨q, s, hsplit⟩, ?_⟩
    intro z hz
    have hz' := (h.adj z x).mp hz
    rw [hsplit, adj_append, adj_cons_cons, ← hy] at hz'
    rcases hz' with hz' | ⟨rfl, -⟩ | hz'
    · exact absurd (adj_mem_right hz') hxp.1
    · rfl
    · exact absurd (adj_mem_right hz') hxp.2
  · intro x hx
    obtain ⟨p, s, e⟩ := (h.adj x x).mp hx
    rcases List.eq_nil_or_concat s with rfl | ⟨s, b, rfl⟩
    · have e' : (o :: l) ++ [o] = (p ++ [x]) ++ [x] := by simpa using e
      have e1 := List.append_inj' e' rfl
      have hxo : o = x := by simpa using e1.2
      cases p with
      | nil => simp at e1; exact h.nontrivial e1.1.2
      | cons c p =>
        simp only [List.cons_append, List.cons.injEq] at e1
        exact hol (by rw [e1.1.2, hxo]; simp)
    · have e' : (o :: l) ++ [o] = (p ++ x :: x :: s) ++ [b] := by simpa using e
      rw [(List.append_inj' e' rfl).1] at hn
      exact (List.nodup_cons.mp (List.nodup_middle.mp hn)).1 (by simp)

end Presented

end Tour

namespace Tour

variable {A M : Type} [AddCommMonoid M]

def cost (d : A → A → M) : List A → M
  | [] => 0
  | [_] => 0
  | x :: y :: l => d x y + cost d (y :: l)

theorem cost_append (d : A → A → M) (p s : List A) (a : A) :
    cost d (p ++ a :: s) = cost d (p ++ [a]) + cost d (a :: s) := by
  induction p with
  | nil => simp [cost]
  | cons b p ih =>
    cases p with
    | nil => simp [cost]
    | cons c p =>
      simp only [List.cons_append, cost] at ih ⊢
      rw [ih, add_assoc]

theorem cost_split (d : A → A → M) (p s : List A) (a b : A) :
    cost d (p ++ a :: b :: s) = cost d (p ++ [a]) + (d a b + cost d (b :: s)) :=
  cost_append d p (b :: s) a

theorem cost_split_cons (d : A → A → M) (p s : List A) (a b c : A) :
    cost d (c :: (p ++ a :: b :: s)) = cost d (c :: (p ++ [a])) + (d a b + cost d (b :: s)) :=
  cost_split d (c :: p) s a b

theorem cost_reverse (d : A → A → M) (l : List A) :
    cost d l.reverse = cost (fun x y => d y x) l := by
  induction l with
  | nil => rfl
  | cons a l ih =>
    cases l with
    | nil => rfl
    | cons b l =>
      rw [List.reverse_cons, List.reverse_cons, List.append_assoc, List.singleton_append,
        cost_append, ← List.reverse_cons, ih]
      simp [cost, add_comm]

theorem not_adj_of_not_mem {l : List A} {a b : A} (h : a ∉ l.dropLast) : ¬ Adj l a b := by
  rintro ⟨p, s, rfl⟩
  apply h
  simp [List.dropLast_append_of_ne_nil]

theorem sum_adj [Fintype A] (d : A → A → M) (l : List A) (hn : l.dropLast.Nodup)
    (r : A → A → Prop) [DecidableRel r] (hr : ∀ x y, r x y ↔ Adj l x y) :
    (∑ e : A × A with r e.1 e.2, d e.1 e.2) = cost d l := by
  classical
  induction l generalizing r with
  | nil => simp [cost, hr, adj_nil]
  | cons a l ih =>
    cases l with
    | nil => simp [cost, hr, adj_singleton]
    | cons b l =>
      rw [List.dropLast_cons_cons, List.nodup_cons] at hn
      have hnot : ¬ Adj (b :: l) a b := not_adj_of_not_mem hn.1
      have hset : (Finset.univ.filter fun e : A × A => r e.1 e.2) =
          insert (a, b) (Finset.univ.filter fun e : A × A => Adj (b :: l) e.1 e.2) := by
        ext ⟨x, y⟩
        simp [hr, adj_cons_cons]
      rw [hset, Finset.sum_insert (by simp [hnot]), ih hn.2 _ fun _ _ => Iff.rfl, cost]

theorem Presents.sum_edges [Fintype A] {r : A → A → Prop} [DecidableRel r] {o : A} {l : List A}
    (h : Presents r o l) (d : A → A → M) :
    (∑ e : A × A with r e.1 e.2, d e.1 e.2) = cost d (o :: (l ++ [o])) := by
  refine sum_adj d _ ?_ r h.adj
  have : (o :: (l ++ [o])).dropLast = o :: l := by
    rw [← List.cons_append, List.dropLast_concat]
  rw [this]
  exact h.nodup

end Tour
