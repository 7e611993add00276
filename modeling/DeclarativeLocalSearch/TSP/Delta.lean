import DeclarativeLocalSearch.TSP.Moves

namespace TSP

open Tour

variable {City : Type} [LinearOrder City] [OrderBot City] [Fintype City]

-- sum{x y : dec_Path(x,y) : Distance(x,y)}
def Obj (s : V City) [DecidableRel s.decPath] : ℤ :=
  ∑ e : City × City with s.decPath e.1 e.2, s.dist e.1 e.2

-- the edges that the last rule of Tnext_2opt turns round
def turned2opt (s : V City) (b c x y : City) : Prop :=
  s.decPath x y ∧ s.reach b x ∧ s.reach y c ∧ y ≠ ⊥

def SameTurned2opt (s : V City) (b c : City) [DecidableRel (turned2opt s b c)] : Prop :=
  (∑ e : City × City with turned2opt s b c e.1 e.2, s.dist e.2 e.1) =
    ∑ e : City × City with turned2opt s b c e.1 e.2, s.dist e.1 e.2

section Decidable

variable (s : V City) [DecidableRel s.decPath] [DecidableRel s.reach]

instance (a b c d : City) : DecidableRel (nextDecPath2opt s a b c d) := fun _ _ => instDecidableOr

instance (a b nextA nextB preA : City) :
    DecidableRel (nextDecPathOropt1 s a b nextA nextB preA) := fun _ _ => instDecidableOr

instance (a b c d nextB preA : City) :
    DecidableRel (nextDecPathOropt2 s a b c d nextB preA) := fun _ _ => instDecidableOr

instance (b c : City) : DecidableRel (turned2opt s b c) := fun _ _ => instDecidableAnd

end Decidable

instance (s : V City) (path : City → City → Prop) [h : DecidableRel path] :
    DecidableRel (s.withPath path).decPath := h

theorem obj_eq_cost {s : V City} [DecidableRel s.decPath] {l : List City}
    (hl : Presents s.decPath ⊥ l) : Obj s = cost s.dist ((⊥ :: l) ++ [⊥]) :=
  hl.sum_edges s.dist

theorem obj_withPath {s : V City} {path : City → City → Prop} [DecidableRel path]
    {l p q w : List City} {a : City} (hl : Presents s.decPath ⊥ l) (e : ⊥ :: l = p ++ a :: q)
    (hw : w.Perm q) (hp : ∀ x y, path x y ↔ Adj (p ++ a :: (w ++ [⊥])) x y) :
    Obj (s.withPath path) = cost s.dist (p ++ a :: (w ++ [⊥])) := by
  have hdrop : (p ++ a :: (w ++ [⊥])).dropLast = p ++ a :: w := by
    rw [← List.cons_append, ← List.append_assoc, List.dropLast_concat]
  have hn : (p ++ a :: w).Nodup := by
    rw [((hw.cons a).append_left p).nodup_iff, ← e]
    exact hl.nodup
  exact sum_adj s.dist _ (hdrop.symm ▸ hn) path hp

theorem orOpt1_delta {s : V City} (h : T s) {a b nextA nextB preA : City} [DecidableRel s.decPath]
    [DecidableRel (nextDecPathOropt1 s a b nextA nextB preA)]
    (hv : getValidMovesOropt1 s a b nextA nextB preA) :
    Obj (s.withPath (nextDecPathOropt1 s a b nextA nextB preA)) =
      Obj s + getDeltaObjOropt1 s a b nextA nextB preA := by
  obtain ⟨l, hl⟩ := h.presents
  obtain ⟨p, q, r, t, e, ht⟩ := orOpt1_segments h hl hv
  rw [obj_withPath hl e (orOpt1_perm a b nextA q r) (orOpt1_adj h hl e ht), obj_eq_cost hl, e]
  have hnew : p ++ preA :: ((nextA :: (q ++ b :: a :: r)) ++ [⊥]) =
      p ++ preA :: nextA :: (q ++ b :: a :: nextB :: t) := by
    simp [ht]
  have hold : p ++ preA :: ([a] ++ nextA :: (q ++ b :: r)) ++ [⊥] =
      p ++ preA :: a :: nextA :: (q ++ b :: nextB :: t) := by
    simp [ht]
  rw [hnew, hold]
  simp only [cost_split, cost_split_cons, cost, getDeltaObjOropt1]
  ring

theorem orOpt2_delta {s : V City} (h : T s) {a b c d nextB preA : City} [DecidableRel s.decPath]
    [DecidableRel (nextDecPathOropt2 s a b c d nextB preA)]
    (hv : getValidMovesOropt2 s a b c d nextB preA) :
    Obj (s.withPath (nextDecPathOropt2 s a b c d nextB preA)) =
      Obj s + getDeltaObjOropt2 s a b c d nextB preA := by
  obtain ⟨l, hl⟩ := h.presents
  obtain ⟨p, q, r, t, e, ht⟩ := orOpt2_segments h hl hv
  rw [obj_withPath hl e (orOpt2_perm a b c nextB q r) (orOpt2_adj hl e ht), obj_eq_cost hl, e]
  have hnew : p ++ preA :: ((nextB :: (q ++ c :: b :: a :: r)) ++ [⊥]) =
      p ++ preA :: nextB :: (q ++ c :: b :: a :: d :: t) := by
    simp [ht]
  have hold : p ++ preA :: ([a, b] ++ nextB :: (q ++ c :: r)) ++ [⊥] =
      p ++ preA :: a :: b :: nextB :: (q ++ c :: d :: t) := by
    simp [ht]
  rw [hnew, hold]
  simp only [cost_split, cost_split_cons, cost, getDeltaObjOropt2]
  ring

-- what the delta of a 2-opt move leaves out is the segment from b to c
theorem twoOpt_delta {s : V City} (h : T s) {a b c d : City} [DecidableRel s.decPath]
    [DecidableRel (nextDecPath2opt s a b c d)] [DecidableRel (turned2opt s b c)]
    (hv : getValidMoves2opt s a b c d) :
    Obj (s.withPath (nextDecPath2opt s a b c d)) +
        (∑ e : City × City with turned2opt s b c e.1 e.2, s.dist e.1 e.2) =
      Obj s + getDeltaObj2opt s a b c d +
        ∑ e : City × City with turned2opt s b c e.1 e.2, s.dist e.2 e.1 := by
  obtain ⟨l, hl⟩ := h.presents
  obtain ⟨p, q, r, t, e, ht⟩ := twoOpt_segments h hl hv
  have hturned : ∀ x y, turned2opt s b c x y ↔ Adj (b :: (q ++ [c])) x y := turned_adj h hl e
  have hn : (b :: (q ++ [c])).dropLast.Nodup := by
    have hsub : (b :: q).Sublist (⊥ :: l) := by
      rw [e]
      exact (((List.sublist_append_left (b :: q) (c :: r)).cons a).trans
        (List.sublist_append_right p _))
    rw [← List.cons_append, List.dropLast_concat]
    exact hsub.nodup hl.nodup
  rw [obj_withPath hl e (twoOpt_perm b c q r) (twoOpt_adj h hl e ht), obj_eq_cost hl, e,
    sum_adj s.dist _ hn _ hturned, sum_adj (fun x y => s.dist y x) _ hn _ hturned,
    ← cost_reverse s.dist (b :: (q ++ [c]))]
  have hnew : p ++ a :: ((c :: (q.reverse ++ b :: r)) ++ [⊥]) =
      p ++ a :: c :: (q.reverse ++ b :: d :: t) := by
    simp [ht]
  have hold : p ++ a :: b :: (q ++ c :: r) ++ [⊥] = p ++ a :: b :: (q ++ c :: d :: t) := by
    simp [ht]
  have hrev : (b :: (q ++ [c])).reverse = c :: (q.reverse ++ [b]) := by simp
  rw [hnew, hold, hrev]
  simp only [cost_split, cost_split_cons, getDeltaObj2opt]
  ring

theorem moves_delta (s : V City) (h : T s) [DecidableRel s.decPath] [DecidableRel s.reach] :
    (∀ a b c d, getValidMoves2opt s a b c d →
      (Obj (s.withPath (nextDecPath2opt s a b c d)) = Obj s + getDeltaObj2opt s a b c d ↔
        SameTurned2opt s b c)) ∧
    (∀ a b nextA nextB preA, getValidMovesOropt1 s a b nextA nextB preA →
      Obj (s.withPath (nextDecPathOropt1 s a b nextA nextB preA)) =
        Obj s + getDeltaObjOropt1 s a b nextA nextB preA) ∧
    (∀ a b c d nextB preA, getValidMovesOropt2 s a b c d nextB preA →
      Obj (s.withPath (nextDecPathOropt2 s a b c d nextB preA)) =
        Obj s + getDeltaObjOropt2 s a b c d nextB preA) := by
  refine ⟨fun a b c d hv => ?_, fun _ _ _ _ _ hv => orOpt1_delta h hv,
    fun _ _ _ _ _ _ hv => orOpt2_delta h hv⟩
  have hdelta := twoOpt_delta h hv
  rw [SameTurned2opt]
  constructor <;> intro heq <;> omega

section Simple

instance : DecidableRel ring.decPath := inferInstanceAs (DecidableRel ringPath)

theorem sameTurned2opt_of_symm {s : V City} {b c : City} [DecidableRel (turned2opt s b c)]
    (hd : ∀ x y, s.dist x y = s.dist y x) : SameTurned2opt s b c :=
  Finset.sum_congr rfl fun e _ => hd e.2 e.1

open Classical in
theorem moves_delta_ring :
    Obj (ring.withPath (nextDecPath2opt ring 0 1 2 3)) =
      Obj ring + getDeltaObj2opt ring 0 1 2 3 ∧
    Obj (ring.withPath (nextDecPathOropt1 ring 1 3 2 4 0)) =
      Obj ring + getDeltaObjOropt1 ring 1 3 2 4 0 ∧
    Obj (ring.withPath (nextDecPathOropt2 ring 1 2 4 5 3 0)) =
      Obj ring + getDeltaObjOropt2 ring 1 2 4 5 3 0 := by
  have near : ∀ x y : Fin 6, ringPath x y → y ≠ ⊥ → ring.reach x y := fun _ _ h hy => .edge h hy
  have hsymm : ∀ x y, ring.dist x y = ring.dist y x := by decide
  refine ⟨((moves_delta ring ring_theory).1 0 1 2 3 ?_).mpr (sameTurned2opt_of_symm hsymm),
    (moves_delta ring ring_theory).2.1 1 3 2 4 0 ?_,
    (moves_delta ring ring_theory).2.2 1 2 4 5 3 0 ?_⟩
  · exact ⟨rfl, rfl, by decide, by decide, near 1 2 rfl (by decide), by decide, by decide⟩
  · exact ⟨by decide, by decide, by change ¬ ringPath 1 3; decide,
      .step (z := 2) rfl (near 2 3 rfl (by decide)) (by decide), rfl, rfl, rfl, by decide⟩
  · exact ⟨rfl, rfl, rfl, rfl, near 3 4 rfl (by decide), by decide, by decide, by decide,
      by decide, by decide⟩

def simpleDistance : Fin 7 → Fin 7 → ℕ :=
  ![![0, 10, 15, 8, 1, 3, 5],
    ![10, 0, 9, 7, 19, 3, 1],
    ![6, 9, 0, 10, 10, 2, 3],
    ![9, 7, 10, 0, 12, 6, 6],
    ![1, 2, 10, 12, 0, 8, 2],
    ![1, 3, 8, 6, 9, 0, 9],
    ![5, 2, 12, 7, 3, 8, 0]]

def simplePath (x y : Fin 7) : Prop := y = x + 1

instance : DecidableRel simplePath := fun x y => inferInstanceAs (Decidable (y = x + 1))

theorem simpleDistance_le : ∀ x y, simpleDistance x y ≤ 19 := by decide

-- the structure Simple with the tour A B C D E F G
def Simple : V (Fin 7) where
  N := {n | n ≤ 19}
  decPath := simplePath
  distance x y := ⟨simpleDistance x y, simpleDistance_le x y⟩
  reachable := Reachable simplePath
  reach := Reach simplePath
  longestEdge := ⟨19, Nat.le_refl 19⟩

instance : DecidableRel Simple.decPath := inferInstanceAs (DecidableRel simplePath)

theorem simple_presents : Presents simplePath ⊥ [1, 2, 3, 4, 5, 6] where
  nodup := by decide
  cover := by decide
  nontrivial := by decide
  adj := by
    have h : ∀ x y, simplePath x y ↔ (x, y) ∈ [((⊥ : Fin 7), 1), (1, 2), (2, 3), (3, 4), (4, 5),
      (5, 6), (6, ⊥)] := by decide
    intro x y
    rw [h]
    simp [adj_cons_cons, adj_singleton]

theorem simple_theory : T Simple := by
  have ha := simple_presents.axioms
  refine ⟨ha.succ, ha.pred, ha.loopless, fun x => (reachable_iff _ _).mpr (ha.reach x),
    fun _ => Iff.rfl, fun _ _ => Iff.rfl, ?_⟩
  rintro ⟨le, hle⟩
  have hle' : le ≤ 19 := hle
  constructor
  · rintro h a b
    obtain rfl : 19 = le := congrArg Subtype.val h
    exact simpleDistance_le a b
  · intro h
    have h19 : 19 ≤ le := h 1 4
    exact Subtype.ext (by change 19 = le; omega)

theorem simple_valid : getValidMoves2opt Simple 0 1 5 6 := by
  have near : ∀ x y : Fin 7, simplePath x y → y ≠ ⊥ → Reach simplePath x y :=
    fun _ _ h hy => .edge h hy
  have hreach : Reach simplePath 1 5 :=
    .step (z := 2) rfl (.step (z := 3) rfl (.step (z := 4) rfl (near 4 5 rfl (by decide))
      (by decide)) (by decide)) (by decide)
  exact ⟨rfl, rfl, by decide, by decide, hreach, by decide, by decide⟩

open Classical in
theorem simple_delta : T Simple ∧ getValidMoves2opt Simple 0 1 5 6 ∧
    Obj (Simple.withPath (nextDecPath2opt Simple 0 1 5 6)) ≠
      Obj Simple + getDeltaObj2opt Simple 0 1 5 6 := by
  have e : (⊥ : Fin 7) :: [1, 2, 3, 4, 5, 6] = [] ++ 0 :: 1 :: ([2, 3, 4] ++ 5 :: [6]) := rfl
  have hnext := obj_withPath (s := Simple) simple_presents e (twoOpt_perm 1 5 [2, 3, 4] [6])
    (twoOpt_adj (d := 6) (t := [0]) simple_theory simple_presents e rfl)
  have hobj := obj_eq_cost (s := Simple) simple_presents
  refine ⟨simple_theory, simple_valid, ?_⟩
  rw [hnext, hobj]
  decide

end Simple

end TSP
