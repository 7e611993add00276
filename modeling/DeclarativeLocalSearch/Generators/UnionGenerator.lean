import DeclarativeLocalSearch.Generators.InstGenerator

namespace Generators

open Set

variable {V D : Type} {m : ℕ}

structure UnionState (generators : Fin m → InstGenerator V D) (checkers : Fin m → InstChecker V D) where
  reset : Bool
  current : ℕ
  generators : ∀ i, Object (generators i).State
  checkers : ∀ i, (checkers i).State

section Next

variable (generators : Fin m → InstGenerator V D) (checkers : Fin m → InstChecker V D)

def anyChecks (n : ℕ) : List (Fin m) → (∀ i, (checkers i).State) → (V → D) →
    Option ((Bool × ∀ i, (checkers i).State) × (V → D))
  | [], s, v => some ((false, s), v)
  | i :: is, s, v => ((checkers i).check n (s i) v).bind fun r =>
    if r.1.1 then some ((true, Function.update s i r.1.2), r.2)
    else anyChecks n is (Function.update s i r.1.2) r.2

def alreadySeen (n : ℕ) (s : Object (UnionState generators checkers)) (v : V → D) :
    Option ((Bool × Object (UnionState generators checkers)) × (V → D)) :=
  (anyChecks checkers n ((List.finRange m).take s.own.current) s.own.checkers v).map fun r =>
    ((r.1.1, { s with own.checkers := r.1.2 }), r.2)

def advance (n : ℕ) (s : Object (UnionState generators checkers)) (v : V → D) :
    Option (Object (UnionState generators checkers) × (V → D)) :=
  if s.own.reset then
    if m = 0 then some ({ s with atEnd := true, own.reset := false }, v)
    else if h : s.own.current < m then
      ((generators ⟨s.own.current, h⟩).begin n (s.own.generators ⟨s.own.current, h⟩) v).map fun r =>
        ({ s with own.reset := false, own.generators := Function.update s.own.generators _ r.1 }, r.2)
    else none
  else if h : s.own.current < m then
    ((generators ⟨s.own.current, h⟩).next n (s.own.generators ⟨s.own.current, h⟩) v).map fun r =>
      ({ s with own.generators := Function.update s.own.generators _ r.1 }, r.2)
  else none

-- on to the next generator that has an instantiation
def settle : ℕ → Object (UnionState generators checkers) → (V → D) →
    Option (Object (UnionState generators checkers) × (V → D))
  | 0, _, _ => none
  | n + 1, s, v =>
    if h : s.own.current < m then
      if (s.own.generators ⟨s.own.current, h⟩).atEnd then
        if h' : s.own.current + 1 < m then
          ((generators ⟨s.own.current + 1, h'⟩).begin n (s.own.generators ⟨s.own.current + 1, h'⟩) v).bind fun r =>
            settle n { s with own.current := s.own.current + 1
                              own.generators := Function.update s.own.generators _ r.1 } r.2
        else some ({ s with atEnd := true, own.current := s.own.current + 1 }, v)
      else some (s, v)
    else none

-- the loop from behind the advance in its body on
def resume : ℕ → Object (UnionState generators checkers) → (V → D) →
    Option (Object (UnionState generators checkers) × (V → D))
  | 0, _, _ => none
  | n + 1, s, v => (settle generators checkers n s v).bind fun r =>
    if r.1.atEnd then some r
    else (alreadySeen generators checkers n r.1 r.2).bind fun q =>
      if q.1.1 then (advance generators checkers n q.1.2 q.2).bind fun a =>
        if a.1.atEnd then some a else resume n a.1 a.2
      else some (q.1.2, q.2)

def UnionGenerator : InstGenerator V D where
  State := UnionState generators checkers
  reset _ s v := some ({ s with own.reset := true, own.current := 0 }, v)
  next n s v := (advance generators checkers n s v).bind fun a =>
    if a.1.atEnd then some a else resume generators checkers n a.1 a.2

end Next

section Lists

variable {generators : Fin m → InstGenerator V D} {checkers : Fin m → InstChecker V D} {R W T Tₖ : Set V}
  {L : Fin m → (V → D) → List (W → D)} {P : Fin m → (V → D) → Prop}

-- the instantiations of the generators from the i-th on, each with its generator
def later (L : Fin m → (V → D) → List (W → D)) (v : V → D) (i : ℕ) : List (Fin m × (W → D)) :=
  ((List.finRange m).drop i).flatMap fun j => (L j v).map (Prod.mk j)

def remaining (L : Fin m → (V → D) → List (W → D)) (v : V → D) (i : Fin m) (l : List (W → D)) :
    List (Fin m × (W → D)) :=
  l.map (Prod.mk i) ++ later L v (i + 1)

-- no generator before has the instantiation
def Fresh (P : Fin m → (V → D) → Prop) (v : V → D) (t : Fin m × (W → D)) : Prop :=
  ∀ j < t.1, ¬P j (write W t.2 v)

open Classical in
noncomputable def unseen (P : Fin m → (V → D) → Prop) (v : V → D) (l : List (Fin m × (W → D))) : List (W → D) :=
  (l.filter fun t => Fresh P v t).map Prod.snd

-- the instantiations l of the current generator are still to come
structure At (generators : Fin m → InstGenerator V D) (checkers : Fin m → InstChecker V D) (R W T : Set V) (i : Fin m)
    (l : List (W → D)) (s : Object (UnionState generators checkers)) (v : V → D) : Prop where
  reset : s.own.reset = false
  atEnd : s.atEnd = false
  current : s.own.current = i
  ready : Ready (generators i) R W T l (s.own.generators i) v

-- the union is at the first of the instantiations
def Settled (generators : Fin m → InstGenerator V D) (checkers : Fin m → InstChecker V D) (R W T : Set V)
    (L : Fin m → (V → D) → List (W → D)) (r : Object (UnionState generators checkers) × (V → D)) :
    List (Fin m × (W → D)) → Prop
  | [] => r.1.atEnd = true
  | (i, x) :: t => ∃ l, t = remaining L r.2 i l ∧ At generators checkers R W T i (x :: l) r.1 r.2

theorem later_eq (v : V → D) {i : ℕ} (h : i < m) :
    later L v i = (L ⟨i, h⟩ v).map (Prod.mk ⟨i, h⟩) ++ later L v (i + 1) := by
  rw [later, List.drop_eq_getElem_cons (by simpa using h), List.flatMap_cons, later]
  simp

theorem later_nil (v : V → D) {i : ℕ} (h : m ≤ i) : later L v i = [] := by
  rw [later, List.drop_eq_nil_of_le (by simpa using h), List.flatMap_nil]

theorem later_congr (hL : ∀ i v v', EqOn v v' R → L i v = L i v') {v v' : V → D} (hv : EqOn v v' R) (i : ℕ) :
    later L v i = later L v' i := by
  simp only [later, hL _ v v' hv]

theorem anyChecks_returns (hK : ∀ i, Checks (checkers i) (R ∪ W) Tₖ (P i)) (hT : Disjoint (R ∪ W) Tₖ) :
    ∀ (is : List (Fin m)) (s : ∀ i, (checkers i).State) (v : V → D), ∃ r,
      Returns (fun n => anyChecks checkers n is s v) r ∧ EqOn r.2 v Tₖᶜ ∧ (r.1.1 = true ↔ ∃ i ∈ is, P i v)
  | [], s, v => ⟨((false, s), v), .of_some _, eqOn_refl _ _, by simp⟩
  | i :: is, s, v => by
    obtain ⟨r, hr, hframe, hP⟩ := (hK i).decides (s i) v
    by_cases h : r.1.1 = true
    · refine ⟨((true, Function.update s i r.1.2), r.2), hr.bind ?_, hframe, ?_⟩
      · simp only [h, if_true]
        exact .of_some _
      · simpa using Or.inl (hP.mp h)
    · obtain ⟨q, hq, hqframe, hqP⟩ := anyChecks_returns hK hT is (Function.update s i r.1.2) r.2
      refine ⟨q, hr.bind ?_, hqframe.trans hframe, ?_⟩
      · simpa [h] using hq
      · rw [hqP]
        have hv : ∀ j, P j r.2 ↔ P j v := fun j => (hK j).input _ _ (off hframe hT)
        simp only [hv, List.mem_cons, exists_eq_or_imp, mt hP.mpr h, false_or]

theorem alreadySeen_returns (hK : ∀ i, Checks (checkers i) (R ∪ W) Tₖ (P i)) (hT : Disjoint (R ∪ W ∪ T) Tₖ) {i : Fin m}
    {l : List (W → D)} {s : Object (UnionState generators checkers)} {v : V → D}
    (h : At generators checkers R W T i l s v) : ∃ r, Returns (fun n => alreadySeen generators checkers n s v) r ∧
      EqOn r.2 v Tₖᶜ ∧ (r.1.1 = true ↔ ∃ j < i, P j v) ∧ At generators checkers R W T i l r.1.2 r.2 := by
  obtain ⟨r, hr, hframe, hP⟩ := anyChecks_returns hK (hT.mono_left subset_union_left)
    ((List.finRange m).take s.own.current) s.own.checkers v
  refine ⟨_, hr.map _, hframe, hP.trans ?_, ⟨h.reset, h.atEnd, h.current, h.ready.shift (off hframe hT)⟩⟩
  have hmem : ∀ j : Fin m, j ∈ (List.finRange m).take s.own.current ↔ j < i := by
    intro j
    rw [h.current, List.mem_take_iff_getElem]
    simp only [List.getElem_finRange, List.length_finRange]
    constructor
    · rintro ⟨k, hk, rfl⟩
      exact Fin.lt_def.mpr (lt_of_lt_of_le hk (min_le_left _ _))
    · exact fun hj => ⟨j, lt_min hj j.2, rfl⟩
  simp only [hmem]

theorem advance_at {i : Fin m} {x : W → D} {l : List (W → D)} {s : Object (UnionState generators checkers)} {v v' : V → D}
    (h : At generators checkers R W T i (x :: l) s v) (hv : EqOn v' v (R ∪ W ∪ T)) :
    ∃ r, Returns (fun n => advance generators checkers n s v') r ∧ EqOn r.2 v' (W ∪ T)ᶜ ∧
      At generators checkers R W T i l r.1 r.2 := by
  obtain ⟨r, hr, hframe, hready⟩ := h.ready.2.2 v' hv
  obtain ⟨e, reset, current, gens, checks⟩ := s
  obtain rfl : current = i := h.current
  obtain rfl : reset = false := h.reset
  refine ⟨(⟨e, ⟨false, i, Function.update gens i r.1, checks⟩⟩, r.2), ?_, hframe, ⟨rfl, h.atEnd, rfl, ?_⟩⟩
  · simp only [advance, Bool.false_eq_true, if_false, i.2, dif_pos, Fin.eta]
    exact hr.map _
  · simpa using hready

theorem remaining_congr (hL : ∀ i v v', EqOn v v' R → L i v = L i v') {v v' : V → D} (hv : EqOn v v' R) (i : Fin m)
    (l : List (W → D)) : remaining L v i l = remaining L v' i l := by
  rw [remaining, remaining, later_congr hL hv]

theorem settle_returns (hL : ∀ i, Lists (generators i) R W T (L i)) (d : ℕ) : ∀ {i : Fin m} {l : List (W → D)}
    {s : Object (UnionState generators checkers)} {v : V → D}, i + d + 1 = m →
    At generators checkers R W T i l s v → ∃ r, Returns (fun n => settle generators checkers n s v) r ∧
      EqOn r.2 v (W ∪ T)ᶜ ∧ Settled generators checkers R W T L r (remaining L v i l) := by
  have hcurrent : ∀ {i : Fin m} {x : W → D} {l : List (W → D)} {s : Object (UnionState generators checkers)}
      {v : V → D}, At generators checkers R W T i (x :: l) s v →
      Returns (fun n => settle generators checkers n s v) (s, v) := by
    intro i x l s v h
    refine (Returns.of_some (s, v)).succ fun n => ?_
    obtain ⟨e, reset, current, gens, checks⟩ := s
    obtain rfl : current = i := h.current
    have hend : (gens i).atEnd = false := h.ready.1
    simp [settle, hend]
  induction d with
  | zero =>
    intro i l s v hd h
    cases l with
    | nil =>
      refine ⟨({ s with atEnd := true, own.current := i + 1 }, v), ?_, eqOn_refl _ _, ?_⟩
      · refine (Returns.of_some _).succ fun n => ?_
        obtain ⟨e, reset, current, gens, checks⟩ := s
        obtain rfl : current = i := h.current
        have hend : (gens i).atEnd = true := h.ready
        simp [settle, hend, show ¬i + 1 < m by omega]
      · rw [remaining, later_nil v (by omega), List.map_nil, List.append_nil]
        rfl
    | cons x k => exact ⟨(s, v), hcurrent h, eqOn_refl _ _, k, rfl, h⟩
  | succ d ih =>
    intro i l s v hd h
    cases l with
    | nil =>
      have hi : (i : ℕ) + 1 < m := by omega
      obtain ⟨e, reset, current, gens, checks⟩ := s
      obtain rfl : current = i := h.current
      have hend : (gens i).atEnd = true := h.ready
      obtain ⟨r, hr, hframe, hready⟩ := (hL ⟨i + 1, hi⟩).delivers (gens ⟨i + 1, hi⟩) v
      have hat : At generators checkers R W T ⟨i + 1, hi⟩ (L ⟨i + 1, hi⟩ v)
          ⟨e, ⟨reset, i + 1, Function.update gens ⟨i + 1, hi⟩ r.1, checks⟩⟩ r.2 :=
        ⟨h.reset, h.atEnd, rfl, by simpa using hready⟩
      obtain ⟨q, hq, hqframe, hqat⟩ := ih (by simp; omega) hat
      have hstep : ∀ n, settle generators checkers (n + 1) ⟨e, ⟨reset, i, gens, checks⟩⟩ v =
          ((generators ⟨i + 1, hi⟩).begin n (gens ⟨i + 1, hi⟩) v).bind fun r => settle generators checkers n
            ⟨e, ⟨reset, i + 1, Function.update gens ⟨i + 1, hi⟩ r.1, checks⟩⟩ r.2 := by
        intro n
        simp [settle, hend, hi]
      refine ⟨q, Returns.succ (hr.bind hq) hstep, hqframe.trans hframe, ?_⟩
      · have hv : EqOn r.2 v R := off hframe (hL i).disjoint
        rw [remaining_congr (fun i => (hL i).input) hv] at hqat
        rwa [remaining, later_eq v hi]
    | cons x k => exact ⟨(s, v), hcurrent h, eqOn_refl _ _, k, rfl, h⟩

theorem fresh_congr (hK : ∀ i, Checks (checkers i) (R ∪ W) Tₖ (P i)) {v v' : V → D} (hv : EqOn v v' R)
    (t : Fin m × (W → D)) : Fresh P v t ↔ Fresh P v' t := by
  refine forall₂_congr fun j _ => not_congr ((hK j).input _ _ fun c hc => ?_)
  by_cases h : c ∈ W
  · rw [write_mem h, write_mem h]
  · rw [write_notMem h, write_notMem h, hv (hc.resolve_right h)]

theorem unseen_congr (hK : ∀ i, Checks (checkers i) (R ∪ W) Tₖ (P i)) {v v' : V → D} (hv : EqOn v v' R)
    (t : List (Fin m × (W → D))) : unseen P v t = unseen P v' t :=
  congrArg (List.map Prod.snd) (List.filter_congr fun t _ => decide_eq_decide.mpr (fresh_congr hK hv t))

theorem resume_delivers (hL : ∀ i, Lists (generators i) R W T (L i))
    (hK : ∀ i, Checks (checkers i) (R ∪ W) Tₖ (P i)) (hT : Disjoint (R ∪ W ∪ T) Tₖ) (t : List (Fin m × (W → D))) :
    ∀ {i : Fin m} {l : List (W → D)} {s : Object (UnionState generators checkers)} {v : V → D},
    At generators checkers R W T i l s v → remaining L v i l = t →
    Delivers (UnionGenerator generators checkers) R W (Tₖ ∪ T) (unseen P v t) v fun n =>
      resume generators checkers n s v := by
  induction t with
  | nil =>
    intro i l s v h ht
    obtain ⟨r, hr, hframe, hsettled⟩ := settle_returns hL (m - i - 1) (by omega) h
    rw [ht] at hsettled
    have hend : r.1.atEnd = true := hsettled
    refine Delivers.succ (Delivers.bind hr (hframe.mono (by grind)) ?_) fun n => rfl
    simp only [hend, if_true]
    exact Delivers.of_some hend
  | cons jx t ih =>
    intro i l s v h ht
    obtain ⟨j, x⟩ := jx
    obtain ⟨r, hr, hframe, hsettled⟩ := settle_returns hL (m - i - 1) (by omega) h
    rw [ht] at hsettled
    obtain ⟨k, hk, hat⟩ := hsettled
    obtain ⟨q, hq, hqframe, hqP, hqat⟩ := alreadySeen_returns hK hT hat
    have hrR : EqOn r.2 v R := off hframe (hL i).disjoint
    have hqR : EqOn q.2 v R := (off hqframe (hT.mono_left (by grind))).trans hrR
    have hnext : ∀ v', EqOn v' q.2 (R ∪ W ∪ T) → Delivers (UnionGenerator generators checkers) R W (Tₖ ∪ T)
        (unseen P v t) v' fun n => (advance generators checkers n q.1.2 v').bind fun a =>
          if a.1.atEnd then some a else resume generators checkers n a.1 a.2 := by
      intro v' hv'
      obtain ⟨a, ha, haframe, haat⟩ := advance_at hqat hv'
      have haR : EqOn a.2 v R := (off haframe (hL i).disjoint).trans ((hv'.mono (by grind)).trans hqR)
      refine Delivers.bind ha (haframe.mono (by grind)) ?_
      simp only [haat.atEnd, Bool.false_eq_true]
      rw [← unseen_congr hK haR]
      refine ih haat ?_
      rw [hk, remaining_congr (fun i => (hL i).input) (haR.trans hrR.symm)]
    have hfresh : q.1.1 = true ↔ ¬Fresh P v (j, x) := by
      have hwrite : EqOn r.2 (write W x v) (R ∪ W) := by
        intro c hc
        by_cases h : c ∈ W
        · rw [write_mem h, ← hat.ready.2.1, domRestrict_apply]
        · rw [write_notMem h, hrR (hc.resolve_right h)]
      rw [hqP, Fresh]
      push Not
      exact exists_congr fun i => and_congr_right fun _ => (hK i).input _ _ hwrite
    refine Delivers.succ (Delivers.bind hr (hframe.mono (by grind)) ?_) fun n => rfl
    simp only [hat.atEnd, Bool.false_eq_true, if_false]
    refine Delivers.bind hq (hqframe.mono (by grind)) ?_
    rw [unseen, List.filter_cons]
    by_cases hx : Fresh P v (j, x)
    · simp only [Bool.eq_false_iff.mpr (hfresh.not_left.mpr hx), hx, Bool.false_eq_true, if_false, decide_true, if_true,
        List.map_cons]
      exact Delivers.of_some ⟨hqat.atEnd, hqat.ready.2.1, fun v' hv' => hnext v' (hv'.mono (by grind))⟩
    · simp only [hfresh.mpr hx, hx, if_true, decide_false, Bool.false_eq_true, if_false]
      obtain ⟨a, ha, haframe, haready⟩ := hnext q.2 (eqOn_refl _ _)
      exact ⟨a, ha, haframe, haready⟩

theorem unionGenerator_lists (hd : Disjoint R (W ∪ (Tₖ ∪ T))) (hL : ∀ i, Lists (generators i) R W T (L i))
    (hK : ∀ i, Checks (checkers i) (R ∪ W) Tₖ (P i)) (hT : Disjoint (R ∪ W ∪ T) Tₖ) :
    Lists (UnionGenerator generators checkers) R W (Tₖ ∪ T) fun v => unseen P v (later L v 0) where
  disjoint := hd
  input v v' hv := by
    rw [unseen_congr hK hv, later_congr (fun i => (hL i).input) hv]
  delivers s v := by
    have hbegin : ∀ n, (UnionGenerator generators checkers).begin n s v =
        (advance generators checkers n ⟨false, { s.own with reset := true, current := 0 }⟩ v).bind fun a =>
          if a.1.atEnd then some a else resume generators checkers n a.1 a.2 := fun n => rfl
    simp only [hbegin]
    cases m with
    | zero =>
      have hcall : ∀ n, ((advance generators checkers n ⟨false, { s.own with reset := true, current := 0 }⟩ v).bind
          fun a => if a.1.atEnd then some a else resume generators checkers n a.1 a.2) =
          some (⟨true, ⟨false, 0, s.own.generators, s.own.checkers⟩⟩, v) := fun n => rfl
      simp only [hcall]
      exact Delivers.of_some rfl
    | succ m =>
      obtain ⟨r, hr, hframe, hready⟩ := (hL 0).delivers (s.own.generators 0) v
      have hat : At generators checkers R W T 0 (L 0 v)
          ⟨false, ⟨false, 0, Function.update s.own.generators 0 r.1, s.own.checkers⟩⟩ r.2 :=
        ⟨rfl, rfl, rfl, by simpa using hready⟩
      have hcall : ∀ n, ((advance generators checkers n ⟨false, { s.own with reset := true, current := 0 }⟩ v).bind
          fun a => if a.1.atEnd then some a else resume generators checkers n a.1 a.2) =
          ((generators 0).begin n (s.own.generators 0) v).bind fun r => resume generators checkers n
            ⟨false, ⟨false, 0, Function.update s.own.generators 0 r.1, s.own.checkers⟩⟩ r.2 := by
        intro n
        simp [advance, Option.bind_map]
      simp only [hcall]
      refine Delivers.bind hr (hframe.mono (by grind)) ?_
      have hrR : EqOn r.2 v R := off hframe (hL 0).disjoint
      rw [← unseen_congr hK hrR]
      refine resume_delivers hL hK hT _ hat ?_
      rw [← remaining_congr (fun i => (hL i).input) hrR.symm, remaining, later_eq v m.succ_pos]
      rfl

theorem mem_later {v : V → D} {t : Fin m × (W → D)} : t ∈ later L v 0 ↔ t.2 ∈ L t.1 v := by
  obtain ⟨i, x⟩ := t
  simp [later]

theorem later_nodup {v : V → D} (h : ∀ i, (L i v).Nodup) : (later L v 0).Nodup := by
  refine List.nodup_flatMap.mpr ⟨fun i _ => (h i).map fun x y h => by simpa using h, ?_⟩
  refine (List.nodup_finRange m).imp fun {i j} hne t hi hj => ?_
  obtain ⟨x, -, rfl⟩ := List.mem_map.mp hi
  obtain ⟨y, -, h⟩ := List.mem_map.mp hj
  exact hne (congrArg Prod.fst h).symm

-- with the checkers of the generators themselves
section Own

variable (hwrite : ∀ i x v, L i (write W x v) = L i v)

include hwrite

theorem fresh_iff {v : V → D} {i : Fin m} {x : W → D} :
    Fresh (fun i v => W.domRestrict v ∈ L i v) v (i, x) ↔ ∀ j < i, x ∉ L j v := by
  simp only [Fresh, domRestrict_write, hwrite]

theorem mem_unseen {v : V → D} {x : W → D} :
    x ∈ unseen (fun i v => W.domRestrict v ∈ L i v) v (later L v 0) ↔ ∃ i, x ∈ L i v := by
  simp only [unseen, List.mem_map, List.mem_filter, mem_later, decide_eq_true_eq, Prod.exists, exists_eq_right,
    fresh_iff hwrite]
  refine ⟨fun ⟨i, hi, _⟩ => ⟨i, hi⟩, fun ⟨i, hi⟩ => ?_⟩
  induction i using WellFoundedLT.induction with
  | ind i ih =>
    by_cases h : ∃ j < i, x ∈ L j v
    · obtain ⟨j, hj, hx⟩ := h
      exact ih j hj hx
    · push Not at h
      exact ⟨i, hi, h⟩

theorem unseen_nodup {v : V → D} (hnodup : ∀ i, (L i v).Nodup) :
    (unseen (fun i v => W.domRestrict v ∈ L i v) v (later L v 0)).Nodup := by
  refine ((later_nodup hnodup).filter _).map_on ?_
  rintro ⟨i, x⟩ hi ⟨j, y⟩ hj rfl
  simp only [List.mem_filter, mem_later, decide_eq_true_eq, fresh_iff hwrite] at hi hj
  rcases lt_trichotomy i j with h | rfl | h
  · exact absurd hi.1 (hj.2 i h)
  · rfl
  · exact absurd hj.1 (hi.2 j h)

end Own

end Lists

end Generators
