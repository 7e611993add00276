import DeclarativeLocalSearch.Generators.InstGenerator

namespace Generators

open Set

variable {V D : Type}

-- what a generator does below an instantiation of its own generator: begin the child, and go on with it; each says
-- whether there is an instantiation
structure Branches (V D : Type) where
  State : Type
  first : ℕ → State → (V → D) → Option ((Bool × State) × (V → D))
  another : ℕ → State → (V → D) → Option ((Bool × State) × (V → D))

structure TreeState (G : InstGenerator V D) (B : Branches V D) where
  reset : Bool
  generator : Object G.State
  branches : B.State

section Next

variable (G : InstGenerator V D) (B : Branches V D)

-- the generator is at a new value
def search : ℕ → Object (TreeState G B) → (V → D) → Option (Object (TreeState G B) × (V → D))
  | 0, _, _ => none
  | n + 1, s, v =>
    if s.own.generator.atEnd then some ({ s with atEnd := true }, v)
    else (B.first n s.own.branches v).bind fun r =>
      if r.1.1 then some ({ s with own.branches := r.1.2 }, r.2)
      else (G.next n s.own.generator r.2).bind fun q =>
        search n { s with own.generator := q.1, own.branches := r.1.2 } q.2

def treeGenerator : InstGenerator V D where
  State := TreeState G B
  reset _ s v := some ({ s with own.reset := true }, v)
  next n s v :=
    if s.own.reset then
      (G.begin n s.own.generator v).bind fun q => search G B n { s with own.reset := false, own.generator := q.1 } q.2
    else
      (B.another n s.own.branches v).bind fun r =>
        if r.1.1 then some ({ s with own.branches := r.1.2 }, r.2)
        else (G.next n s.own.generator r.2).bind fun q =>
          search G B n { s with own.generator := q.1, own.branches := r.1.2 } q.2

end Next

def found {α : Type} (r : Object α × (V → D)) : (Bool × Object α) × (V → D) := ((!r.1.atEnd, r.1), r.2)

def onlyChild (C : InstGenerator V D) : Branches V D where
  State := Object C.State
  first n c v := (C.begin n c v).map found
  another n c v := if c.atEnd then some (found (c, v)) else (C.next n c v).map found

def OneChildGenerator (generator child : InstGenerator V D) : InstGenerator V D :=
  treeGenerator generator (onlyChild child)

structure CheckedState (K : InstChecker V D) (C C' : InstGenerator V D) where
  checker : K.State
  falsecheckbranch : Object C.State
  truecheckbranch : Object C'.State

def checkedChild (K : InstChecker V D) (C C' : InstGenerator V D) : Branches V D where
  State := CheckedState K C C'
  first n s v := (K.check n s.checker v).bind fun k =>
    let s := { s with checker := k.1.2 }
    if k.1.1 then (C'.begin n s.truecheckbranch k.2).map fun r =>
      ((!r.1.atEnd, { s with truecheckbranch := r.1 }), r.2)
    else (C.begin n s.falsecheckbranch k.2).map fun r => ((!r.1.atEnd, { s with falsecheckbranch := r.1 }), r.2)
  another n s v := (K.check n s.checker v).bind fun k =>
    let s := { s with checker := k.1.2 }
    if k.1.1 then
      if s.truecheckbranch.atEnd then some ((false, s), k.2)
      else (C'.next n s.truecheckbranch k.2).map fun r => ((!r.1.atEnd, { s with truecheckbranch := r.1 }), r.2)
    else
      if s.falsecheckbranch.atEnd then some ((false, s), k.2)
      else (C.next n s.falsecheckbranch k.2).map fun r => ((!r.1.atEnd, { s with falsecheckbranch := r.1 }), r.2)

def TwoChildGenerator (checker : InstChecker V D) (generator falsecheckbranch truecheckbranch : InstGenerator V D) :
    InstGenerator V D :=
  treeGenerator generator (checkedChild checker falsecheckbranch truecheckbranch)

section Pairs

variable {W₁ W₂ : Set V}

open Classical in
noncomputable def pair (x : W₁ → D) (y : W₂ → D) : (W₁ ∪ W₂ : Set V) → D :=
  fun c => if h : c.1 ∈ W₁ then x ⟨c, h⟩ else y ⟨c, c.2.resolve_left h⟩

def left (z : (W₁ ∪ W₂ : Set V) → D) : W₁ → D := fun c => z ⟨c, Or.inl c.2⟩

def right (z : (W₁ ∪ W₂ : Set V) → D) : W₂ → D := fun c => z ⟨c, Or.inr c.2⟩

theorem left_pair (x : W₁ → D) (y : W₂ → D) : left (pair x y) = x := funext fun c => dif_pos c.2

theorem right_pair (h : Disjoint W₁ W₂) (x : W₁ → D) (y : W₂ → D) : right (pair x y) = y :=
  funext fun c => dif_neg fun hc => disjoint_left.mp h hc c.2

theorem pair_left_right (z : (W₁ ∪ W₂ : Set V) → D) : pair (left z) (right z) = z := by
  funext c
  rw [pair]
  split <;> rfl

theorem pair_domRestrict (v : V → D) : pair (W₁.domRestrict v) (W₂.domRestrict v) = (W₁ ∪ W₂).domRestrict v := by
  funext c
  rw [pair]
  split <;> rfl

-- the instantiations of the generator, each with those that the child has for it
noncomputable def pairs (L : (V → D) → List (W₂ → D)) (v : V → D) (l : List (W₁ → D)) : List ((W₁ ∪ W₂ : Set V) → D) :=
  l.flatMap fun x => (L (write W₁ x v)).map (pair x)

def Product (S₁ : (V → D) → Set (W₁ → D)) (S₂ : (V → D) → Set (W₂ → D)) (v : V → D) :
    Set ((W₁ ∪ W₂ : Set V) → D) :=
  {z | left z ∈ S₁ v ∧ right z ∈ S₂ (write W₁ (left z) v)}

theorem pairs_congr {R : Set V} {L : (V → D) → List (W₂ → D)} (hL : ∀ v v', EqOn v v' R → L v = L v') {v v' : V → D}
    (hv : EqOn v v' (R \ W₁)) (l : List (W₁ → D)) : pairs L v l = pairs L v' l := by
  have hwrite : ∀ x : W₁ → D, L (write W₁ x v) = L (write W₁ x v') := by
    intro x
    refine hL _ _ fun c hc => ?_
    by_cases h : c ∈ W₁
    · rw [write_mem h, write_mem h]
    · rw [write_notMem h, write_notMem h, hv ⟨hc, h⟩]
  simp only [pairs, hwrite]

theorem mem_pairs {L : (V → D) → List (W₂ → D)} (hd : Disjoint W₁ W₂) {v : V → D} {l : List (W₁ → D)}
    {z : (W₁ ∪ W₂ : Set V) → D} : z ∈ pairs L v l ↔ left z ∈ l ∧ right z ∈ L (write W₁ (left z) v) := by
  simp only [pairs, List.mem_flatMap, List.mem_map]
  constructor
  · rintro ⟨x, hx, y, hy, rfl⟩
    rw [left_pair, right_pair hd]
    exact ⟨hx, hy⟩
  · rintro ⟨hx, hy⟩
    exact ⟨left z, hx, right z, hy, pair_left_right z⟩

theorem pairs_nodup {L : (V → D) → List (W₂ → D)} (hd : Disjoint W₁ W₂) {v : V → D} {l : List (W₁ → D)}
    (hl : l.Nodup) (hL : ∀ v, (L v).Nodup) : (pairs L v l).Nodup := by
  refine List.nodup_flatMap.mpr ⟨fun x _ => (hL _).map fun y y' h => ?_, hl.imp fun {x x'} hne => ?_⟩
  · rw [← right_pair hd x y, h, right_pair hd]
  · intro z hz hz'
    obtain ⟨y, _, rfl⟩ := List.mem_map.mp hz
    obtain ⟨y', _, h⟩ := List.mem_map.mp hz'
    exact hne (by rw [← left_pair x y, ← h, left_pair])

end Pairs

-- Below: the branches are at the first of the instantiations listed, which are those still to come
structure Branches.Lists (B : Branches V D) (R W T : Set V) (L : (V → D) → List (W → D))
    (Below : List (W → D) → B.State → (V → D) → Prop) : Prop where
  disjoint : Disjoint R (W ∪ T)
  input : ∀ v v', EqOn v v' R → L v = L v'
  first : ∀ s v, ∃ r, Returns (fun n => B.first n s v) r ∧ EqOn r.2 v (W ∪ T)ᶜ ∧ (r.1.1 = true ↔ L v ≠ []) ∧
    Below (L v) r.1.2 r.2
  current : ∀ x l s v, Below (x :: l) s v → W.domRestrict v = x
  another : ∀ x l s v v', Below (x :: l) s v → EqOn v' v (R ∪ W ∪ T) →
    ∃ r, Returns (fun n => B.another n s v') r ∧ EqOn r.2 v' (W ∪ T)ᶜ ∧ (r.1.1 = true ↔ l ≠ []) ∧ Below l r.1.2 r.2

section Tree

variable {G : InstGenerator V D} {B : Branches V D} {R₁ W₁ T₁ R₂ W₂ T₂ : Set V} {L₁ : (V → D) → List (W₁ → D)}
  {L₂ : (V → D) → List (W₂ → D)} {Below : List (W₂ → D) → B.State → (V → D) → Prop}

-- once the branches are through, the generator is advanced
def Advances (G : InstGenerator V D) (B : Branches V D) (R₁ W₁ T₁ R₂ W₂ T₂ : Set V) (L₂ : (V → D) → List (W₂ → D))
    (l : List (W₁ → D)) (g : Object G.State) (v : V → D) : Prop :=
  ∀ v' s, EqOn v' v (R₁ ∪ W₁ ∪ T₁) →
    Delivers (treeGenerator G B) (R₁ ∪ R₂ \ W₁) (W₁ ∪ W₂) (T₁ ∪ T₂) (pairs L₂ v' l) v' fun n =>
      (G.next n g v').bind fun q => search G B n ⟨false, ⟨false, q.1, s⟩⟩ q.2

theorem Advances.shift {l : List (W₁ → D)} {g : Object G.State} {v v' : V → D}
    (h : Advances G B R₁ W₁ T₁ R₂ W₂ T₂ L₂ l g v) (hv : EqOn v' v (R₁ ∪ W₁ ∪ T₁)) :
    Advances G B R₁ W₁ T₁ R₂ W₂ T₂ L₂ l g v' := fun u s hu => h u s (hu.trans hv)

theorem ready_of_below (hB : B.Lists R₂ W₂ T₂ L₂ Below) (hd : Disjoint (R₁ ∪ W₁ ∪ T₁) (W₂ ∪ T₂)) {g : Object G.State}
    {l : List (W₁ → D)} {x : W₁ → D} {k : List (W₂ → D)} : ∀ {y : W₂ → D} {s : B.State} {v : V → D},
    Below (y :: k) s v → W₁.domRestrict v = x → Advances G B R₁ W₁ T₁ R₂ W₂ T₂ L₂ l g v →
    Ready (treeGenerator G B) (R₁ ∪ R₂ \ W₁) (W₁ ∪ W₂) (T₁ ∪ T₂) ((y :: k).map (pair x) ++ pairs L₂ v l)
      ⟨false, ⟨false, g, s⟩⟩ v := by
  induction k with
  | nil =>
    intro y s v hbelow hx hadv
    refine ⟨rfl, ?_, fun v' hv => ?_⟩
    · rw [← pair_domRestrict, hx, hB.current _ _ _ _ hbelow]
    · obtain ⟨r, hr, hframe, hfound, -⟩ := hB.another _ _ _ _ v' hbelow (hv.mono (by grind))
      have hfound : r.1.1 = false := by simpa using hfound
      have hr₁ : EqOn r.2 v (R₁ ∪ W₁ ∪ T₁) := (off hframe hd).trans (hv.mono (by grind))
      have hr₂ : EqOn v r.2 (R₂ \ W₁) :=
        (((off hframe hB.disjoint).mono sdiff_subset).trans (hv.mono (by grind))).symm
      refine Delivers.bind hr (hframe.mono (by grind)) ?_
      simp only [hfound, Bool.false_eq_true, if_false, List.map_nil]
      rw [pairs_congr hB.input hr₂]
      exact hadv r.2 r.1.2 hr₁
  | cons y' k ih =>
    intro y s v hbelow hx hadv
    refine ⟨rfl, ?_, fun v' hv => ?_⟩
    · rw [← pair_domRestrict, hx, hB.current _ _ _ _ hbelow]
    · obtain ⟨r, hr, hframe, hfound, hbelow'⟩ := hB.another _ _ _ _ v' hbelow (hv.mono (by grind))
      have hfound : r.1.1 = true := by simpa using hfound
      have hr₁ : EqOn r.2 v (R₁ ∪ W₁ ∪ T₁) := (off hframe hd).trans (hv.mono (by grind))
      have hr₂ : EqOn v r.2 (R₂ \ W₁) :=
        (((off hframe hB.disjoint).mono sdiff_subset).trans (hv.mono (by grind))).symm
      refine Delivers.bind hr (hframe.mono (by grind)) ?_
      simp only [hfound, if_true]
      rw [pairs_congr hB.input hr₂]
      refine Delivers.of_some (ih hbelow' ?_ (hadv.shift hr₁))
      rw [← hx]
      exact funext fun c => hr₁ (Or.inl (Or.inr c.2))

theorem search_delivers (hB : B.Lists R₂ W₂ T₂ L₂ Below) (hd : Disjoint (R₁ ∪ W₁ ∪ T₁) (W₂ ∪ T₂))
    (hT : Disjoint R₂ T₁) {l : List (W₁ → D)} : ∀ {g : Object G.State} {v : V → D} (s : B.State),
    Ready G R₁ W₁ T₁ l g v →
    Delivers (treeGenerator G B) (R₁ ∪ R₂ \ W₁) (W₁ ∪ W₂) (T₁ ∪ T₂) (pairs L₂ v l) v fun n =>
      search G B n ⟨false, ⟨false, g, s⟩⟩ v := by
  induction l with
  | nil =>
    intro g v s hg
    have hready : Ready (treeGenerator G B) (R₁ ∪ R₂ \ W₁) (W₁ ∪ W₂) (T₁ ∪ T₂) [] ⟨true, ⟨false, g, s⟩⟩ v := rfl
    have hend : g.atEnd = true := hg
    exact (Delivers.of_some hready).succ fun n => by
      simp only [search, hend, if_true]
      rfl
  | cons x l ih =>
    intro g v s hg
    obtain ⟨hend, hx, hnext⟩ := hg
    have hadv : Advances G B R₁ W₁ T₁ R₂ W₂ T₂ L₂ l g v := by
      intro u s' hu
      obtain ⟨q, hq, hframe, hready⟩ := hnext u hu
      refine Delivers.bind hq (hframe.mono (by grind)) ?_
      have hq : EqOn u q.2 (R₂ \ W₁) := by
        refine (hframe.mono fun c hc => ?_).symm
        rintro (h | h)
        · exact hc.2 h
        · exact disjoint_left.mp hT hc.1 h
      rw [pairs_congr hB.input hq]
      exact ih s' hready
    obtain ⟨r, hr, hframe, hfound, hbelow⟩ := hB.first s v
    have hr₁ : EqOn r.2 v (R₁ ∪ W₁ ∪ T₁) := off hframe hd
    have hr₂ : EqOn v r.2 (R₂ \ W₁) := ((off hframe hB.disjoint).mono sdiff_subset).symm
    have hpairs : pairs L₂ v (x :: l) = (L₂ v).map (pair x) ++ pairs L₂ r.2 l := by
      rw [← pairs_congr hB.input hr₂, pairs, List.flatMap_cons, ← hx, write_domRestrict, pairs]
    have hstep : ∀ n, search G B (n + 1) ⟨false, ⟨false, g, s⟩⟩ v = (B.first n s v).bind fun r =>
        if r.1.1 then some (⟨false, ⟨false, g, r.1.2⟩⟩, r.2)
        else (G.next n g r.2).bind fun q => search G B n ⟨false, ⟨false, q.1, r.1.2⟩⟩ q.2 := by
      intro n
      rw [search, if_neg (by simp [hend])]
    refine Delivers.succ ?_ hstep
    · refine Delivers.bind hr (hframe.mono (by grind)) ?_
      rw [hpairs]
      cases hl : L₂ v with
      | nil =>
        have hfound : r.1.1 = false := by simpa [hl] using hfound
        simp only [hfound, Bool.false_eq_true, if_false, List.map_nil, List.nil_append]
        exact hadv r.2 r.1.2 hr₁
      | cons y k =>
        have hfound : r.1.1 = true := by simpa [hl] using hfound
        simp only [hfound, if_true]
        rw [hl] at hbelow
        refine Delivers.of_some (ready_of_below hB hd hbelow ?_ (hadv.shift hr₁))
        rw [← hx]
        exact funext fun c => hr₁ (Or.inl (Or.inr c.2))

theorem treeGenerator_lists (hG : Lists G R₁ W₁ T₁ L₁) (hB : B.Lists R₂ W₂ T₂ L₂ Below)
    (hd : Disjoint (R₁ ∪ W₁ ∪ T₁) (W₂ ∪ T₂)) (hT : Disjoint R₂ T₁) :
    Lists (treeGenerator G B) (R₁ ∪ R₂ \ W₁) (W₁ ∪ W₂) (T₁ ∪ T₂) fun v => pairs L₂ v (L₁ v) where
  disjoint := by
    have hG := hG.disjoint
    have hB := hB.disjoint
    rw [disjoint_left] at *
    grind
  input v v' hv := by
    rw [hG.input v v' (hv.mono subset_union_left), pairs_congr hB.input (hv.mono subset_union_right)]
  delivers s v := by
    obtain ⟨q, hq, hframe, hready⟩ := hG.delivers s.own.generator v
    have hbegin : ∀ n, (treeGenerator G B).begin n s v = (G.begin n s.own.generator v).bind fun q =>
        search G B n ⟨false, ⟨false, q.1, s.own.branches⟩⟩ q.2 := fun n => rfl
    have hq₂ : EqOn v q.2 (R₂ \ W₁) := by
      refine (hframe.mono fun c hc => ?_).symm
      rintro (h | h)
      · exact hc.2 h
      · exact disjoint_left.mp hT hc.1 h
    simp only [hbegin]
    refine Delivers.bind hq (hframe.mono (by grind)) ?_
    rw [pairs_congr hB.input hq₂]
    exact search_delivers hB hd hT s.own.branches hready

end Tree

section Children

variable {G C C' : InstGenerator V D} {K : InstChecker V D} {R₁ W₁ T₁ R₂ W₂ T₂ Rₖ Tₖ : Set V}
  {L L' : (V → D) → List (W₂ → D)} {P : (V → D) → Prop}

theorem onlyChild_lists (hC : Lists C R₂ W₂ T₂ L) :
    (onlyChild C).Lists R₂ W₂ T₂ L (Ready C R₂ W₂ T₂) where
  disjoint := hC.disjoint
  input := hC.input
  first s v := by
    obtain ⟨r, hr, hframe, hready⟩ := hC.delivers s v
    exact ⟨found r, hr.map found, hframe, hready.found_iff, hready⟩
  current x l s v h := h.2.1
  another x l s v v' h hv := by
    obtain ⟨r, hr, hframe, hready⟩ := h.2.2 v' hv
    refine ⟨found r, ?_, hframe, hready.found_iff, hready⟩
    simp only [onlyChild, h.1, Bool.false_eq_true, if_false]
    exact hr.map found

-- the check wrote variables of its own only, so that the branch may be begun, or be gone on with
theorem Lists.after_check (hC : Lists C R₂ W₂ T₂ L) (hT : Disjoint (R₂ ∪ W₂ ∪ T₂) Tₖ) {k v : V → D}
    (hk : EqOn k v Tₖᶜ) (c : Object C.State) : ∃ r, Returns (fun n => C.begin n c k) r ∧
      EqOn r.2 k (W₂ ∪ T₂)ᶜ ∧ EqOn r.2 v (W₂ ∪ (Tₖ ∪ T₂))ᶜ ∧ Ready C R₂ W₂ T₂ (L v) r.1 r.2 := by
  obtain ⟨r, hr, hframe, hready⟩ := hC.delivers c k
  have hk' : EqOn k v R₂ := off hk (hT.mono_left (by grind))
  rw [hC.input k v hk'] at hready
  exact ⟨r, hr, hframe, (hframe.mono (by grind)).trans (hk.mono (by grind)), hready⟩

theorem Ready.after_check {l : List (W₂ → D)} {x : W₂ → D} {c : Object C.State} {k v v' : V → D}
    (h : Ready C R₂ W₂ T₂ (x :: l) c v) (hT : Disjoint (R₂ ∪ W₂ ∪ T₂) Tₖ) (hv : EqOn v' v (R₂ ∪ W₂ ∪ T₂))
    (hk : EqOn k v' Tₖᶜ) : ∃ r, Returns (fun n => C.next n c k) r ∧
      EqOn r.2 k (W₂ ∪ T₂)ᶜ ∧ EqOn r.2 v' (W₂ ∪ (Tₖ ∪ T₂))ᶜ ∧ Ready C R₂ W₂ T₂ l r.1 r.2 := by
  obtain ⟨r, hr, hframe, hready⟩ := h.2.2 k ((off hk hT).trans hv)
  exact ⟨r, hr, hframe, (hframe.mono (by grind)).trans (hk.mono (by grind)), hready⟩

open Classical in
theorem checkedChild_lists (hK : Checks K Rₖ Tₖ P) (hC : Lists C R₂ W₂ T₂ L) (hC' : Lists C' R₂ W₂ T₂ L')
    (hRₖ : Disjoint Rₖ (W₂ ∪ (Tₖ ∪ T₂))) (hTₖ : Disjoint (R₂ ∪ W₂ ∪ T₂) Tₖ) :
    (checkedChild K C C').Lists (Rₖ ∪ R₂) W₂ (Tₖ ∪ T₂) (fun v => if P v then L' v else L v) fun l s v =>
      if P v then Ready C' R₂ W₂ T₂ l s.truecheckbranch v else Ready C R₂ W₂ T₂ l s.falsecheckbranch v where
  disjoint := by
    have hC := hC.disjoint
    rw [disjoint_left] at *
    grind
  input v v' hv := by
    rw [hC.input v v' (hv.mono subset_union_right), hC'.input v v' (hv.mono subset_union_right),
      hK.input v v' (hv.mono subset_union_left)]
  first s v := by
    obtain ⟨k, hk, hkframe, hkP⟩ := hK.decides s.checker v
    have hPk : P k.2 ↔ P v := hK.input _ _ (off hkframe (hRₖ.mono_right (by grind)))
    by_cases hP : P v
    · obtain ⟨r, hr, hrk, hframe, hready⟩ := hC'.after_check hTₖ hkframe s.truecheckbranch
      have hPr : P r.2 := (hK.input _ _ (off hrk (hRₖ.mono_right (by grind)))).mpr (hPk.mpr hP)
      refine ⟨((!r.1.atEnd, ⟨k.1.2, s.falsecheckbranch, r.1⟩), r.2), hk.bind ?_, hframe, ?_, ?_⟩
      · simp only [hkP.mpr hP, if_true]
        exact hr.map _
      · rw [if_pos hP]
        exact hready.found_iff
      · rw [if_pos hP, if_pos hPr]
        exact hready
    · obtain ⟨r, hr, hrk, hframe, hready⟩ := hC.after_check hTₖ hkframe s.falsecheckbranch
      have hPr : ¬P r.2 := fun h => hP (hPk.mp ((hK.input _ _ (off hrk (hRₖ.mono_right (by grind)))).mp h))
      refine ⟨((!r.1.atEnd, ⟨k.1.2, r.1, s.truecheckbranch⟩), r.2), hk.bind ?_, hframe, ?_, ?_⟩
      · simp only [mt hkP.mp hP]
        exact hr.map _
      · rw [if_neg hP]
        exact hready.found_iff
      · rw [if_neg hP, if_neg hPr]
        exact hready
  current x l s v h := by
    split at h
    · exact h.2.1
    · exact h.2.1
  another x l s v v' h hv := by
    obtain ⟨k, hk, hkframe, hkP⟩ := hK.decides s.checker v'
    have hPv : P v' ↔ P v := hK.input _ _ (hv.mono (by grind))
    have hPk : P k.2 ↔ P v' := hK.input _ _ (off hkframe (hRₖ.mono_right (by grind)))
    by_cases hP : P v
    · rw [if_pos hP] at h
      obtain ⟨r, hr, hrk, hframe, hready⟩ := h.after_check hTₖ (hv.mono (by grind)) hkframe
      have hPr : P r.2 := (hK.input _ _ (off hrk (hRₖ.mono_right (by grind)))).mpr (hPk.mpr (hPv.mpr hP))
      refine ⟨((!r.1.atEnd, ⟨k.1.2, s.falsecheckbranch, r.1⟩), r.2), hk.bind ?_, hframe, hready.found_iff, ?_⟩
      · simp only [hkP.mpr (hPv.mpr hP), h.1, if_true, Bool.false_eq_true, if_false]
        exact hr.map _
      · rw [if_pos hPr]
        exact hready
    · rw [if_neg hP] at h
      obtain ⟨r, hr, hrk, hframe, hready⟩ := h.after_check hTₖ (hv.mono (by grind)) hkframe
      have hPr : ¬P r.2 := fun h =>
        hP (hPv.mp (hPk.mp ((hK.input _ _ (off hrk (hRₖ.mono_right (by grind)))).mp h)))
      refine ⟨((!r.1.atEnd, ⟨k.1.2, r.1, s.truecheckbranch⟩), r.2), hk.bind ?_, hframe, hready.found_iff, ?_⟩
      · simp only [mt hkP.mp (mt hPv.mp hP), h.1, Bool.false_eq_true, if_false]
        exact hr.map _
      · rw [if_neg hPr]
        exact hready

end Children

end Generators
