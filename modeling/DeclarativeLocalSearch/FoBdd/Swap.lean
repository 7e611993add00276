import DeclarativeLocalSearch.FoBdd.Boolean

namespace FoBdd

open DecisionDiagram

variable {A S : Type}

namespace FOBDDManager

def clearDynamicTables : Op A S Unit := modify fun s => { s with
  negationtable := fun _ => none
  conjunctiontable := fun _ _ => none
  disjunctiontable := fun _ _ => none
  ifthenelsetable := fun _ _ _ => none
  quanttable := fun _ _ => none }

def kernelAbove (kernel : ℕ) : Op A S (Option ℕ) := do
  let o ← getOrder kernel
  if o.category = .trueFalse then pure none
  else pure ((← get).kernels o.category (o.number + 1))

-- the number 0 minus one is above every number in use
def kernelBelow (kernel : ℕ) : Op A S (Option ℕ) := do
  let o ← getOrder kernel
  if o.category = .trueFalse ∨ o.number = 0 then pure none
  else pure ((← get).kernels o.category (o.number - 1))

def replaceBDD (b kernel truebranch falsebranch : ℕ) : Op A S Unit := modify fun s => { s with
  bdd := Function.update s.bdd b (some (.branch kernel truebranch falsebranch))
  bddtable := Table.insert3 s.bddtable kernel falsebranch truebranch b }

-- t0 and f0 are the branches for a false nextkernel, t1 and f1 those for a true one
def rebuild (kernel nextkernel b t0 f0 t1 f1 : ℕ) : Op A S Unit := do
  let newfalse ← getBDD kernel t0 f0
  let newtrue ← getBDD kernel t1 f1
  replaceBDD b nextkernel newtrue newfalse

def swapBranches (kernel nextkernel b fb tb : ℕ) (swapfalse swaptrue : Bool) : Op A S Unit :=
  match swapfalse, swaptrue with
  | true, true => do
    rebuild kernel nextkernel b (← falsebranch tb) (← falsebranch fb) (← truebranch tb)
      (← truebranch fb)
  | true, false => do
    rebuild kernel nextkernel b tb (← falsebranch fb) tb (← truebranch fb)
  | false, true => do
    rebuild kernel nextkernel b (← falsebranch tb) fb (← truebranch tb) fb
  | false, false => pure ()

-- the entry of the table of the kernel at the branches fb and tb; the result is what to erase
def swapEntry (kernel nextkernel fb tb : ℕ) : Op A S (List (ℕ × ℕ)) := do
  match (← get).bddtable kernel fb tb with
  | none => pure []
  | some b =>
    let swapfalse := nextkernel == (← kernelOf fb)
    let swaptrue := nextkernel == (← kernelOf tb)
    swapBranches kernel nextkernel b fb tb swapfalse swaptrue
    pure (if swapfalse || swaptrue then [(fb, tb)] else [])

def swapEntries (kernel nextkernel : ℕ) : List (ℕ × ℕ) → Op A S (List (ℕ × ℕ))
  | [] => pure []
  | (fb, tb) :: entries => do
    let erase ← swapEntry kernel nextkernel fb tb
    pure (erase ++ (← swapEntries kernel nextkernel entries))

def eraseEntries (kernel : ℕ) : List (ℕ × ℕ) → Op A S Unit
  | [] => pure ()
  | (fb, tb) :: erase => do
    modify fun s => { s with bddtable := Table.erase3 s.bddtable kernel fb tb }
    eraseEntries kernel erase

def swapNumbers (kernel nextkernel : ℕ) : Op A S Unit := do
  let o ← getOrder kernel
  let o' ← getOrder nextkernel
  modify fun s => { s with
    order := Function.update (Function.update s.order nextkernel (some ⟨o'.category, o.number⟩))
      kernel (some ⟨o.category, o'.number⟩)
    kernels := Table.insert2 (Table.insert2 s.kernels o.category o.number nextkernel)
      o.category o'.number kernel }

-- visit lists the entries of the table of a kernel in the order of the loop
def moveDown (visit : ℕ → List (ℕ × ℕ)) (kernel : ℕ) : Op A S Unit := do
  clearDynamicTables
  match ← kernelBelow kernel with
  | none => pure ()
  | some nextkernel =>
    let erase ← swapEntries kernel nextkernel (visit kernel)
    eraseEntries kernel erase
    swapNumbers kernel nextkernel

def moveUp (visit : ℕ → List (ℕ × ℕ)) (kernel : ℕ) : Op A S Unit := do
  clearDynamicTables
  match ← kernelAbove kernel with
  | none => pure ()
  | some kernelabove => moveDown visit kernelabove

end FOBDDManager

end FoBdd

namespace FoBdd

open DecisionDiagram

variable {A S : Type}

namespace FOBDDManager

variable {s s' s0 s1 : FOBDDManager A S}

def Root (s : FOBDDManager A S) (k b : ℕ) : Prop := ∃ hi lo, s.bdd b = some (.branch k hi lo)

-- b1 and b0 are what is left of b when k is true and when it is false
def Splits (s : FOBDDManager A S) (k b b1 b0 : ℕ) : Prop :=
  s.bdd b = some (.branch k b1 b0) ∨ ¬ s.Root k b ∧ b1 = b ∧ b0 = b

def withReplaced (s : FOBDDManager A S) (b k t f : ℕ) : FOBDDManager A S :=
  { s with
    bdd := Function.update s.bdd b (some (.branch k t f))
    bddtable := Table.insert3 s.bddtable k f t b }

theorem getBDD_cases {k t f r : ℕ} (h1 : k ≠ truekernel) (h2 : k ≠ falsekernel)
    (hr : (getBDD k t f).run s = some (r, s')) :
    (r = f ∧ f = t ∧ s' = s) ∨ (f ≠ t ∧ s.bddtable k f t = some r ∧ s' = s) ∨
      f ≠ t ∧ s.bddtable k f t = none ∧ r = s.nextbdd ∧ s' = s.withBDD k t f := by
  rw [getBDD, if_neg h1, if_neg h2] at hr
  split_ifs at hr with h3
  · obtain ⟨rfl, rfl⟩ := Op.pure_eq_some.mp hr
    exact Or.inl ⟨rfl, h3, rfl⟩
  · rw [Op.get_bind] at hr
    cases htab : s.bddtable k f t with
    | some b =>
      rw [htab] at hr
      obtain ⟨rfl, rfl⟩ := Op.pure_eq_some.mp hr
      exact Or.inr (Or.inl ⟨h3, rfl, rfl⟩)
    | none =>
      rw [htab] at hr
      obtain ⟨rfl, rfl⟩ := addBDD_eq_some.mp hr
      exact Or.inr (Or.inr ⟨h3, rfl, rfl, rfl⟩)

theorem rebuild_eq_some {k n b t0 f0 t1 f1 : ℕ} {u : Unit}
    (hr : (rebuild k n b t0 f0 t1 f1).run s = some (u, s')) :
    ∃ newfalse s1 newtrue s2, (getBDD k t0 f0).run s = some (newfalse, s1) ∧
      (getBDD k t1 f1).run s1 = some (newtrue, s2) ∧
      s' = s2.withReplaced b n newtrue newfalse := by
  simp only [rebuild, Op.bind_eq_some] at hr
  obtain ⟨newfalse, s1, hf, newtrue, s2, ht, hr⟩ := hr
  exact ⟨newfalse, s1, newtrue, s2, hf, ht, (Op.modify_eq_some.mp hr).symm⟩

theorem kernelOf_root {k b k' : ℕ} (h1 : k ≠ truekernel) (h2 : k ≠ falsekernel)
    (hr : (kernelOf b).run s = some (k', s')) : s = s' ∧ ((k == k') = true ↔ s.Root k b) := by
  obtain ⟨rfl, ⟨v, hb, rfl⟩ | ⟨hi, lo, hb⟩⟩ := kernelOf_eq_some hr
  · refine ⟨rfl, ?_⟩
    rw [beq_iff_eq, Root, hb]
    cases v
    · simpa using h2
    · simpa using h1
  · refine ⟨rfl, ?_⟩
    rw [beq_iff_eq, Root, hb]
    constructor
    · rintro rfl
      exact ⟨hi, lo, rfl⟩
    · rintro ⟨hi', lo', h⟩
      cases h
      rfl

theorem truebranch_root {k b t : ℕ} (hb : s.Root k b)
    (hr : (truebranch b).run s = some (t, s')) :
    s = s' ∧ ∃ f, s.bdd b = some (.branch k t f) := by
  obtain ⟨hi, lo, hb⟩ := hb
  obtain ⟨rfl, rfl⟩ := truebranch_branch hb hr
  exact ⟨rfl, lo, hb⟩

theorem falsebranch_root {k b f : ℕ} (hb : s.Root k b)
    (hr : (falsebranch b).run s = some (f, s')) :
    s = s' ∧ ∃ t, s.bdd b = some (.branch k t f) := by
  obtain ⟨hi, lo, hb⟩ := hb
  obtain ⟨rfl, rfl⟩ := falsebranch_branch hb hr
  exact ⟨rfl, hi, hb⟩

theorem splits_of_branches {k b t f t' f' : ℕ} (ht : s.bdd b = some (.branch k t f'))
    (hf : s.bdd b = some (.branch k t' f)) : s.Splits k b t f := by
  rw [ht] at hf
  cases hf
  exact Or.inl ht

theorem swapEntry_cases {k n f t : ℕ} {erase : List (ℕ × ℕ)} (h1 : n ≠ truekernel)
    (h2 : n ≠ falsekernel) (hr : (swapEntry k n f t).run s = some (erase, s')) :
    (s' = s ∧ erase = [] ∧ (s.bddtable k f t = none ∨ ¬ s.Root n f ∧ ¬ s.Root n t)) ∨
      ∃ b t1 t0 f1 f0, s.bddtable k f t = some b ∧ erase = [(f, t)] ∧ s.Splits n t t1 t0 ∧
        s.Splits n f f1 f0 ∧ (s.Root n f ∨ s.Root n t) ∧
        (rebuild k n b t0 f0 t1 f1).run s = some ((), s') := by
  rw [swapEntry, Op.get_bind] at hr
  cases htab : s.bddtable k f t with
  | none =>
    rw [htab] at hr
    obtain ⟨rfl, rfl⟩ := Op.pure_eq_some.mp hr
    exact Or.inl ⟨rfl, rfl, Or.inl rfl⟩
  | some b =>
    rw [htab] at hr
    simp only [Op.bind_eq_some, Op.pure_eq_some] at hr
    obtain ⟨kf, s1, hkf, kt, s2, hkt, u, s3, hswap, rfl, rfl⟩ := hr
    obtain ⟨rfl, hf⟩ := kernelOf_root h1 h2 hkf
    obtain ⟨rfl, ht⟩ := kernelOf_root h1 h2 hkt
    cases hsf : n == kf <;> cases hst : n == kt <;> rw [hsf, hst] at hswap <;> rw [hsf] at hf <;>
      rw [hst] at ht
    · obtain ⟨-, rfl⟩ := Op.pure_eq_some.mp hswap
      exact Or.inl ⟨rfl, rfl, Or.inr ⟨fun h => Bool.false_ne_true (hf.mpr h),
        fun h => Bool.false_ne_true (ht.mpr h)⟩⟩
    · simp only [swapBranches, Op.bind_eq_some] at hswap
      obtain ⟨t0, s3, ht0, t1, s4, ht1, hswap⟩ := hswap
      obtain ⟨rfl, t', ht0⟩ := falsebranch_root (ht.mp rfl) ht0
      obtain ⟨rfl, f', ht1⟩ := truebranch_root (ht.mp rfl) ht1
      exact Or.inr ⟨b, t1, t0, f, f, rfl, rfl, splits_of_branches ht1 ht0,
        Or.inr ⟨fun h => Bool.false_ne_true (hf.mpr h), rfl, rfl⟩, Or.inr (ht.mp rfl), hswap⟩
    · simp only [swapBranches, Op.bind_eq_some] at hswap
      obtain ⟨f0, s3, hf0, f1, s4, hf1, hswap⟩ := hswap
      obtain ⟨rfl, t', hf0⟩ := falsebranch_root (hf.mp rfl) hf0
      obtain ⟨rfl, f', hf1⟩ := truebranch_root (hf.mp rfl) hf1
      exact Or.inr ⟨b, t, t, f1, f0, rfl, rfl,
        Or.inr ⟨fun h => Bool.false_ne_true (ht.mpr h), rfl, rfl⟩, splits_of_branches hf1 hf0,
        Or.inl (hf.mp rfl), hswap⟩
    · simp only [swapBranches, Op.bind_eq_some] at hswap
      obtain ⟨t0, s3, ht0, f0, s4, hf0, t1, s5, ht1, f1, s6, hf1, hswap⟩ := hswap
      obtain ⟨rfl, t', ht0⟩ := falsebranch_root (ht.mp rfl) ht0
      obtain ⟨rfl, t'', hf0⟩ := falsebranch_root (hf.mp rfl) hf0
      obtain ⟨rfl, f', ht1⟩ := truebranch_root (ht.mp rfl) ht1
      obtain ⟨rfl, f'', hf1⟩ := truebranch_root (hf.mp rfl) hf1
      exact Or.inr ⟨b, t1, t0, f1, f0, rfl, rfl, splits_of_branches ht1 ht0,
        splits_of_branches hf1 hf0, Or.inl (hf.mp rfl), hswap⟩

section Meaning

-- the state s in the middle of swapping the kernel k with the kernel n below it, begun in s0:
-- erase has the entries that are to be erased, W bounds the height of the diagrams
structure Swapping (s0 s : FOBDDManager A S) (k n : ℕ) (erase : List (ℕ × ℕ)) (W : ℕ → ℕ) :
    Prop where
  frame : s = { s0 with bdd := s.bdd, nextbdd := s.nextbdd, bddtable := s.bddtable }
  leaves : ∀ b v, s.bdd b = some (.leaf v) ↔ s0.bdd b = some (.leaf v)
  closed : Closed s.bdd
  freshbdd : ∀ b, s.nextbdd ≤ b → s.bdd b = none
  labelled : ∀ b k hi lo, s.bdd b = some (.branch k hi lo) →
    ∃ o, s0.order k = some o ∧ o.category ≠ .trueFalse
  valid : ∀ b, s0.bdd b ≠ none → s.bdd b ≠ none
  holds : ∀ b, s0.bdd b ≠ none → ∀ w, Holds s.bdd w b ↔ Holds s0.bdd w b
  bddtable : ∀ k' f t b, s.bddtable k' f t = some b →
    s.bdd b = some (.branch k' t f) ∨ k' = k ∧ (f, t) ∈ erase
  entries : ∀ f t b, s.bddtable k f t = some b → s.bdd b ≠ none ∧ s.bdd t ≠ none ∧
    s.bdd f ≠ none ∧ ∀ w, Holds s.bdd w b ↔ Choice (w k) (Holds s.bdd w t) (Holds s.bdd w f)
  child : ∀ b k hi lo, s.bdd b = some (.branch k hi lo) → W hi < W b ∧ W lo < W b
  large : ∀ b hi lo, s.bdd b = some (.branch k hi lo) → W hi + W lo < W b
  small : ∀ f t b, s.bddtable k f t = some b → W b ≤ W t + W f + 1

variable {k n : ℕ} {erase : List (ℕ × ℕ)} {W : ℕ → ℕ}

theorem Swapping.acyclic (h : Swapping s0 s k n erase W) : Acyclic s.bdd :=
  acyclic_of_weight h.child

theorem Swapping.congr {erase' : List (ℕ × ℕ)} (h : Swapping s0 s k n erase W)
    (he : ∀ x, x ∈ erase → x ∈ erase') : Swapping s0 s k n erase' W :=
  { h with bddtable := fun k' f t b hb => (h.bddtable k' f t b hb).imp_right fun hx =>
      ⟨hx.1, he _ hx.2⟩ }

theorem swapping_refl {c : Prop} (h : Inv c s0) : ∃ W, Swapping s0 s0 k n [] W := by
  obtain ⟨W, hW⟩ := exists_size h.acyclic
  refine ⟨W, ?_⟩
  exact {
    frame := rfl
    leaves := fun _ _ => Iff.rfl
    closed := h.closed
    freshbdd := h.freshbdd
    labelled := h.labelled
    valid := fun _ hb => hb
    holds := fun _ _ _ => Iff.rfl
    bddtable := fun k' f t b hb => Or.inl (h.bddtable k' f t b hb)
    entries := fun f t b hb => by
      have hn := h.bddtable k f t b hb
      obtain ⟨ht, hf⟩ := h.closed b k t f hn
      exact ⟨by rw [hn]; exact Option.some_ne_none _, ht, hf, fun w => holds_branch hn⟩
    child := fun b k' hi lo hb => by
      rw [hW b k' hi lo hb]
      omega
    large := fun b hi lo hb => by
      rw [hW b k hi lo hb]
      omega
    small := fun f t b hb => (hW b k t f (h.bddtable k f t b hb)).le }

-- getBDD in the middle of a swap: r is the node over t and f, W1 the new heights
structure Lookup (s s1 : FOBDDManager A S) (k t f r : ℕ) (W W1 : ℕ → ℕ) : Prop where
  heights : ∀ b, s.bdd b ≠ none → W1 b = W b
  bdd : ∀ b x, s.bdd b = some x → s1.bdd b = some x
  bddtable : ∀ k f t b, s.bddtable k f t = some b → s1.bddtable k f t = some b
  valid : s1.bdd r ≠ none
  holds : ∀ w, Holds s1.bdd w r ↔ Choice (w k) (Holds s.bdd w t) (Holds s.bdd w f)
  small : W1 r ≤ W t + W f + 1

theorem Swapping.next_none (h : Swapping s0 s k n erase W) {b : ℕ} (hb : s.bdd b ≠ none) :
    b ≠ s.nextbdd :=
  fun he => hb (he ▸ h.freshbdd s.nextbdd le_rfl)

theorem Swapping.withBDD (h : Swapping s0 s k n erase W) {t f : ℕ}
    (hk : ∃ o, s0.order k = some o ∧ o.category ≠ .trueFalse) (ht : s.bdd t ≠ none)
    (hf : s.bdd f ≠ none) :
    Swapping s0 (s.withBDD k t f) k n erase (Function.update W s.nextbdd (W t + W f + 1)) := by
  have hext : ∀ b x, s.bdd b = some x → (s.withBDD k t f).bdd b = some x := fun b x hb =>
    (withBDD_bdd_old (h.next_none (by rw [hb]; exact Option.some_ne_none x))).trans hb
  have hvalid : ∀ b, s.bdd b ≠ none → (s.withBDD k t f).bdd b ≠ none := fun b hb => by
    rw [withBDD_bdd_old (h.next_none hb)]
    exact hb
  have hholds : ∀ b, s.bdd b ≠ none → ∀ w,
      Holds (s.withBDD k t f).bdd w b ↔ Holds s.bdd w b := fun b hb w =>
    holds_of_extends h.closed hext hb
  have hW : ∀ b, s.bdd b ≠ none → Function.update W s.nextbdd (W t + W f + 1) b = W b :=
    fun b hb => Function.update_of_ne (h.next_none hb) _ _
  have hnew : Function.update W s.nextbdd (W t + W f + 1) s.nextbdd = W t + W f + 1 :=
    Function.update_self _ _ _
  exact {
    frame := congrArg (fun s => FOBDDManager.withBDD s k t f) h.frame
    leaves := fun b v => by
      rw [← h.leaves]
      constructor
      · intro hb
        rcases withBDD_bdd hb with ⟨-, hn⟩ | ⟨-, hb⟩
        · cases hn
        · exact hb
      · exact hext b _
    closed := fun b k' hi lo hb => by
      rcases withBDD_bdd hb with ⟨-, hn⟩ | ⟨-, hb⟩
      · cases hn
        exact ⟨hvalid t ht, hvalid f hf⟩
      · obtain ⟨hhi, hlo⟩ := h.closed b k' hi lo hb
        exact ⟨hvalid hi hhi, hvalid lo hlo⟩
    freshbdd := fun b hb => by
      have hb : s.nextbdd + 1 ≤ b := hb
      exact (withBDD_bdd_old (by omega)).trans (h.freshbdd b (by omega))
    labelled := fun b k' hi lo hb => by
      rcases withBDD_bdd hb with ⟨-, hn⟩ | ⟨-, hb⟩
      · cases hn
        exact hk
      · exact h.labelled b k' hi lo hb
    valid := fun b hb => hvalid b (h.valid b hb)
    holds := fun b hb w => (hholds b (h.valid b hb) w).trans (h.holds b hb w)
    bddtable := fun k' f' t' b hb => by
      rcases Table.of_insert3 hb with ⟨rfl, rfl, rfl, rfl⟩ | hb
      · exact Or.inl withBDD_bdd_new
      · exact (h.bddtable k' f' t' b hb).imp_left (hext b _)
    entries := fun f' t' b hb => by
      rcases Table.of_insert3 hb with ⟨-, rfl, rfl, rfl⟩ | hb
      · refine ⟨by rw [withBDD_bdd_new]; exact Option.some_ne_none _, hvalid t' ht, hvalid f' hf,
          fun w => holds_branch withBDD_bdd_new⟩
      · obtain ⟨hb, ht', hf', hw⟩ := h.entries f' t' b hb
        exact ⟨hvalid b hb, hvalid t' ht', hvalid f' hf', fun w => by
          rw [hholds b hb, hholds t' ht', hholds f' hf', hw]⟩
    child := fun b k' hi lo hb => by
      rcases withBDD_bdd hb with ⟨rfl, hn⟩ | ⟨-, hb⟩
      · cases hn
        rw [hnew, hW t ht, hW f hf]
        omega
      · obtain ⟨hhi, hlo⟩ := h.closed b k' hi lo hb
        rw [hW b (by rw [hb]; exact Option.some_ne_none _), hW hi hhi, hW lo hlo]
        exact h.child b k' hi lo hb
    large := fun b hi lo hb => by
      rcases withBDD_bdd hb with ⟨rfl, hn⟩ | ⟨-, hb⟩
      · cases hn
        rw [hnew, hW t ht, hW f hf]
        omega
      · obtain ⟨hhi, hlo⟩ := h.closed b k hi lo hb
        rw [hW b (by rw [hb]; exact Option.some_ne_none _), hW hi hhi, hW lo hlo]
        exact h.large b hi lo hb
    small := fun f' t' b hb => by
      rcases Table.of_insert3 hb with ⟨-, rfl, rfl, rfl⟩ | hb
      · rw [hnew, hW t' ht, hW f' hf]
      · obtain ⟨hbv, ht', hf', -⟩ := h.entries f' t' b hb
        rw [hW b hbv, hW t' ht', hW f' hf']
        exact h.small f' t' b hb }

theorem Swapping.getBDD (h : Swapping s0 s k n erase W) {t f r : ℕ}
    (hk : ∃ o, s0.order k = some o ∧ o.category ≠ .trueFalse) (h1 : k ≠ truekernel)
    (h2 : k ≠ falsekernel) (ht : s.bdd t ≠ none) (hf : s.bdd f ≠ none)
    (hr : (getBDD k t f).run s = some (r, s1)) :
    ∃ W1, Swapping s0 s1 k n erase W1 ∧ Lookup s s1 k t f r W W1 := by
  rcases getBDD_cases h1 h2 hr with ⟨rfl, rfl, rfl⟩ | ⟨-, htab, rfl⟩ | ⟨-, htab, rfl, rfl⟩
  · exact ⟨W, h, fun _ _ => rfl, fun _ _ hb => hb, fun _ _ _ _ hb => hb, hf,
      fun w => (choice_self _ _).symm, by omega⟩
  · obtain ⟨hb, -, -, hw⟩ := h.entries f t r htab
    exact ⟨W, h, fun _ _ => rfl, fun _ _ hb => hb, fun _ _ _ _ hb => hb, hb, hw,
      h.small f t r htab⟩
  · refine ⟨_, h.withBDD hk ht hf, fun b hb => Function.update_of_ne (h.next_none hb) _ _,
      fun b x hb => ?_, fun k' f' t' b hb => ?_, ?_, fun w => ?_, ?_⟩
    · exact (withBDD_bdd_old (h.next_none (by rw [hb]; exact Option.some_ne_none x))).trans hb
    · refine (Table.insert3_apply ..).trans ((if_neg ?_).trans hb)
      rintro ⟨rfl, rfl, rfl⟩
      rw [htab] at hb
      cases hb
    · rw [withBDD_bdd_new]
      exact Option.some_ne_none _
    · have hold : ∀ b, s.bdd b ≠ none →
          (Holds (s.withBDD k t f).bdd w b ↔ Holds s.bdd w b) := fun b hb =>
        holds_of_extends h.closed (fun b x hb =>
          (withBDD_bdd_old (h.next_none (by rw [hb]; exact Option.some_ne_none x))).trans hb) hb
      rw [holds_branch withBDD_bdd_new, hold t ht, hold f hf]
    · rw [Function.update_self]

theorem withReplaced_bdd {b k t f b' : ℕ} {x : Node ℕ ℕ}
    (h : (s.withReplaced b k t f).bdd b' = some x) :
    (b' = b ∧ x = .branch k t f) ∨ (b' ≠ b ∧ s.bdd b' = some x) := by
  by_cases hb : b' = b
  · subst hb
    rw [show (s.withReplaced b' k t f).bdd b' = some (.branch k t f) from
      Function.update_self _ _ _] at h
    exact Or.inl ⟨rfl, (Option.some.inj h).symm⟩
  · exact Or.inr ⟨hb, (Function.update_of_ne hb _ _).symm.trans h⟩

theorem withReplaced_self {b k t f : ℕ} :
    (s.withReplaced b k t f).bdd b = some (.branch k t f) := Function.update_self _ _ _

theorem withReplaced_of_ne {b b' k t f : ℕ} (h : b' ≠ b) :
    (s.withReplaced b k t f).bdd b' = s.bdd b' := Function.update_of_ne h _ _

section Replace

variable {b t f nt nf : ℕ} (h : Swapping s0 s k n erase W)
  (hb : s.bdd b = some (.branch k t f)) (hnt : s.bdd nt ≠ none) (hnf : s.bdd nf ≠ none)
  (hW : W nt < W b ∧ W nf < W b)

include hb in
theorem withReplaced_valid {b' : ℕ} (hb' : s.bdd b' ≠ none) :
    (s.withReplaced b n nt nf).bdd b' ≠ none := by
  by_cases he : b' = b
  · subst he
    rw [withReplaced_self]
    exact Option.some_ne_none _
  · rw [withReplaced_of_ne he]
    exact hb'

include h hW in
theorem Swapping.replace_child (b' k' hi lo : ℕ)
    (hb' : (s.withReplaced b n nt nf).bdd b' = some (.branch k' hi lo)) :
    W hi < W b' ∧ W lo < W b' := by
  rcases withReplaced_bdd hb' with ⟨rfl, hx⟩ | ⟨-, hb'⟩
  · cases hx
    exact hW
  · exact h.child b' k' hi lo hb'

include h hb hnt hnf in
theorem Swapping.replace_closed : Closed (s.withReplaced b n nt nf).bdd := by
  intro b' k' hi lo hb'
  rcases withReplaced_bdd hb' with ⟨-, hx⟩ | ⟨-, hb'⟩
  · cases hx
    exact ⟨withReplaced_valid hb hnt, withReplaced_valid hb hnf⟩
  · obtain ⟨hhi, hlo⟩ := h.closed b' k' hi lo hb'
    exact ⟨withReplaced_valid hb hhi, withReplaced_valid hb hlo⟩

include h hb hnt hnf hW in
theorem Swapping.replace_holds (hw : ∀ w, Holds s.bdd w b ↔
      Choice (w n) (Holds s.bdd w nt) (Holds s.bdd w nf)) {b' : ℕ} (hb' : s.bdd b' ≠ none)
    (w : ℕ → Prop) : Holds (s.withReplaced b n nt nf).bdd w b' ↔ Holds s.bdd w b' := by
  refine holds_of_equations (acyclic_of_weight (h.replace_child hW))
    (h.replace_closed hb hnt hnf) (fun x v hx => ?_) (fun x k' hi lo hx => ?_)
    (withReplaced_valid hb hb')
  · rcases withReplaced_bdd hx with ⟨-, hx⟩ | ⟨-, hx⟩
    · cases hx
    · exact holds_leaf hx
  · rcases withReplaced_bdd hx with ⟨rfl, hy⟩ | ⟨-, hy⟩
    · cases hy
      exact hw w
    · exact holds_branch hy

include h hb hnt hnf hW in
theorem Swapping.replace (hnk : n ≠ k) (hn : ∃ o, s0.order n = some o ∧ o.category ≠ .trueFalse)
    (hw : ∀ w, Holds s.bdd w b ↔ Choice (w n) (Holds s.bdd w nt) (Holds s.bdd w nf)) :
    Swapping s0 (s.withReplaced b n nt nf) k n ((f, t) :: erase) W := by
  have hholds : ∀ {b'}, s.bdd b' ≠ none → ∀ w,
      Holds (s.withReplaced b n nt nf).bdd w b' ↔ Holds s.bdd w b' :=
    h.replace_holds hb hnt hnf hW hw
  have hvalid : ∀ {b'}, s.bdd b' ≠ none → (s.withReplaced b n nt nf).bdd b' ≠ none :=
    withReplaced_valid hb
  have htable : ∀ {f' t' m}, (s.withReplaced b n nt nf).bddtable k f' t' = some m →
      s.bddtable k f' t' = some m := by
    intro f' t' m hm
    rcases Table.of_insert3 hm with ⟨hkn, -⟩ | hm
    · exact absurd hkn.symm hnk
    · exact hm
  exact {
    frame := congrArg (fun s => FOBDDManager.withReplaced s b n nt nf) h.frame
    leaves := fun b' v => by
      rw [← h.leaves]
      constructor
      · intro hb'
        rcases withReplaced_bdd hb' with ⟨-, hx⟩ | ⟨-, hb'⟩
        · cases hx
        · exact hb'
      · intro hb'
        rw [withReplaced_of_ne]
        · exact hb'
        · rintro rfl
          rw [hb] at hb'
          cases hb'
    closed := h.replace_closed hb hnt hnf
    freshbdd := fun b' hb' => by
      have hnone := h.freshbdd b' hb'
      rw [withReplaced_of_ne]
      · exact hnone
      · rintro rfl
        rw [hb] at hnone
        cases hnone
    labelled := fun b' k' hi lo hb' => by
      rcases withReplaced_bdd hb' with ⟨-, hx⟩ | ⟨-, hb'⟩
      · cases hx
        exact hn
      · exact h.labelled b' k' hi lo hb'
    valid := fun b' hb' => hvalid (h.valid b' hb')
    holds := fun b' hb' w => (hholds (h.valid b' hb') w).trans (h.holds b' hb' w)
    bddtable := fun k' f' t' m hm => by
      rcases Table.of_insert3 hm with ⟨rfl, rfl, rfl, rfl⟩ | hm
      · exact Or.inl withReplaced_self
      · rcases h.bddtable k' f' t' m hm with hx | ⟨rfl, hx⟩
        · by_cases hmb : m = b
          · subst hmb
            rw [hb] at hx
            cases hx
            exact Or.inr ⟨rfl, List.mem_cons_self⟩
          · exact Or.inl ((withReplaced_of_ne hmb).trans hx)
        · exact Or.inr ⟨rfl, List.mem_cons_of_mem _ hx⟩
    entries := fun f' t' m hm => by
      obtain ⟨hmv, ht, hf, hw'⟩ := h.entries f' t' m (htable hm)
      exact ⟨hvalid hmv, hvalid ht, hvalid hf, fun w => by
        rw [hholds hmv, hholds ht, hholds hf, hw']⟩
    child := h.replace_child hW
    large := fun b' hi lo hb' => by
      rcases withReplaced_bdd hb' with ⟨-, hx⟩ | ⟨-, hb'⟩
      · cases hx
        exact absurd rfl hnk
      · exact h.large b' hi lo hb'
    small := fun f' t' m hm => h.small f' t' m (htable hm) }

end Replace

section Splits

variable {b b1 b0 : ℕ}

theorem Splits.holds (h : s.Splits n b b1 b0) (w : ℕ → Prop) :
    Holds s.bdd w b ↔ Choice (w n) (Holds s.bdd w b1) (Holds s.bdd w b0) := by
  rcases h with hb | ⟨-, rfl, rfl⟩
  · exact holds_branch hb
  · exact (choice_self _ _).symm

theorem Splits.valid (h : s.Splits n b b1 b0) (hc : Closed s.bdd) (hb : s.bdd b ≠ none) :
    s.bdd b1 ≠ none ∧ s.bdd b0 ≠ none := by
  rcases h with hn | ⟨-, rfl, rfl⟩
  · exact hc b n b1 b0 hn
  · exact ⟨hb, hb⟩

theorem Splits.le (h : s.Splits n b b1 b0) (hs : Swapping s0 s k n erase W) :
    W b1 ≤ W b ∧ W b0 ≤ W b := by
  rcases h with hn | ⟨-, rfl, rfl⟩
  · exact ⟨(hs.child b n b1 b0 hn).1.le, (hs.child b n b1 b0 hn).2.le⟩
  · exact ⟨le_rfl, le_rfl⟩

theorem Splits.lt (h : s.Splits n b b1 b0) (hs : Swapping s0 s k n erase W) (hr : s.Root n b) :
    W b1 < W b ∧ W b0 < W b := by
  rcases h with hn | ⟨hnr, -⟩
  · exact hs.child b n b1 b0 hn
  · exact absurd hr hnr

end Splits

theorem choice_swap (x y p q p' q' : Prop) :
    Choice x (Choice y p q) (Choice y p' q') ↔ Choice y (Choice x p p') (Choice x q q') := by
  unfold Choice
  tauto

section Rebuild

variable {b t f t1 t0 f1 f0 : ℕ} {u : Unit}

-- the two lookups of rebuild, with what is known before b is rewritten
structure Rebuilds (s0 s s' : FOBDDManager A S) (k n : ℕ) (erase : List (ℕ × ℕ))
    (b t f t1 t0 f1 f0 newfalse newtrue : ℕ) (s1 s2 : FOBDDManager A S) (W1 W2 : ℕ → ℕ) :
    Prop where
  lookupfalse : (FOBDDManager.getBDD k t0 f0).run s = some (newfalse, s1)
  lookuptrue : (FOBDDManager.getBDD k t1 f1).run s1 = some (newtrue, s2)
  replaced : s' = s2.withReplaced b n newtrue newfalse
  first : Swapping s0 s1 k n erase W1
  second : Swapping s0 s2 k n erase W2
  bdd : ∀ b x, s1.bdd b = some x → s2.bdd b = some x
  node : s2.bdd b = some (.branch k t f)
  validtrue : s2.bdd newtrue ≠ none
  validfalse : s2.bdd newfalse ≠ none
  heights : W2 newtrue < W2 b ∧ W2 newfalse < W2 b
  holds : ∀ w, Holds s2.bdd w b ↔
    Choice (w n) (Holds s2.bdd w newtrue) (Holds s2.bdd w newfalse)

theorem valid_of_bdd {s2 : FOBDDManager A S} (he : ∀ b x, s1.bdd b = some x → s2.bdd b = some x)
    {b : ℕ} (hb : s1.bdd b ≠ none) : s2.bdd b ≠ none := by
  obtain ⟨x, hx⟩ := Option.ne_none_iff_exists'.mp hb
  rw [he b x hx]
  exact Option.some_ne_none x

theorem Swapping.rebuilds (h : Swapping s0 s k n erase W)
    (hk : ∃ o, s0.order k = some o ∧ o.category ≠ .trueFalse) (h1 : k ≠ truekernel)
    (h2 : k ≠ falsekernel) (hb : s.bdd b = some (.branch k t f)) (ht : s.Splits n t t1 t0)
    (hf : s.Splits n f f1 f0) (hroot : s.Root n f ∨ s.Root n t)
    (hr : (FOBDDManager.rebuild k n b t0 f0 t1 f1).run s = some (u, s')) :
    ∃ newfalse newtrue s1 s2 W1 W2,
      Rebuilds s0 s s' k n erase b t f t1 t0 f1 f0 newfalse newtrue s1 s2 W1 W2 := by
  obtain ⟨newfalse, s1, newtrue, s2, hrf, hrt, hs'⟩ := rebuild_eq_some hr
  obtain ⟨htv, hfv⟩ := h.closed b k t f hb
  obtain ⟨ht1, ht0⟩ := ht.valid h.closed htv
  obtain ⟨hf1, hf0⟩ := hf.valid h.closed hfv
  have hbv : s.bdd b ≠ none := by rw [hb]; exact Option.some_ne_none _
  obtain ⟨W1, hs1, hl1⟩ := h.getBDD hk h1 h2 ht0 hf0 hrf
  obtain ⟨W2, hs2, hl2⟩ := hs1.getBDD hk h1 h2 (valid_of_bdd hl1.bdd ht1)
    (valid_of_bdd hl1.bdd hf1) hrt
  have hkeep : ∀ {b}, s.bdd b ≠ none → ∀ w, Holds s1.bdd w b ↔ Holds s.bdd w b :=
    fun hb w => holds_of_extends h.closed hl1.bdd hb
  have hkeep' : ∀ {b}, s1.bdd b ≠ none → ∀ w, Holds s2.bdd w b ↔ Holds s1.bdd w b :=
    fun hb w => holds_of_extends hs1.closed hl2.bdd hb
  have hWb : W2 b = W b :=
    (hl2.heights b (valid_of_bdd hl1.bdd hbv)).trans (hl1.heights b hbv)
  have hsum := h.large b t f hb
  have hle : W t1 + W f1 + 1 ≤ W t + W f ∧ W t0 + W f0 + 1 ≤ W t + W f := by
    have htle := ht.le h
    have hfle := hf.le h
    rcases hroot with hr | hr
    · have := hf.lt h hr
      omega
    · have := ht.lt h hr
      omega
  have hWt : W2 newtrue < W2 b := by
    have h3 := hl2.small
    rw [hl1.heights t1 ht1, hl1.heights f1 hf1] at h3
    rw [hWb]
    omega
  have hWf : W2 newfalse < W2 b := by
    have h3 := hl1.small
    rw [hl2.heights newfalse hl1.valid, hWb]
    omega
  have hholds : ∀ w, Holds s2.bdd w b ↔
      Choice (w n) (Holds s2.bdd w newtrue) (Holds s2.bdd w newfalse) := fun w =>
    calc Holds s2.bdd w b
        ↔ Holds s.bdd w b := (hkeep' (valid_of_bdd hl1.bdd hbv) w).trans (hkeep hbv w)
      _ ↔ Choice (w k) (Holds s.bdd w t) (Holds s.bdd w f) := holds_branch hb
      _ ↔ Choice (w k) (Choice (w n) (Holds s.bdd w t1) (Holds s.bdd w t0))
            (Choice (w n) (Holds s.bdd w f1) (Holds s.bdd w f0)) :=
          choice_congr (ht.holds w) (hf.holds w)
      _ ↔ Choice (w n) (Choice (w k) (Holds s.bdd w t1) (Holds s.bdd w f1))
            (Choice (w k) (Holds s.bdd w t0) (Holds s.bdd w f0)) := choice_swap _ _ _ _ _ _
      _ ↔ Choice (w n) (Holds s2.bdd w newtrue) (Holds s2.bdd w newfalse) := by
          refine (choice_congr ?_ ?_).symm
          · rw [hl2.holds]
            exact choice_congr (hkeep ht1 w) (hkeep hf1 w)
          · rw [hkeep' hl1.valid, hl1.holds]
  exact ⟨newfalse, newtrue, s1, s2, W1, W2, hrf, hrt, hs', hs1, hs2, hl2.bdd,
    hl2.bdd b _ (hl1.bdd b _ hb), hl2.valid, valid_of_bdd hl2.bdd hl1.valid, ⟨hWt, hWf⟩, hholds⟩

theorem Rebuilds.swapping {newfalse newtrue : ℕ} {s1 s2 : FOBDDManager A S} {W1 W2 : ℕ → ℕ}
    (h : Rebuilds s0 s s' k n erase b t f t1 t0 f1 f0 newfalse newtrue s1 s2 W1 W2) (hnk : n ≠ k)
    (hn : ∃ o, s0.order n = some o ∧ o.category ≠ .trueFalse) :
    Swapping s0 s' k n ((f, t) :: erase) W2 := by
  rw [h.replaced]
  exact h.second.replace h.node h.validtrue h.validfalse h.heights hnk hn h.holds

end Rebuild

end Meaning

end FOBDDManager

end FoBdd
