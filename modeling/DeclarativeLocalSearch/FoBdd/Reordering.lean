import DeclarativeLocalSearch.FoBdd.SwapOrder
import DeclarativeLocalSearch.FoBdd.Relational
import DeclarativeLocalSearch.FoBdd.Within

namespace FoBdd

open DecisionDiagram Relation

variable {A S : Type}

namespace FOBDDManager

variable {c : Prop} {s s' s0 s1 : FOBDDManager A S} {k n : ℕ}

section Cleared

def cleared (s : FOBDDManager A S) : FOBDDManager A S :=
  { s with
    negationtable := fun _ => none
    conjunctiontable := fun _ _ => none
    disjunctiontable := fun _ _ => none
    ifthenelsetable := fun _ _ _ => none
    quanttable := fun _ _ => none }

theorem Inv.cleared (h : Inv c s) : Inv c s.cleared :=
  { h with
    negations := by rintro _ _ ⟨⟩
    conjunctions := by rintro _ _ _ ⟨⟩
    disjunctions := by rintro _ _ _ ⟨⟩
    ifthenelses := by rintro _ _ _ _ ⟨⟩
    quantifieds := by rintro _ _ _ ⟨⟩
    sorted := fun hc => ⟨(h.sorted hc).ordered, (h.sorted hc).reduced, (h.sorted hc).hashed⟩ }

theorem clearDynamicTables_eq_some {u : Unit}
    (hr : (clearDynamicTables : Op A S Unit).run s = some (u, s')) : s' = s.cleared :=
  (Op.modify_eq_some.mp hr).symm

theorem kernelBelow_eq_some {r : Option ℕ} (hr : (kernelBelow k).run s = some (r, s')) :
    s' = s ∧ ∀ n, r = some n → ∃ c m, c ≠ .trueFalse ∧ s.order k = some ⟨c, m + 1⟩ ∧
      s.kernels c m = some n := by
  obtain ⟨⟨cat, m⟩, s1, hget, hr⟩ := Op.bind_eq_some.mp hr
  obtain ⟨ho, rfl⟩ := getOrder_eq_some.mp hget
  split_ifs at hr with hc
  · obtain ⟨rfl, rfl⟩ := Op.pure_eq_some.mp hr
    exact ⟨rfl, by rintro n ⟨⟩⟩
  · rw [Op.get_bind] at hr
    obtain ⟨rfl, rfl⟩ := Op.pure_eq_some.mp hr
    obtain ⟨hcat, hm⟩ := not_or.mp hc
    obtain ⟨m, rfl⟩ := Nat.exists_eq_succ_of_ne_zero hm
    exact ⟨rfl, fun n hn => ⟨cat, m, hcat, ho, hn⟩⟩

theorem kernelAbove_eq_some {r : Option ℕ} (hr : (kernelAbove k).run s = some (r, s')) :
    s' = s ∧ ∀ n, r = some n → ∃ c m, c ≠ .trueFalse ∧ s.order k = some ⟨c, m⟩ ∧
      s.kernels c (m + 1) = some n := by
  obtain ⟨⟨cat, m⟩, s1, hget, hr⟩ := Op.bind_eq_some.mp hr
  obtain ⟨ho, rfl⟩ := getOrder_eq_some.mp hget
  split_ifs at hr with hc
  · obtain ⟨rfl, rfl⟩ := Op.pure_eq_some.mp hr
    exact ⟨rfl, by rintro n ⟨⟩⟩
  · rw [Op.get_bind] at hr
    obtain ⟨rfl, rfl⟩ := Op.pure_eq_some.mp hr
    exact ⟨rfl, fun n hn => ⟨cat, m, hc, ho, hn⟩⟩

theorem Inv.adjacent (h : Inv c s) {cat : KernelOrderCategory} {m : ℕ}
    (hk : s.order k = some ⟨cat, m + 1⟩) (hn : s.order n = some ⟨cat, m⟩) : Adjacent s k n where
  lt := ⟨_, _, hk, hn, KernelOrder.less_succ cat m⟩
  below := by
    rintro x ⟨o, o', ho, ho', hlt⟩
    rw [hk] at ho
    cases ho
    rcases KernelOrder.less_of_less_succ hlt with rfl | hlt
    · exact Or.inl (h.injective _ _ _ ho' hn)
    · exact Or.inr ⟨_, _, hn, ho', hlt⟩
  above := by
    rintro x ⟨o, o', ho, ho', hlt⟩
    rw [hn] at ho'
    cases ho'
    rcases KernelOrder.less_succ_of_less hlt with rfl | hlt
    · exact Or.inl (h.injective _ _ _ ho hk)
    · exact Or.inr ⟨_, _, ho, hk, hlt⟩

end Cleared

section Finish

def erased (s : FOBDDManager A S) (k : ℕ) (erase : List (ℕ × ℕ)) : FOBDDManager A S :=
  { s with bddtable := fun k' f t => if k' = k ∧ (f, t) ∈ erase then none else s.bddtable k' f t }

theorem eraseEntries_eq_some {erase : List (ℕ × ℕ)} {u : Unit}
    (hr : (eraseEntries k erase).run s = some (u, s')) : s' = s.erased k erase := by
  induction erase generalizing s with
  | nil =>
    obtain ⟨-, rfl⟩ := Op.pure_eq_some.mp hr
    simp [erased]
  | cons x erase ih =>
    obtain ⟨f, t⟩ := x
    obtain ⟨u', s1, h1, hr⟩ := Op.bind_eq_some.mp hr
    obtain rfl := Op.modify_eq_some.mp h1
    rw [ih hr, erased, erased]
    congr 1
    funext k' f' t'
    simp only [Table.erase3_apply, List.mem_cons, Prod.mk.injEq]
    split_ifs <;> first | rfl | tauto

def renumbered (s : FOBDDManager A S) (k n : ℕ) (cat : KernelOrderCategory) (m : ℕ) :
    FOBDDManager A S :=
  { s with
    order := Function.update (Function.update s.order n (some ⟨cat, m + 1⟩)) k (some ⟨cat, m⟩)
    kernels := Table.insert2 (Table.insert2 s.kernels cat (m + 1) n) cat m k }

variable {erase visited : List (ℕ × ℕ)} {W : ℕ → ℕ} {cat : KernelOrderCategory} {m : ℕ}

theorem renumbered_order (hk : s.order k = some ⟨cat, m + 1⟩) (hn : s.order n = some ⟨cat, m⟩)
    (x : ℕ) : (s.renumbered k n cat m).order x = s.order (Equiv.swap k n x) := by
  have hkn : k ≠ n := by
    rintro rfl
    rw [hk] at hn
    simp at hn
  simp only [renumbered, Function.update_apply, Equiv.swap_apply_def]
  split_ifs with h1 h2
  · exact hn.symm
  · exact hk.symm
  · rfl

def finished (s : FOBDDManager A S) (k n : ℕ) (erase : List (ℕ × ℕ)) (cat : KernelOrderCategory)
    (m : ℕ) : FOBDDManager A S :=
  (s.erased k erase).renumbered k n cat m

variable (h : Swapping s0 s k n erase W) (hinv : Inv c s0)
  (hk : s0.order k = some ⟨cat, m + 1⟩) (hn : s0.order n = some ⟨cat, m⟩)

include h hk hn in
theorem finished_order (x : ℕ) :
    (s.finished k n erase cat m).order x = s0.order (Equiv.swap k n x) := by
  have ho : s.order = s0.order := by rw [h.frame]
  have hk' : (s.erased k erase).order k = some ⟨cat, m + 1⟩ := (congrFun ho k).trans hk
  have hn' : (s.erased k erase).order n = some ⟨cat, m⟩ := (congrFun ho n).trans hn
  exact (renumbered_order hk' hn' x).trans (congrFun ho _)

include h hk hn in
theorem finished_lt (x y : ℕ) : (s.finished k n erase cat m).lt x y ↔
    s0.lt (Equiv.swap k n x) (Equiv.swap k n y) := by
  simp only [lt, finished_order h hk hn]

theorem finished_bddtable {k' f t b : ℕ}
    (hb : (s.finished k n erase cat m).bddtable k' f t = some b) :
    s.bddtable k' f t = some b ∧ ¬ (k' = k ∧ (f, t) ∈ erase) := by
  have hb : (if k' = k ∧ (f, t) ∈ erase then none else s.bddtable k' f t) = some b := hb
  split_ifs at hb with he
  exact ⟨hb, he⟩

include h hk hn in
theorem finished_category {x : ℕ} {o : KernelOrder} (hx : s0.order x = some o) :
    ∃ o', (s.finished k n erase cat m).order x = some o' ∧ o'.category = o.category := by
  rw [finished_order h hk hn, Equiv.swap_apply_def]
  split_ifs with h1 h2
  · subst h1
    rw [hk] at hx
    cases hx
    exact ⟨_, hn, rfl⟩
  · subst h2
    rw [hn] at hx
    cases hx
    exact ⟨_, hk, rfl⟩
  · exact ⟨o, hx, rfl⟩

include h hinv hk hn in
theorem finished_kernels (hcat : cat ≠ .trueFalse) (cat' : KernelOrderCategory) (j x : ℕ) :
    (s.finished k n erase cat m).kernels cat' j = some x ↔
      (s.finished k n erase cat m).order x = some ⟨cat', j⟩ ∧ cat' ≠ .trueFalse := by
  have hkern : (s.finished k n erase cat m).kernels cat' j =
      if cat' = cat ∧ j = m then some k else
        if cat' = cat ∧ j = m + 1 then some n else s0.kernels cat' j := by
    have hs : s.kernels = s0.kernels := by rw [h.frame]
    have : (s.finished k n erase cat m).kernels =
        Table.insert2 (Table.insert2 s.kernels cat (m + 1) n) cat m k := rfl
    rw [this, Table.insert2_apply, Table.insert2_apply, hs]
  rw [hkern, finished_order h hk hn]
  split_ifs with h1 h2
  · obtain ⟨rfl, rfl⟩ := h1
    constructor
    · rintro ⟨⟩
      rw [Equiv.swap_apply_left]
      exact ⟨hn, hcat⟩
    · rintro ⟨hx, -⟩
      rw [Equiv.swap_apply_eq_iff.mp (hinv.injective _ _ _ hx hn), Equiv.swap_apply_right]
  · obtain ⟨rfl, rfl⟩ := h2
    constructor
    · rintro ⟨⟩
      rw [Equiv.swap_apply_right]
      exact ⟨hk, hcat⟩
    · rintro ⟨hx, -⟩
      rw [Equiv.swap_apply_eq_iff.mp (hinv.injective _ _ _ hx hk), Equiv.swap_apply_left]
  · rw [hinv.kernels]
    have hne : ∀ y, s0.order y = some ⟨cat', j⟩ → y ≠ k ∧ y ≠ n := by
      rintro y hy
      constructor
      · rintro rfl
        rw [hk] at hy
        cases hy
        exact h2 ⟨rfl, rfl⟩
      · rintro rfl
        rw [hn] at hy
        cases hy
        exact h1 ⟨rfl, rfl⟩
    constructor
    · rintro ⟨hx, hc⟩
      obtain ⟨hxk, hxn⟩ := hne x hx
      rw [Equiv.swap_apply_of_ne_of_ne hxk hxn]
      exact ⟨hx, hc⟩
    · rintro ⟨hx, hc⟩
      obtain ⟨hxk, hxn⟩ := hne _ hx
      have : Equiv.swap k n x = x := by
        rw [← Equiv.swap_apply_of_ne_of_ne hxk hxn, Equiv.swap_apply_self]
      exact ⟨this ▸ hx, hc⟩

include h in
theorem finished_holds {b : ℕ} (hb : s0.bdd b ≠ none) (w : ℕ → Prop) :
    Holds (s.finished k n erase cat m).bdd w b ↔ Holds s0.bdd w b :=
  h.holds b hb w

include h hinv hk hn in
theorem finished_inv (hcat : cat ≠ .trueFalse)
    (hsorted : c → (s.finished k n erase cat m).Sorted) :
    Inv c (s.finished k n erase cat m) := by
  have hcontent : s.content = s0.content := by rw [h.frame]
  have hnextkernel : s.nextkernel = s0.nextkernel := by rw [h.frame]
  have hnextorder : s.nextorder = s0.nextorder := by rw [h.frame]
  have hkerneltable : s.kerneltable = s0.kerneltable := by rw [h.frame]
  have hnegation : s.negationtable = s0.negationtable := by rw [h.frame]
  have hconjunction : s.conjunctiontable = s0.conjunctiontable := by rw [h.frame]
  have hdisjunction : s.disjunctiontable = s0.disjunctiontable := by rw [h.frame]
  have hifthenelse : s.ifthenelsetable = s0.ifthenelsetable := by rw [h.frame]
  have hquant : s.quanttable = s0.quanttable := by rw [h.frame]
  have hfix : ∀ {x o}, s0.order x = some o → o.category = .trueFalse → Equiv.swap k n x = x := by
    intro x o hx ho
    refine Equiv.swap_apply_of_ne_of_ne ?_ ?_
    · rintro rfl
      rw [hk] at hx
      cases hx
      exact hcat ho
    · rintro rfl
      rw [hn] at hx
      cases hx
      exact hcat ho
  exact {
    leafTrue := (h.leaves _ _).mpr hinv.leafTrue
    leafFalse := (h.leaves _ _).mpr hinv.leafFalse
    leaves := fun b v hb => hinv.leaves b v ((h.leaves b v).mp hb)
    closed := h.closed
    acyclic := h.acyclic
    freshbdd := h.freshbdd
    freshkernel := fun x hx => by
      obtain ⟨ho, hc⟩ := hinv.freshkernel x (hnextkernel ▸ hx)
      refine ⟨?_, (congrFun hcontent x).trans hc⟩
      rw [finished_order h hk hn, Equiv.swap_apply_of_ne_of_ne]
      · exact ho
      · rintro rfl
        rw [hk] at ho
        cases ho
      · rintro rfl
        rw [hn] at ho
        cases ho
    constants := by
      rw [finished_order h hk hn, finished_order h hk hn, hfix hinv.constants.1 rfl,
        hfix hinv.constants.2 rfl]
      exact hinv.constants
    constant := fun x o hx ho => by
      rw [finished_order h hk hn] at hx
      have := hfix hx ho
      rw [Equiv.swap_apply_self] at this
      rw [← this] at hx
      exact hinv.constant x o hx ho
    labelled := fun b x hi lo hb => by
      obtain ⟨o, ho, hc⟩ := h.labelled b x hi lo hb
      obtain ⟨o', ho', hc'⟩ := finished_category h hk hn ho
      exact ⟨o', ho', hc' ▸ hc⟩
    injective := fun x y o hx hy => by
      rw [finished_order h hk hn] at hx hy
      exact (Equiv.swap k n).injective (hinv.injective _ _ o hx hy)
    kernels := finished_kernels h hinv hk hn hcat
    numbers := fun x o hx => by
      rw [finished_order h hk hn] at hx
      exact (hinv.numbers _ o hx).trans_eq (congrFun hnextorder _).symm
    quants := fun x sort b hx => h.valid b (hinv.quants x sort b ((congrFun hcontent x).symm.trans hx))
    atoms := fun x terms sets hx b hb =>
      h.valid b (hinv.atoms x terms sets ((congrFun hcontent x).symm.trans hx) b hb)
    aggs := fun x left right sets hx b hb =>
      h.valid b (hinv.aggs x left right sets ((congrFun hcontent x).symm.trans hx) b hb)
    kerneltable := fun y x hx => by
      obtain ⟨hy, ho⟩ := hinv.kerneltable y x ((congrFun hkerneltable y).symm.trans hx)
      obtain ⟨o, ho⟩ := Option.ne_none_iff_exists'.mp ho
      obtain ⟨o', ho', -⟩ := finished_category h hk hn ho
      exact ⟨(congrFun hcontent x).trans hy, by rw [ho']; exact Option.some_ne_none o'⟩
    bddtable := fun x f t b hb => by
      obtain ⟨hb, hne⟩ := finished_bddtable hb
      exact (h.bddtable x f t b hb).resolve_right hne
    negations := fun b r hr => by
      obtain ⟨hb, hr, hw⟩ := hinv.negations b r ((congrFun hnegation b).symm.trans hr)
      exact ⟨h.valid b hb, h.valid r hr, fun w => by
        rw [finished_holds h hr, finished_holds h hb, hw]⟩
    conjunctions := fun b b' r hr => by
      obtain ⟨hb, hb', hr, hw⟩ :=
        hinv.conjunctions b b' r ((congrFun (congrFun hconjunction b) b').symm.trans hr)
      exact ⟨h.valid b hb, h.valid b' hb', h.valid r hr, fun w => by
        rw [finished_holds h hr, finished_holds h hb, finished_holds h hb', hw]⟩
    disjunctions := fun b b' r hr => by
      obtain ⟨hb, hb', hr, hw⟩ :=
        hinv.disjunctions b b' r ((congrFun (congrFun hdisjunction b) b').symm.trans hr)
      exact ⟨h.valid b hb, h.valid b' hb', h.valid r hr, fun w => by
        rw [finished_holds h hr, finished_holds h hb, finished_holds h hb', hw]⟩
    ifthenelses := fun x t f r hr => by
      obtain ⟨ht, hf, hr, hw⟩ := hinv.ifthenelses x t f r
        ((congrFun (congrFun (congrFun hifthenelse x) t) f).symm.trans hr)
      exact ⟨h.valid t ht, h.valid f hf, h.valid r hr, fun w => by
        rw [finished_holds h hr, finished_holds h ht, finished_holds h hf, hw]⟩
    quantifieds := fun sort b r hr => by
      obtain ⟨hb, hr⟩ :=
        hinv.quantifieds sort b r ((congrFun (congrFun hquant sort) b).symm.trans hr)
      exact ⟨h.valid b hb, h.valid r hr⟩
    sorted := hsorted }

section Sorted

variable (ha : Adjacent s0 k n)

include h hk hn in
theorem finished_lt_lower {x : ℕ} (hkx : s0.lt k x) (hnx : s0.lt n x) :
    (s.finished k n erase cat m).lt n x ∧ (s.finished k n erase cat m).lt k x := by
  have hxk : x ≠ k := by
    rintro rfl
    exact irrefl_of s0.lt x hkx
  have hxn : x ≠ n := by
    rintro rfl
    exact irrefl_of s0.lt x hnx
  rw [finished_lt h hk hn, finished_lt h hk hn, Equiv.swap_apply_left, Equiv.swap_apply_right,
    Equiv.swap_apply_of_ne_of_ne hxk hxn]
  exact ⟨hkx, hnx⟩

include h hk hn ha in
theorem finished_lt_upper {x y : ℕ} (hxk : x ≠ k) (hxn : x ≠ n) (hxy : s0.lt x y) :
    (s.finished k n erase cat m).lt x y := by
  rw [finished_lt h hk hn, Equiv.swap_apply_of_ne_of_ne hxk hxn, Equiv.swap_apply_def]
  split_ifs with h1 h2
  · exact trans_of s0.lt (h1 ▸ hxy) ha.lt
  · exact (ha.above x (h2 ▸ hxy)).resolve_left hxk
  · exact hxy

variable (hs : SwappingSorted s0 s k n erase visited)

include h hk hn ha hs in
theorem Below.finished {x : ℕ} (hx : Below s0 n x) :
    Above (s.finished k n erase cat m).lt s.bdd n x ∧
      Above (s.finished k n erase cat m).lt s.bdd k x := by
  have hold := hs.old h hx.1 (hx.2.trans ha.lt)
  have hlt : ∀ k' hi lo, s.bdd x = some (.branch k' hi lo) → s0.lt k k' ∧ s0.lt n k' := by
    intro k' hi lo hb
    have hnk := hx.2 k' hi lo (hold.symm.trans hb)
    exact ⟨trans_of s0.lt ha.lt hnk, hnk⟩
  exact ⟨fun k' hi lo hb =>
      (finished_lt_lower h hk hn (hlt k' hi lo hb).1 (hlt k' hi lo hb).2).1,
    fun k' hi lo hb => (finished_lt_lower h hk hn (hlt k' hi lo hb).1 (hlt k' hi lo hb).2).2⟩

include h hk hn ha hs in
theorem Placed.finished {x : ℕ} (hx : Placed s0 s k n x) :
    Above (s.finished k n erase cat m).lt s.bdd n x := by
  rcases hx with hx | ⟨t, f, hb, -, -⟩
  · exact (hx.finished h hk hn ha hs).1
  · refine above_of_branch hb ?_
    rw [finished_lt h hk hn, Equiv.swap_apply_left, Equiv.swap_apply_right]
    exact ha.lt

include h hk hn ha hs in
theorem finished_above {k' x : ℕ} (hkk : k' ≠ k) (hkn : k' ≠ n) (hv : s0.bdd x ≠ none)
    (hx : Above s0.lt s0.bdd k' x) : Above (s.finished k n erase cat m).lt s.bdd k' x := by
  intro j hi lo hb
  cases hs.stage x j hi lo hb with
  | kept h0 => exact finished_lt_upper h hk hn ha hkk hkn (hx j hi lo h0)
  | fresh _ h0 => exact absurd h0 hv
  | rewritten hj h0 =>
    obtain ⟨hi', lo', h0⟩ := h0
    rw [hj]
    exact finished_lt_upper h hk hn ha hkk hkn (trans_of s0.lt (hx k hi' lo' h0) ha.lt)

include h hk hn ha hs in
theorem finished_sorted (hinv : Inv True s0)
    (hv : ∀ f t b, s0.bddtable k f t = some b → (f, t) ∈ visited) :
    (s.finished k n erase cat m).Sorted := by
  -- no node with the kernel k has n below it any more
  have hroots : ∀ b hi lo, s.bdd b = some (.branch k hi lo) → Below s0 n hi ∧ Below s0 n lo := by
    intro b hi lo hb
    cases hs.stage b k hi lo hb with
    | kept h0 hvis =>
      obtain ⟨hhi, hlo⟩ := hinv.closed b k hi lo h0
      obtain ⟨hahi, halo⟩ := (hinv.sorted trivial).ordered b k hi lo h0
      obtain ⟨hrhi, hrlo⟩ := hvis rfl (hv lo hi b ((hinv.sorted trivial).hashed b k hi lo h0))
      exact ⟨below_of_above ha hhi hahi hrhi, below_of_above ha hlo halo hrlo⟩
    | fresh _ _ hhi hlo => exact ⟨hhi, hlo⟩
    | rewritten hkn => exact absurd (hkn ▸ ha.lt) (irrefl_of s0.lt k)
  refine ⟨fun b k' hi lo hb => ?_, hs.reduced, fun b k' hi lo hb => ?_⟩
  · by_cases hkk : k' = k
    · subst hkk
      obtain ⟨hhi, hlo⟩ := hroots b hi lo hb
      exact ⟨(hhi.finished h hk hn ha hs).2, (hlo.finished h hk hn ha hs).2⟩
    · cases hs.stage b k' hi lo hb with
      | kept h0 =>
        obtain ⟨hhi, hlo⟩ := hinv.closed b k' hi lo h0
        obtain ⟨hahi, halo⟩ := (hinv.sorted trivial).ordered b k' hi lo h0
        by_cases hkn : k' = n
        · subst hkn
          exact ⟨(Below.finished h hk hn ha hs ⟨hhi, hahi⟩).1,
            (Below.finished h hk hn ha hs ⟨hlo, halo⟩).1⟩
        · exact ⟨finished_above h hk hn ha hs hkk hkn hhi hahi,
            finished_above h hk hn ha hs hkk hkn hlo halo⟩
      | fresh hk' => exact absurd hk' hkk
      | rewritten hkn h0 hhi hlo =>
        rw [hkn]
        exact ⟨hhi.finished h hk hn ha hs, hlo.finished h hk hn ha hs⟩
  · have htab : (s.finished k n erase cat m).bddtable k' lo hi =
        if k' = k ∧ (lo, hi) ∈ erase then none else s.bddtable k' lo hi := rfl
    rw [htab, if_neg]
    · exact hs.hashed b k' hi lo hb
    · rintro ⟨rfl, he⟩
      obtain ⟨hhi, hlo⟩ := hroots b hi lo hb
      exact not_or.mpr ⟨hlo.not_root, hhi.not_root⟩ (hs.erased lo hi he)

end Sorted

end Finish

section Move

-- the loop comes to every entry, and to none twice
def Visits (s : FOBDDManager A S) (visit : ℕ → List (ℕ × ℕ)) : Prop :=
  ∀ k, (visit k).Nodup ∧ ∀ f t b, s.bddtable k f t = some b → (f, t) ∈ visit k

structure Moved (c : Prop) (s s' : FOBDDManager A S) : Prop where
  inv : Inv c s'
  holds : ∀ b, s.bdd b ≠ none → s'.bdd b ≠ none ∧ ∀ w, Holds s'.bdd w b ↔ Holds s.bdd w b
  content : s'.content = s.content
  tables : s'.cleared = s'

variable {visit : ℕ → List (ℕ × ℕ)}

theorem moved_cleared (hinv : Inv c s) : Moved c s s.cleared :=
  ⟨hinv.cleared, fun _ hb => ⟨hb, fun _ => Iff.rfl⟩, rfl, rfl⟩

theorem kernelBelow_total (hk : s.order k ≠ none) :
    ∃ r, (kernelBelow k).run s = some (r, s) := by
  obtain ⟨o, ho⟩ := Option.ne_none_iff_exists'.mp hk
  have hget : (getOrder k).run s = some (o, s) := getOrder_eq_some.mpr ⟨ho, rfl⟩
  by_cases hc : o.category = .trueFalse ∨ o.number = 0
  · exact ⟨none, Op.bind_eq_some.mpr ⟨o, s, hget, by rw [if_pos hc]; rfl⟩⟩
  · exact ⟨_, Op.bind_eq_some.mpr ⟨o, s, hget, by rw [if_neg hc]; rfl⟩⟩

theorem kernelAbove_total (hk : s.order k ≠ none) :
    ∃ r, (kernelAbove k).run s = some (r, s) := by
  obtain ⟨o, ho⟩ := Option.ne_none_iff_exists'.mp hk
  have hget : (getOrder k).run s = some (o, s) := getOrder_eq_some.mpr ⟨ho, rfl⟩
  by_cases hc : o.category = .trueFalse
  · exact ⟨none, Op.bind_eq_some.mpr ⟨o, s, hget, by rw [if_pos hc]; rfl⟩⟩
  · exact ⟨_, Op.bind_eq_some.mpr ⟨o, s, hget, by rw [if_neg hc]; rfl⟩⟩

theorem eraseEntries_total (k : ℕ) (erase : List (ℕ × ℕ)) :
    (eraseEntries k erase).run s = some ((), s.erased k erase) := by
  have : ∃ s', (eraseEntries k erase).run s = some ((), s') := by
    induction erase generalizing s with
    | nil => exact ⟨s, rfl⟩
    | cons x erase ih =>
      obtain ⟨s', hs'⟩ := ih
      exact ⟨s', Op.bind_eq_some.mpr ⟨(), _, rfl, hs'⟩⟩
  obtain ⟨s', hs'⟩ := this
  rw [hs', eraseEntries_eq_some hs']

theorem swapNumbers_total {cat : KernelOrderCategory} {m : ℕ}
    (hk : s.order k = some ⟨cat, m + 1⟩) (hn : s.order n = some ⟨cat, m⟩) :
    (swapNumbers k n).run s = some ((), s.renumbered k n cat m) := by
  simp only [swapNumbers, Op.bind_eq_some, getOrder_eq_some]
  exact ⟨_, s, ⟨hk, rfl⟩, _, s, ⟨hn, rfl⟩, rfl⟩

-- the swap of k with n below it, from the first entry to the new numbers
theorem swap_moved {cat : KernelOrderCategory} {m : ℕ} (hinv : Inv c s) (hcat : cat ≠ .trueFalse)
    (hk : s.order k = some ⟨cat, m + 1⟩) (hn : s.order n = some ⟨cat, m⟩) (hv : Visits s visit)
    (hclear : s.cleared = s) :
    ∃ erase s1, (swapEntries k n (visit k)).run s = some (erase, s1) ∧
      SameKernels s s1 ∧ Moved c s (s1.finished k n erase cat m) := by
  obtain ⟨hnodup, hall⟩ := hv k
  have ha := hinv.adjacent hk hn
  have hk' : ∃ o, s.order k = some o ∧ o.category ≠ .trueFalse := ⟨_, hk, hcat⟩
  have hn' : ∃ o, s.order n = some o ∧ o.category ≠ .trueFalse := ⟨_, hn, hcat⟩
  obtain ⟨W, hW⟩ := swapping_refl (k := k) (n := n) hinv
  have hnew : ∀ x ∈ visit k, x ∉ ([] : List (ℕ × ℕ)) := fun _ _ => List.not_mem_nil
  obtain ⟨erase, s1, hrun⟩ := swapEntries_total hinv ha hk' hn' hW hnodup hnew
  obtain ⟨erase', visited, W', h, hs, he, hvis⟩ := swapEntries_swapping hinv ha hk' hn' hW
    (fun hc => swappingSorted_refl (hinv.sorted hc)) hnodup hnew hrun
  have he' : ∀ x, x ∈ erase' → x ∈ erase := fun x hx =>
    ((he x).mp hx).resolve_right List.not_mem_nil
  have h := h.congr he'
  have hs : c → SwappingSorted s s1 k n erase visited := fun hc =>
    { hs hc with erased := fun f t hx => (hs hc).erased f t ((he _).mpr (Or.inl hx)) }
  have hsorted : c → (s1.finished k n erase cat m).Sorted := fun hc =>
    finished_sorted h hk hn ha (hs hc) (hinv.weaken fun _ => hc) fun f t b hb =>
      hvis _ (Or.inl (hall f t b hb))
  have hsame : SameKernels s s1 := by
    rw [h.frame]
    exact ⟨rfl, rfl, rfl, rfl, rfl, rfl, rfl⟩
  refine ⟨erase, s1, hrun, hsame, finished_inv h hinv hk hn hcat hsorted,
    fun b hb => ⟨h.valid b hb, h.holds b hb⟩, ?_, ?_⟩
  · have hcontent : s1.content = s.content := by rw [h.frame]
    exact hcontent
  · rw [h.frame, ← hclear]
    rfl

-- two kernels of one category have changed places in the order
structure Swapped (s s' : FOBDDManager A S) (k n : ℕ) : Prop where
  order : ∀ x, s'.order x = s.order (Equiv.swap k n x)
  nextkernel : s'.nextkernel = s.nextkernel
  nextorder : s'.nextorder = s.nextorder

theorem moveDown_swapped {cat : KernelOrderCategory} {m : ℕ} (hinv : Inv c s) (hcat : cat ≠ .trueFalse)
    (hk : s.order k = some ⟨cat, m + 1⟩) (hn : s.order n = some ⟨cat, m⟩) (hv : Visits s visit) :
    ∃ s', (moveDown visit k).run s = some ((), s') ∧ Moved c s s' ∧ Swapped s s' k n := by
  have hbelow : (kernelBelow k).run s.cleared = some (some n, s.cleared) := by
    refine Op.bind_eq_some.mpr ⟨_, s.cleared, getOrder_eq_some.mpr ⟨hk, rfl⟩, ?_⟩
    rw [if_neg (by simp [hcat]), Op.get_bind]
    exact Op.pure_eq_some.mpr ⟨(hinv.kernels cat m n).mpr ⟨hn, hcat⟩, rfl⟩
  obtain ⟨erase, s1, hrun, hsame, hmoved⟩ := swap_moved hinv.cleared hcat hk hn hv rfl
  have hk1 : (s1.erased k erase).order k = some ⟨cat, m + 1⟩ := (congrFun hsame.order k).trans hk
  have hn1 : (s1.erased k erase).order n = some ⟨cat, m⟩ := (congrFun hsame.order n).trans hn
  refine ⟨s1.finished k n erase cat m, Op.bind_eq_some.mpr ⟨(), s.cleared, rfl,
    Op.bind_eq_some.mpr ⟨some n, s.cleared, hbelow, Op.bind_eq_some.mpr ⟨erase, s1, hrun,
      Op.bind_eq_some.mpr ⟨(), _, eraseEntries_total k erase, swapNumbers_total hk1 hn1⟩⟩⟩⟩,
    ⟨hmoved.inv, hmoved.holds, hmoved.content, hmoved.tables⟩, fun x => ?_, hsame.nextkernel, hsame.nextorder⟩
  exact (renumbered_order hk1 hn1 x).trans (congrFun hsame.order _)

theorem moveDown_moved (hinv : Inv c s) (hk : s.order k ≠ none) (hv : Visits s visit) :
    ∃ s', (moveDown visit k).run s = some ((), s') ∧ Moved c s s' := by
  obtain ⟨r, hr⟩ := kernelBelow_total (s := s.cleared) hk
  obtain ⟨-, hbelow⟩ := kernelBelow_eq_some hr
  cases r with
  | none =>
    exact ⟨s.cleared, Op.bind_eq_some.mpr ⟨(), s.cleared, rfl,
      Op.bind_eq_some.mpr ⟨none, s.cleared, hr, rfl⟩⟩, moved_cleared hinv⟩
  | some n =>
    obtain ⟨cat, m, hcat, hko, hkern⟩ := hbelow n rfl
    obtain ⟨s', hrun, hmoved, -⟩ := moveDown_swapped hinv hcat hko ((hinv.kernels cat m n).mp hkern).1 hv
    exact ⟨s', hrun, hmoved⟩

theorem moveUp_moved (hinv : Inv c s) (hk : s.order k ≠ none) (hv : Visits s visit) :
    ∃ s', (moveUp visit k).run s = some ((), s') ∧ Moved c s s' := by
  obtain ⟨r, hr⟩ := kernelAbove_total (s := s.cleared) hk
  cases r with
  | none =>
    exact ⟨s.cleared, Op.bind_eq_some.mpr ⟨(), s.cleared, rfl,
      Op.bind_eq_some.mpr ⟨none, s.cleared, hr, rfl⟩⟩, moved_cleared hinv⟩
  | some kernelabove =>
    obtain ⟨cat, m, -, -, hkern⟩ := (kernelAbove_eq_some hr).2 kernelabove rfl
    obtain ⟨ho, -⟩ := (hinv.kernels cat (m + 1) kernelabove).mp hkern
    have hko : s.cleared.order kernelabove ≠ none :=
      fun hnone => Option.some_ne_none _ (ho.symm.trans hnone)
    obtain ⟨s', hs', hmoved⟩ := moveDown_moved hinv.cleared hko hv
    exact ⟨s', Op.bind_eq_some.mpr ⟨(), s.cleared, rfl,
      Op.bind_eq_some.mpr ⟨some kernelabove, s.cleared, hr, hs'⟩⟩,
      hmoved.inv, hmoved.holds, hmoved.content, hmoved.tables⟩

end Move

section Tables

structure TablesValid (s : FOBDDManager A S) : Prop where
  bddtable : ∀ k f t b, s.bddtable k f t = some b → s.bdd b = some (.branch k t f)
  negation : ∀ b r, s.negationtable b = some r →
    ∀ w, Holds s.bdd w r ↔ ¬ Holds s.bdd w b
  conjunction : ∀ b b' r, s.conjunctiontable b b' = some r →
    ∀ w, Holds s.bdd w r ↔ Holds s.bdd w b ∧ Holds s.bdd w b'
  disjunction : ∀ b b' r, s.disjunctiontable b b' = some r →
    ∀ w, Holds s.bdd w r ↔ Holds s.bdd w b ∨ Holds s.bdd w b'
  ifthenelse : ∀ k t f r, s.ifthenelsetable k t f = some r →
    ∀ w, Holds s.bdd w r ↔ Choice (truth w k) (Holds s.bdd w t) (Holds s.bdd w f)
  quantify : ∀ sort b r, s.quanttable sort b = some r → ∀ (I : Interpretation A S) v,
    I.Coherent s v → ∀ e, I.meaning s v r e ↔ I.quant sort (I.meaning s v b) e

structure Kept (s s' : FOBDDManager A S) : Prop where
  meaning : ∀ (I : Interpretation A S) v, (I.Coherent s' v ↔ I.Coherent s v) ∧
    ∀ b, s.bdd b ≠ none → s'.bdd b ≠ none ∧ I.meaning s' v b = I.meaning s v b
  sorted : s.Sorted → s'.Sorted ∧ Canonical s'.lt s'.bdd
  tables : TablesValid s'

theorem Inv.tablesValid (h : Inv c s) (hclear : s.cleared = s) : TablesValid s where
  bddtable := h.bddtable
  negation b r hr := (h.negations b r hr).2.2
  conjunction b b' r hr := (h.conjunctions b b' r hr).2.2.2
  disjunction b b' r hr := (h.disjunctions b b' r hr).2.2.2
  ifthenelse k t f r hr := (h.ifthenelses k t f r hr).2.2.2
  quantify sort b r hr := by
    rw [← hclear] at hr
    cases hr

theorem Moved.kept (hinv : Inv False s) (h : Moved s.Sorted s s') : Kept s s' where
  meaning I v := by
    have hmeaning : ∀ b, s.bdd b ≠ none → I.meaning s' v b = I.meaning s v b := fun b hb =>
      funext fun e => propext ((h.holds b hb).2 _)
    refine ⟨?_, fun b hb => ⟨(h.holds b hb).1, hmeaning b hb⟩⟩
    rw [Interpretation.Coherent, Interpretation.Coherent, h.content]
    refine forall₃_congr fun k x hx => ?_
    rw [I.content_congr fun b hb => hmeaning b (hinv.content_valid hx b hb)]
  sorted hs := ⟨h.inv.sorted hs, h.inv.canonical hs⟩
  tables := h.inv.tablesValid h.tables

end Tables

variable {V : Type} [DecidableEq A] [DecidableEq S] (L : TermLanguage V A S)
  (before : ℕ → ℕ → Bool) (ok : FOBDDManager A S → ℕ → ℕ → Bool)

inductive Event : FOBDDManager A S → FOBDDManager A S → Prop
  | step {s s' : FOBDDManager A S} (h : Step L before ok s s') : Event s s'
  | moveDown {s s' : FOBDDManager A S} {visit : ℕ → List (ℕ × ℕ)} {k : ℕ} (hk : s.order k ≠ none)
      (hv : s.Visits visit) (h : (moveDown visit k).run s = some ((), s')) : Event s s'
  | moveUp {s s' : FOBDDManager A S} {visit : ℕ → List (ℕ × ℕ)} {k : ℕ} (hk : s.order k ≠ none)
      (hv : s.Visits visit) (h : (moveUp visit k).run s = some ((), s')) : Event s s'

variable {L before ok}

theorem Event.inv (hok : c → ∀ s k b, ok s k b = true → s.rootBelow k b = true)
    (h : Event L before ok s s') (hi : Inv c s) : Inv c s' := by
  cases h with
  | step h => exact (h.inv hok hi).1
  | moveDown hk hv h =>
    obtain ⟨s1, hs1, hmoved⟩ := moveDown_moved hi hk hv
    rw [h] at hs1
    cases hs1
    exact hmoved.inv
  | moveUp hk hv h =>
    obtain ⟨s1, hs1, hmoved⟩ := moveUp_moved hi hk hv
    rw [h] at hs1
    cases hs1
    exact hmoved.inv

theorem history_inv (hok : c → ∀ s k b, ok s k b = true → s.rootBelow k b = true)
    (h : ReflTransGen (Event L before ok) s s') (hi : Inv c s) : Inv c s' := by
  induction h with
  | refl => exact hi
  | tail _ event ih => exact event.inv hok ih

theorem move_keeps {visit : ℕ → List (ℕ × ℕ)}
    (h : ReflTransGen (Event L before always) createManager s) (hk : s.order k ≠ none)
    (hv : s.Visits visit) :
    (∃ s', (moveDown visit k).run s = some ((), s') ∧ Kept s s') ∧
      ∃ s', (moveUp visit k).run s = some ((), s') ∧ Kept s s' := by
  have hinv : Inv False s := history_inv (fun h => h.elim) h (createManager_inv.weaken False.elim)
  have hinv' : Inv s.Sorted s := { hinv with sorted := id }
  obtain ⟨s1, h1, hm1⟩ := moveDown_moved hinv' hk hv
  obtain ⟨s2, h2, hm2⟩ := moveUp_moved hinv' hk hv
  exact ⟨⟨s1, h1, hm1.kept hinv⟩, ⟨s2, h2, hm2.kept hinv⟩⟩

section Witness

-- (?x: true) & p, with the kernel of p above that of ?x: true
def twoKernels : FOBDDManager Atom ℕ := stateAfter (conjunction pointerLess 10 3 4) withAtomBDD

def visitTwoKernels (k : ℕ) : List (ℕ × ℕ) := if k = 4 then [(1, 0), (1, 3)] else [(1, 0)]

theorem twoKernels_reachable :
    ReflTransGen (Event vocabulary pointerLess always) createManager twoKernels := by
  have h : (conjunction pointerLess 10 3 4).run withAtomBDD = some (5, twoKernels) := rfl
  have hrun := ReflTransGen.mono (fun _ _ => Event.step) _ _
    (run_of_rootBelow withAtomBDD_reachable)
  exact hrun.tail (.step (.conjunction (by decide) (by decide) h))

theorem twoKernels_visits : twoKernels.Visits visitTwoKernels := by
  intro k
  constructor
  · unfold visitTwoKernels
    split_ifs <;> decide
  · intro f t b hb
    have hb : Table.insert3 (Table.insert3 (Table.insert3 (Table.insert3 (fun _ _ _ => none)
      2 1 0 2) 3 1 0 3) 4 1 0 4) 4 1 3 5 k f t = some b := hb
    rcases Table.of_insert3 hb with ⟨rfl, rfl, rfl, -⟩ | hb
    · decide
    rcases Table.of_insert3 hb with ⟨rfl, rfl, rfl, -⟩ | hb
    · decide
    rcases Table.of_insert3 hb with ⟨rfl, rfl, rfl, -⟩ | hb
    · decide
    rcases Table.of_insert3 hb with ⟨rfl, rfl, rfl, -⟩ | hb
    · decide
    · cases hb

theorem move_keeps_twoKernels :
    (∃ s', (moveDown visitTwoKernels 4).run twoKernels = some ((), s') ∧ Kept twoKernels s') ∧
      ∃ s', (moveUp visitTwoKernels 4).run twoKernels = some ((), s') ∧ Kept twoKernels s' :=
  move_keeps twoKernels_reachable (by decide) twoKernels_visits

-- the diagram 5 has changed its kernel
example : (((moveDown visitTwoKernels 4).run twoKernels).map fun r => r.2.bdd 5) =
    some (some (.branch 3 4 1)) := by decide

end Witness

end FOBDDManager

end FoBdd
