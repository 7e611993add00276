import DeclarativeLocalSearch.FoBdd.Packed
import DeclarativeLocalSearch.FoBdd.Terminates
import Mathlib.Data.List.Dedup

namespace FoBdd

open DecisionDiagram Relation

variable {V A S : Type}

namespace FOBDDManager

open Op

-- the order in which the loop of moveDown comes to the entries of a table
structure Iteration (A S : Type) where
  visit : FOBDDManager A S → ℕ → List (ℕ × ℕ)
  visits : ∀ s, Inv False s → s.Visits (visit s)

section Model

variable (visit : FOBDDManager A S → ℕ → List (ℕ × ℕ)) (kernel : ℕ)

-- the loop of ifthenelseTryMaintainOrder
def moveAbove (truekernel falsekernel : ℕ) : ℕ → Op A S Unit
  | 0 => failure
  | n + 1 => do
    if (← kernelLess truekernel kernel) ∨ (← kernelLess falsekernel kernel) then do
      moveUp (visit (← get)) kernel
      moveAbove truekernel falsekernel n
    else pure ()

-- the kernels of the branches are read after ifthenelse, and not again
def ifthenelseTryMaintainOrder (n tb fb : ℕ) : Op A S ℕ := do
  let ifthenelsebdd ← ifthenelse n kernel tb fb
  let truekernel ← kernelOf tb
  let falsekernel ← kernelOf fb
  moveAbove visit kernel truekernel falsekernel n
  pure ifthenelsebdd

end Model

def rootKernel (s : FOBDDManager A S) (b : ℕ) : ℕ :=
  match s.bdd b with
  | some (.leaf v) => if v then truekernel else falsekernel
  | some (.branch k _ _) => k
  | none => truekernel

def category (s : FOBDDManager A S) (k : ℕ) : Option KernelOrderCategory := (s.order k).map KernelOrder.category

-- k' is in no category above that of k, and they are not the two constants in their order
def CanPass (s : FOBDDManager A S) (k k' : ℕ) : Prop :=
  (∀ cat cat', s.category k = some cat → s.category k' = some cat' → ¬ cat'.less cat = true) ∧
    ¬ (k = truekernel ∧ k' = falsekernel)

variable {c : Prop} {s s' : FOBDDManager A S} {k n a : ℕ}

section Moves

theorem Swapped.category (h : Swapped s s' k n) (hk : s.category k = s.category n) : s'.category = s.category := by
  funext x
  have hx : s'.category x = s.category (Equiv.swap k n x) := congrArg (Option.map KernelOrder.category) (h.order x)
  rw [hx, Equiv.swap_apply_def]
  split_ifs with h1 h2
  · rw [h1, hk]
  · rw [h2, hk]
  · rfl

theorem Swapped.packed (h : Swapped s s' k n) (hn : s.order n ≠ none) (hk : s.order k ≠ none) (hs : s.Packed) :
    s'.Packed := by
  refine ⟨fun x hx => ?_, fun cat hcat j hj => ?_⟩
  · have hx : s.order x = none := hs.fresh x (h.nextkernel ▸ hx)
    rw [h.order, Equiv.swap_apply_of_ne_of_ne, hx]
    · rintro rfl
      exact hk hx
    · rintro rfl
      exact hn hx
  · obtain ⟨y, hy⟩ := hs.full cat hcat j (h.nextorder ▸ hj)
    refine ⟨Equiv.swap k n y, ?_⟩
    rw [h.order, Equiv.swap_apply_self, hy]

variable {visit : ℕ → List (ℕ × ℕ)}

theorem moveDown_cases (hinv : Inv c s) (hk : s.order k ≠ none) (hv : s.Visits visit)
    (hr : (moveDown visit k).run s = some ((), s')) : s' = s.cleared ∨
      ∃ n cat m, s.order k = some ⟨cat, m + 1⟩ ∧ s.order n = some ⟨cat, m⟩ ∧ Swapped s s' k n := by
  obtain ⟨r, hbelow⟩ := kernelBelow_total (s := s.cleared) hk
  cases r with
  | none =>
    have hrun : (moveDown visit k).run s = some ((), s.cleared) :=
      Op.bind_eq_some.mpr ⟨(), s.cleared, rfl, Op.bind_eq_some.mpr ⟨none, s.cleared, hbelow, rfl⟩⟩
    exact Or.inl (Prod.mk.inj (Option.some.inj (hr.symm.trans hrun))).2
  | some n =>
    obtain ⟨cat, m, hcat, ho, hkern⟩ := (kernelBelow_eq_some hbelow).2 n rfl
    have hn : s.order n = some ⟨cat, m⟩ := ((hinv.kernels cat m n).mp hkern).1
    obtain ⟨s1, hrun, -, hswap⟩ := moveDown_swapped hinv hcat ho hn hv
    obtain rfl := (Prod.mk.inj (Option.some.inj (hr.symm.trans hrun))).2
    exact Or.inr ⟨n, cat, m, ho, hn, hswap⟩

theorem moveUp_cases (hinv : Inv c s) (hv : s.Visits visit)
    (hr : (moveUp visit k).run s = some ((), s')) : s' = s.cleared ∨
      ∃ a cat m, s.order a = some ⟨cat, m + 1⟩ ∧ s.order k = some ⟨cat, m⟩ ∧ Swapped s s' a k := by
  obtain ⟨u, s1, hclear, hr⟩ := Op.bind_eq_some.mp hr
  obtain rfl := clearDynamicTables_eq_some hclear
  obtain ⟨r, s1, habove, hr⟩ := Op.bind_eq_some.mp hr
  obtain ⟨rfl, hcases⟩ := kernelAbove_eq_some habove
  cases r with
  | none => exact Or.inl (Op.pure_eq_some.mp hr).2.symm
  | some a =>
    obtain ⟨cat, m, hcat, ho, hkern⟩ := hcases a rfl
    have ha : s.order a = some ⟨cat, m + 1⟩ := ((hinv.kernels cat (m + 1) a).mp hkern).1
    obtain ⟨s1, hrun, -, hswap⟩ := moveDown_swapped hinv.cleared hcat ha ho hv
    obtain rfl := (Prod.mk.inj (Option.some.inj (hr.symm.trans hrun))).2
    exact Or.inr ⟨a, cat, m, ha, ho, ⟨hswap.order, hswap.nextkernel, hswap.nextorder⟩⟩

theorem moveUp_swapped {cat : KernelOrderCategory} {m : ℕ} (hinv : Inv c s) (hcat : cat ≠ .trueFalse)
    (ha : s.order a = some ⟨cat, m + 1⟩) (hk : s.order k = some ⟨cat, m⟩) (hv : s.Visits visit) :
    ∃ s', (moveUp visit k).run s = some ((), s') ∧ Moved c s s' ∧ Swapped s s' a k := by
  have habove : (kernelAbove k).run s.cleared = some (some a, s.cleared) := by
    refine Op.bind_eq_some.mpr ⟨_, s.cleared, getOrder_eq_some.mpr ⟨hk, rfl⟩, ?_⟩
    rw [if_neg hcat, Op.get_bind]
    exact Op.pure_eq_some.mpr ⟨(hinv.kernels cat (m + 1) a).mpr ⟨ha, hcat⟩, rfl⟩
  obtain ⟨s', hrun, hmoved, hswap⟩ := moveDown_swapped hinv.cleared hcat ha hk hv
  exact ⟨s', Op.bind_eq_some.mpr ⟨(), s.cleared, rfl, Op.bind_eq_some.mpr ⟨some a, s.cleared, habove, hrun⟩⟩,
    ⟨hmoved.inv, hmoved.holds, hmoved.content, hmoved.tables⟩, hswap.order, hswap.nextkernel, hswap.nextorder⟩

theorem moveUp_category (hinv : Inv c s) (hv : s.Visits visit)
    (hr : (moveUp visit k).run s = some ((), s')) : s'.category = s.category := by
  rcases moveUp_cases hinv hv hr with rfl | ⟨a, cat, m, ha, ho, hswap⟩
  · rfl
  · refine hswap.category ?_
    rw [category, category, ha, ho]
    rfl

end Moves

section Passing

variable {k' : ℕ}

theorem category_ne_none (hk : s.order k ≠ none) : ∃ cat, s.category k = some cat := by
  obtain ⟨o, ho⟩ := Option.ne_none_iff_exists'.mp hk
  exact ⟨o.category, by rw [category, ho]; rfl⟩

theorem order_ne_none (h : s'.category = s.category) (hk : s.order k ≠ none) : s'.order k ≠ none := by
  obtain ⟨cat, hcat⟩ := category_ne_none hk
  intro hnone
  rw [← h, category, hnone] at hcat
  cases hcat

theorem CanPass.congr (h : s'.category = s.category) : s'.CanPass k k' ↔ s.CanPass k k' := by
  rw [CanPass, CanPass, h]

theorem lt_of_not_canPass (hinv : Inv c s) (h : ¬ s.CanPass k k') : s.lt k' k := by
  rw [CanPass, not_and_or] at h
  rcases h with h | h
  · push Not at h
    obtain ⟨cat, cat', hcat, hcat', hless⟩ := h
    obtain ⟨o, ho, rfl⟩ := Option.map_eq_some_iff.mp hcat
    obtain ⟨o', ho', rfl⟩ := Option.map_eq_some_iff.mp hcat'
    exact ⟨o', o, ho', ho, by rw [KernelOrder.less, if_pos hless]⟩
  · obtain ⟨rfl, rfl⟩ := not_not.mp h
    exact ⟨_, _, hinv.constants.2, hinv.constants.1, rfl⟩

theorem CanPass.number (hinv : Inv c s) (h : s.CanPass k k') (hlt : s.lt k' k) :
    ∃ cat m m', cat ≠ .trueFalse ∧ s.order k = some ⟨cat, m⟩ ∧ s.order k' = some ⟨cat, m'⟩ ∧ m < m' := by
  obtain ⟨⟨cat', m'⟩, ⟨cat, m⟩, ho', ho, hless⟩ := hlt
  have hcat : ¬ cat'.less cat = true := h.1 cat cat' (by rw [category, ho]; rfl) (by rw [category, ho']; rfl)
  rw [KernelOrder.less, if_neg hcat] at hless
  split_ifs at hless with hcat'
  have hlt : m < m' := of_decide_eq_true hless
  have heq : cat' = cat := by
    cases cat <;> cases cat' <;> simp [KernelOrderCategory.less] at hcat hcat' ⊢
  subst heq
  refine ⟨cat', m, m', fun htf => h.2 ?_, ho, ho', hlt⟩
  subst htf
  rcases hinv.constant k _ ho rfl with rfl | rfl
  · rcases hinv.constant k' _ ho' rfl with rfl | rfl
    · rw [ho] at ho'
      cases ho'
      exact absurd hlt (Nat.lt_irrefl _)
    · exact ⟨rfl, rfl⟩
  · rw [hinv.constants.2] at ho
    rcases hinv.constant k' _ ho' rfl with rfl | rfl
    · rw [hinv.constants.1] at ho'
      cases ho
      cases ho'
      exact absurd hlt (by decide)
    · rw [hinv.constants.2] at ho'
      cases ho
      cases ho'
      exact absurd hlt (Nat.lt_irrefl _)

end Passing

section Loop

variable (it : Iteration A S) {tk fk : ℕ}

theorem kernelLess_total {k' : ℕ} (hk : s.order k ≠ none) (hk' : s.order k' ≠ none) :
    ∃ v, (kernelLess k k').run s = some (v, s) ∧ (v = true ↔ s.lt k k') := by
  obtain ⟨v, s', hrun, hv, rfl⟩ := kernelLess_succeeds hk hk'
  exact ⟨v, hrun, hv⟩

theorem moveAbove_succ (htk : s.order tk ≠ none) (hfk : s.order fk ≠ none) (hk : s.order k ≠ none) (n : ℕ) :
    ((s.lt tk k ∨ s.lt fk k) ∧ (moveAbove it.visit k tk fk (n + 1)).run s =
      (moveUp (it.visit s) k >>= fun _ => moveAbove it.visit k tk fk n).run s) ∨
    (¬ (s.lt tk k ∨ s.lt fk k) ∧ (moveAbove it.visit k tk fk (n + 1)).run s = some ((), s)) := by
  obtain ⟨v, hv, hvlt⟩ := kernelLess_total htk hk
  obtain ⟨v', hv', hvlt'⟩ := kernelLess_total hfk hk
  have hrun : (moveAbove it.visit k tk fk (n + 1)).run s = (if v = true ∨ v' = true then
      (moveUp (it.visit s) k >>= fun _ => moveAbove it.visit k tk fk n) else pure ()).run s := by
    rw [moveAbove, StateT.run_bind, hv]
    simp only [Option.bind_eq_bind, Option.bind_some]
    rw [StateT.run_bind, hv']
    simp only [Option.bind_eq_bind, Option.bind_some]
    split_ifs <;> rfl
  rw [← hvlt, ← hvlt']
  by_cases htest : v = true ∨ v' = true
  · exact Or.inl ⟨htest, by rw [hrun, if_pos htest]⟩
  · exact Or.inr ⟨htest, by rw [hrun, if_neg htest]; rfl⟩

-- a kernel that cannot pass one of the other two is moved up for ever
theorem moveAbove_not_returns (hinv : Inv False s) (htk : s.order tk ≠ none) (hfk : s.order fk ≠ none)
    (hk : s.order k ≠ none) (h : ¬ (s.CanPass k tk ∧ s.CanPass k fk)) (n : ℕ) :
    (moveAbove it.visit k tk fk n).run s ≠ some ((), s') := by
  induction n generalizing s with
  | zero => exact fun hr => failure_eq_some hr
  | succ n ih =>
    intro hr
    rcases moveAbove_succ it htk hfk hk n with ⟨-, hrun⟩ | ⟨htest, -⟩
    · obtain ⟨u, s1, hup, hr⟩ := Op.bind_eq_some.mp (hrun.symm.trans hr)
      have hv := it.visits s hinv
      obtain ⟨s2, hup', hmoved⟩ := moveUp_moved hinv hk hv
      obtain rfl := (Prod.mk.inj (Option.some.inj (hup.symm.trans hup'))).2
      have hcat := moveUp_category hinv hv hup
      refine ih hmoved.inv (order_ne_none hcat htk) (order_ne_none hcat hfk) (order_ne_none hcat hk) ?_ hr
      rwa [CanPass.congr hcat, CanPass.congr hcat]
    · exact htest ((not_and_or.mp h).imp (lt_of_not_canPass hinv) (lt_of_not_canPass hinv))

theorem moveAbove_keeps (hinv : Inv False s) (htk : s.order tk ≠ none) (hfk : s.order fk ≠ none)
    (hk : s.order k ≠ none) {n : ℕ} (hr : (moveAbove it.visit k tk fk n).run s = some ((), s')) :
    ∀ b, s.bdd b ≠ none → s'.bdd b ≠ none ∧ ∀ w, Holds s'.bdd w b ↔ Holds s.bdd w b := by
  induction n generalizing s with
  | zero => exact absurd hr failure_eq_some
  | succ n ih =>
    intro b hb
    rcases moveAbove_succ it htk hfk hk n with ⟨-, hrun⟩ | ⟨-, hrun⟩
    · obtain ⟨u, s1, hup, hr⟩ := Op.bind_eq_some.mp (hrun.symm.trans hr)
      have hv := it.visits s hinv
      obtain ⟨s2, hup', hmoved⟩ := moveUp_moved hinv hk hv
      obtain rfl := (Prod.mk.inj (Option.some.inj (hup.symm.trans hup'))).2
      have hcat := moveUp_category hinv hv hup
      obtain ⟨hb1, hholds⟩ := hmoved.holds b hb
      obtain ⟨hb', hholds'⟩ :=
        ih hmoved.inv (order_ne_none hcat htk) (order_ne_none hcat hfk) (order_ne_none hcat hk) hr b hb1
      exact ⟨hb', fun w => (hholds' w).trans (hholds w)⟩
    · obtain rfl := (Prod.mk.inj (Option.some.inj (hrun.symm.trans hr))).2
      exact ⟨hb, fun w => Iff.rfl⟩

-- each move gives the kernel the next number of its category
theorem moveAbove_returns (hpass : s.CanPass k tk ∧ s.CanPass k fk) (hinv : Inv False s) (hs : s.Packed)
    (htk : s.order tk ≠ none) (hfk : s.order fk ≠ none) {cat : KernelOrderCategory} {m : ℕ}
    (hk : s.order k = some ⟨cat, m⟩) (d : ℕ) (hd : s.nextorder cat ≤ m + d) :
    ∃ s', (moveAbove it.visit k tk fk (d + 1)).run s = some ((), s') := by
  induction d generalizing s m with
  | zero => exact absurd (hinv.numbers k _ hk) (Nat.not_lt.mpr hd)
  | succ d ih =>
    have hk' : s.order k ≠ none := by rw [hk]; exact Option.some_ne_none _
    rcases moveAbove_succ it htk hfk hk' (d + 1) with ⟨htest, hrun⟩ | ⟨-, hrun⟩
    · obtain ⟨x, m', hcat, hx, hlt⟩ : ∃ x m', cat ≠ .trueFalse ∧ s.order x = some ⟨cat, m'⟩ ∧ m < m' := by
        rcases htest with hlt | hlt
        · obtain ⟨cat', m1, m', hcat, ho, hx, hlt⟩ := hpass.1.number hinv hlt
          cases hk.symm.trans ho
          exact ⟨tk, m', hcat, hx, hlt⟩
        · obtain ⟨cat', m1, m', hcat, ho, hx, hlt⟩ := hpass.2.number hinv hlt
          cases hk.symm.trans ho
          exact ⟨fk, m', hcat, hx, hlt⟩
      obtain ⟨a, ha⟩ := hs.full cat hcat (m + 1) (Nat.lt_of_le_of_lt hlt (hinv.numbers x _ hx))
      obtain ⟨s1, hup, hmoved, hswap⟩ := moveUp_swapped hinv hcat ha hk (it.visits s hinv)
      have hcat1 := moveUp_category hinv (it.visits s hinv) hup
      have ha' : s.order a ≠ none := by rw [ha]; exact Option.some_ne_none _
      have hk1 : s1.order k = some ⟨cat, m + 1⟩ := by rw [hswap.order, Equiv.swap_apply_right, ha]
      obtain ⟨s', hs'⟩ := ih (by rwa [CanPass.congr hcat1, CanPass.congr hcat1]) hmoved.inv (hswap.packed hk' ha' hs)
        (order_ne_none hcat1 htk) (order_ne_none hcat1 hfk) hk1 (by rw [hswap.nextorder]; omega)
      exact ⟨s', hrun.trans (Op.bind_eq_some.mpr ⟨(), s1, hup, hs'⟩)⟩
    · exact ⟨s, hrun⟩

end Loop

section Result

variable (it : Iteration A S) {t f : ℕ}

-- the call returns, with a diagram that is the choice of the kernel between the two branches
def Maintains (it : Iteration A S) (s : FOBDDManager A S) (k t f : ℕ) : Prop :=
  (∃ n r s', (ifthenelseTryMaintainOrder it.visit k n t f).run s = some (r, s')) ∧
    ∀ n r s', (ifthenelseTryMaintainOrder it.visit k n t f).run s = some (r, s') → s'.bdd r ≠ none ∧
      ∀ w, Holds s'.bdd w r ↔ Choice (truth w k) (Holds s.bdd w t) (Holds s.bdd w f)

theorem kernelOf_rootKernel {b : ℕ} (hb : s.bdd b ≠ none) : (kernelOf b).run s = some (s.rootKernel b, s) := by
  rw [kernelOf, Op.get_bind, rootKernel]
  cases hn : s.bdd b with
  | none => exact absurd hn hb
  | some x => cases x <;> rfl

theorem rootKernel_of_extends (he : Extends s s') {b : ℕ} (hb : s.bdd b ≠ none) :
    s'.rootKernel b = s.rootKernel b := by
  obtain ⟨x, hx⟩ := Option.ne_none_iff_exists'.mp hb
  rw [rootKernel, rootKernel, hx, he.bdd b x hx]

theorem rootKernel_order (hinv : Inv c s) {b : ℕ} (hb : s.bdd b ≠ none) : s.order (s.rootKernel b) ≠ none := by
  rw [rootKernel]
  rcases hinv.leaf_or_branch hb with rfl | rfl | ⟨k, t, f, hn⟩
  · rw [hinv.leafTrue]
    exact fun h => absurd (hinv.constants.1.symm.trans h) nofun
  · rw [hinv.leafFalse]
    exact fun h => absurd (hinv.constants.2.symm.trans h) nofun
  · rw [hn]
    exact (hinv.children hn).2.2

theorem ifthenelse_before (hinv : Inv False s) (hk : s.order k ≠ none) (ht : s.bdd t ≠ none) (hf : s.bdd f ≠ none)
    {n r : ℕ} {s1 : FOBDDManager A S} (hr : (ifthenelse n k t f).run s = some (r, s1)) :
    Returns False s s1 r (fun w => Choice (truth w k) (Holds s.bdd w t) (Holds s.bdd w f)) ∧ SameKernels s s1 ∧
      (kernelOf t).run s1 = some (s.rootKernel t, s1) ∧ (kernelOf f).run s1 = some (s.rootKernel f, s1) := by
  have hret := ifthenelse_chooses n s k t f r s1 hinv hk ht hf hr
  refine ⟨hret, ifthenelse_within (fun _ _ => id) n k t f s r s1 hr, ?_, ?_⟩
  · rw [kernelOf_rootKernel (hret.ext.valid ht), rootKernel_of_extends hret.ext ht]
  · rw [kernelOf_rootKernel (hret.ext.valid hf), rootKernel_of_extends hret.ext hf]

theorem SameKernels.category (h : SameKernels s s') : s'.category = s.category := by
  funext x
  rw [FOBDDManager.category, FOBDDManager.category, h.order]

theorem ifthenelseTryMaintainOrder_cases (hinv : Inv False s) (hk : s.order k ≠ none) (ht : s.bdd t ≠ none)
    (hf : s.bdd f ≠ none) {n r : ℕ} (hr : (ifthenelseTryMaintainOrder it.visit k n t f).run s = some (r, s')) :
    ∃ s1, Returns False s s1 r (fun w => Choice (truth w k) (Holds s.bdd w t) (Holds s.bdd w f)) ∧
      SameKernels s s1 ∧ (moveAbove it.visit k (s.rootKernel t) (s.rootKernel f) n).run s1 = some ((), s') := by
  obtain ⟨r', s1, hite, hr⟩ := Op.bind_eq_some.mp hr
  obtain ⟨hret, hsame, htk, hfk⟩ := ifthenelse_before hinv hk ht hf hite
  obtain ⟨tk, s2, htk', hr⟩ := Op.bind_eq_some.mp hr
  obtain ⟨rfl, rfl⟩ := Prod.mk.inj (Option.some.inj (htk.symm.trans htk'))
  obtain ⟨fk, s2, hfk', hr⟩ := Op.bind_eq_some.mp hr
  obtain ⟨rfl, rfl⟩ := Prod.mk.inj (Option.some.inj (hfk.symm.trans hfk'))
  obtain ⟨u, s2, hloop, hpure⟩ := Op.bind_eq_some.mp hr
  obtain ⟨rfl, rfl⟩ := Op.pure_eq_some.mp hpure
  exact ⟨_, hret, hsame, hloop⟩

theorem ifthenelseTryMaintainOrder_not_returns (hinv : Inv False s) (hk : s.order k ≠ none) (ht : s.bdd t ≠ none)
    (hf : s.bdd f ≠ none) (h : ¬ (s.CanPass k (s.rootKernel t) ∧ s.CanPass k (s.rootKernel f))) :
    ¬ ∃ n r s', (ifthenelseTryMaintainOrder it.visit k n t f).run s = some (r, s') := by
  rintro ⟨n, r, s', hr⟩
  obtain ⟨s1, hret, hsame, hloop⟩ := ifthenelseTryMaintainOrder_cases it hinv hk ht hf hr
  refine moveAbove_not_returns it hret.inv ?_ ?_ ?_ ?_ n hloop
  · exact order_ne_none hsame.category (rootKernel_order hinv ht)
  · exact order_ne_none hsame.category (rootKernel_order hinv hf)
  · exact order_ne_none hsame.category hk
  · rwa [CanPass.congr hsame.category, CanPass.congr hsame.category]

theorem ifthenelseTryMaintainOrder_returns (hinv : Inv False s) (hs : s.Packed) (hk : s.order k ≠ none)
    (ht : s.bdd t ≠ none) (hf : s.bdd f ≠ none) (hpass : s.CanPass k (s.rootKernel t) ∧ s.CanPass k (s.rootKernel f)) :
    ∃ n r s', (ifthenelseTryMaintainOrder it.visit k n t f).run s = some (r, s') := by
  obtain ⟨W, hW⟩ := exists_size hinv.acyclic
  have hweighs : Weighs s W := ⟨hinv.closed, fun b k hi lo hb => by
    rw [hW b k hi lo hb]
    omega⟩
  obtain ⟨⟨cat, m⟩, ho⟩ := Option.ne_none_iff_exists'.mp hk
  obtain ⟨r, s1, hite, -⟩ := ifthenelse_succeeds hweighs (W t + W f + s.nextorder cat + 1) s k t f (Extends.refl s)
    hinv hk ht hf (by omega)
  obtain ⟨hret, hsame, htk, hfk⟩ := ifthenelse_before hinv hk ht hf hite
  obtain ⟨s', hloop⟩ := moveAbove_returns (s := s1) (m := m) it
    (by rwa [CanPass.congr hsame.category, CanPass.congr hsame.category]) hret.inv (packs_kernelwise s s1 hsame hs)
    (order_ne_none hsame.category (rootKernel_order hinv ht)) (order_ne_none hsame.category (rootKernel_order hinv hf))
    (by rw [hsame.order, ho]) (W t + W f + s.nextorder cat) (by rw [hsame.nextorder]; omega)
  exact ⟨_, r, s', Op.bind_eq_some.mpr ⟨r, s1, hite, Op.bind_eq_some.mpr ⟨_, s1, htk,
    Op.bind_eq_some.mpr ⟨_, s1, hfk, Op.bind_eq_some.mpr ⟨(), s', hloop, rfl⟩⟩⟩⟩⟩

variable [DecidableEq A] [DecidableEq S] {L : TermLanguage V A S} {before : ℕ → ℕ → Bool}

theorem Event.packed (h : Event L before always s s') (hinv : Inv False s) (hs : s.Packed) : s'.Packed := by
  have hne : ∀ {x : ℕ} {o : KernelOrder}, s.order x = some o → s.order x ≠ none := fun ho hnone =>
    absurd (ho.symm.trans hnone) nofun
  cases h with
  | step h => exact h.packed hs
  | moveDown hk hv h =>
    rcases moveDown_cases hinv hk hv h with rfl | ⟨n, cat, m, ho, hn, hswap⟩
    · exact ⟨hs.fresh, hs.full⟩
    · exact hswap.packed (hne hn) (hne ho) hs
  | moveUp hk hv h =>
    rcases moveUp_cases hinv hv h with rfl | ⟨a, cat, m, ha, ho, hswap⟩
    · exact ⟨hs.fresh, hs.full⟩
    · exact hswap.packed (hne ho) (hne ha) hs

theorem history_packed (h : ReflTransGen (Event L before always) createManager s) : Inv False s ∧ s.Packed := by
  induction h with
  | refl => exact ⟨createManager_inv.weaken False.elim, createManager_packed⟩
  | tail _ event ih => exact ⟨event.inv (fun h => h.elim) ih.1, event.packed ih.1 ih.2⟩

-- the kernel must be able to pass the kernels at the roots of both branches
theorem maintains_iff (h : ReflTransGen (Event L before always) createManager s) (hk : s.order k ≠ none)
    (ht : s.bdd t ≠ none) (hf : s.bdd f ≠ none) :
    Maintains it s k t f ↔ s.CanPass k (s.rootKernel t) ∧ s.CanPass k (s.rootKernel f) := by
  obtain ⟨hinv, hs⟩ := history_packed h
  refine ⟨fun hmaintains => ?_, fun hpass => ⟨?_, fun n r s' hr => ?_⟩⟩
  · by_contra hpass
    exact ifthenelseTryMaintainOrder_not_returns it hinv hk ht hf hpass hmaintains.1
  · exact ifthenelseTryMaintainOrder_returns it hinv hs hk ht hf hpass
  · obtain ⟨s1, hret, hsame, hloop⟩ := ifthenelseTryMaintainOrder_cases it hinv hk ht hf hr
    obtain ⟨hvalid, hholds⟩ := moveAbove_keeps it hret.inv
      (order_ne_none hsame.category (rootKernel_order hinv ht))
      (order_ne_none hsame.category (rootKernel_order hinv hf)) (order_ne_none hsame.category hk) hloop r hret.valid
    exact ⟨hvalid, fun w => (hholds w).trans (hret.holds w)⟩

section Unreturned

-- the entries of the table of k, in the order of their diagrams
def entriesOf (s : FOBDDManager A S) (k : ℕ) : List (ℕ × ℕ) :=
  ((List.range s.nextbdd).filterMap fun b =>
    match s.bdd b with
    | some (.branch k' t f) => if k' = k then some (f, t) else none
    | _ => none).dedup

omit [DecidableEq A] [DecidableEq S] in
theorem entriesOf_visits (hinv : Inv False s) : s.Visits s.entriesOf := by
  refine fun k => ⟨List.nodup_dedup _, fun f t b hb => ?_⟩
  have hn := hinv.bddtable k f t b hb
  refine List.mem_dedup.mpr (List.mem_filterMap.mpr ⟨b, List.mem_range.mpr ?_, ?_⟩)
  · by_contra hlt
    exact absurd (hn.symm.trans (hinv.freshbdd b (Nat.le_of_not_lt hlt))) nofun
  · rw [hn]
    exact if_pos rfl

def inOrder : Iteration A S := ⟨entriesOf, fun _ => entriesOf_visits⟩

-- in turn: Sort(<0>), ?x: true, p; the first is in the category of the index 0
theorem withAtomBDD_history : ReflTransGen (Event vocabulary pointerLess always) createManager withAtomBDD :=
  ReflTransGen.mono (fun _ _ => Event.step) _ _ (run_of_rootBelow withAtomBDD_reachable)

theorem maintains_standard : Maintains inOrder withAtomBDD 3 4 falsebdd :=
  (maintains_iff inOrder withAtomBDD_history (by decide) (by decide) (by decide)).mpr (by
    refine ⟨⟨?_, by decide⟩, ?_, by decide⟩
    · rintro _ _ ⟨⟩ ⟨⟩
      decide
    · rintro _ _ ⟨⟩ ⟨⟩
      decide)

-- two ordered diagrams under a kernel with the index 0
theorem not_maintains_deBruijn : Canonical withAtomBDD.lt withAtomBDD.bdd ∧
    ¬ ∃ n r s', (ifthenelseTryMaintainOrder inOrder.visit 2 n 4 falsebdd).run withAtomBDD = some (r, s') := by
  have hinv : Inv True withAtomBDD := run_inv (fun _ _ _ _ hok => hok) withAtomBDD_reachable createManager_inv
  refine ⟨hinv.canonical trivial, ifthenelseTryMaintainOrder_not_returns inOrder (hinv.weaken False.elim)
    (by decide) (by decide) (by decide) fun hpass => ?_⟩
  exact hpass.1.1 .deBruijn .standard rfl rfl rfl

end Unreturned

end Result

end FOBDDManager

end FoBdd
