import Mathlib
import DeclarativeLocalSearch.FoBdd.NestedRuns

namespace FoBdd

open DecisionDiagram

variable {V I A S P W : Type}

namespace FOBDDManager

open Op

variable {s s' s1 s2 s3 : FOBDDManager A S} {c : Prop} {goal : Bool}

section Towards

-- more true for the goal true, more false for the goal false
def Towards (goal : Bool) (p q : Prop) : Prop := if goal then p → q else q → p

theorem Towards.refl (goal : Bool) (p : Prop) : Towards goal p p := by
  unfold Towards
  split_ifs <;> exact id

theorem Towards.of_iff {p q : Prop} (h : p ↔ q) : Towards goal p q := by
  unfold Towards
  split_ifs
  · exact h.mp
  · exact h.mpr

theorem Towards.trans {p q r : Prop} (h : Towards goal p q) (h' : Towards goal q r) : Towards goal p r := by
  unfold Towards at *
  split_ifs at *
  · exact h' ∘ h
  · exact h ∘ h'

theorem Towards.choice {x p q p' q' : Prop} (hp : Towards goal p p') (hq : Towards goal q q') :
    Towards goal (Choice x p q) (Choice x p' q') := by
  unfold Towards Choice at *
  split_ifs at * <;> tauto

end Towards

section MadeMore

-- r is what has become of b
structure MadeMore (goal : Bool) (s s' : FOBDDManager A S) (b r : ℕ) : Prop where
  inv : Inv True s'
  ext : Extends s s'
  valid : s'.bdd r ≠ none
  above : ∀ k, Above s.lt s.bdd k b → Above s'.lt s'.bdd k r
  towards : ∀ w, Towards goal (Holds s.bdd w b) (Holds s'.bdd w r)

theorem MadeMore.refl (h : Inv True s) {b : ℕ} (hb : s.bdd b ≠ none) : MadeMore goal s s b b :=
  ⟨h, Extends.refl s, hb, fun _ => id, fun _ => Towards.refl goal _⟩

theorem MadeMore.trans {b b1 b2 : ℕ} (h : MadeMore goal s s1 b b1) (h' : MadeMore goal s1 s2 b1 b2) :
    MadeMore goal s s2 b b2 :=
  ⟨h'.inv, h.ext.trans h'.ext, h'.valid, fun k hk => h'.above k (h.above k hk),
    fun w => (h.towards w).trans (h'.towards w)⟩

theorem MadeMore.later (h : Inv True s) (hi : Inv True s1) (he : Extends s s1) {b : ℕ} (hb : s.bdd b ≠ none) :
    MadeMore goal s s1 b b :=
  ⟨hi, he, he.valid hb, fun _ hk => he.above hb hk, fun w => Towards.of_iff (he.holds h hb w).symm⟩

theorem MadeMore.of_returns {b r : ℕ} {Q : (ℕ → Prop) → Prop} (h : Returns True s s' r Q)
    (hl : ∀ k, Above s.lt s.bdd k b → Local s k Q) (ht : ∀ w, Towards goal (Holds s.bdd w b) (Q w)) :
    MadeMore goal s s' b r :=
  ⟨h.inv, h.ext, h.valid, fun k hk => h.inv.above_of_local trivial h.holds ((hl k hk).extends h.ext),
    fun w => (ht w).trans (Towards.of_iff (h.holds w).symm)⟩

theorem MadeMore.node (h : Inv True s) {b k t f nt nf r : ℕ} (hb : s.bdd b = some (.branch k t f))
    (ht : MadeMore goal s s1 t nt) (hf : MadeMore goal s1 s2 f nf)
    (hr : (getBDD k nt nf).run s2 = some (r, s3)) : MadeMore goal s s3 b r := by
  obtain ⟨htv, hfv, hk⟩ := h.children hb
  obtain ⟨hkt, hkf⟩ := (h.sorted trivial).ordered b k t f hb
  have he := ht.ext.trans hf.ext
  have hat : Above s2.lt s2.bdd k nt := hf.ext.above ht.valid (ht.above k hkt)
  have haf : Above s2.lt s2.bdd k nf := hf.above k (ht.ext.above hfv hkf)
  have hret := getBDD_returns hf.inv (he.order_ne hk) (hf.ext.valid ht.valid) hf.valid
    (fun _ _ _ => ⟨hat, haf⟩) hr
  have hbv : s.bdd b ≠ none := by rw [hb]; exact Option.some_ne_none _
  refine (MadeMore.later h hf.inv he hbv).trans (MadeMore.of_returns hret (fun k' hk' => ?_) fun w => ?_)
  · have hlt : s2.lt k' k := hk' k t f (he.bdd b _ hb)
    exact Local.choice (hf.inv.local_of_above trivial (hat.trans hlt))
      (hf.inv.local_of_above trivial (haf.trans hlt)) hlt
  · refine (Towards.of_iff (hf.inv.holds_node (he.bdd b _ hb) w)).trans (Towards.choice ?_ ?_)
    · refine (Towards.of_iff (he.holds h htv w)).trans ((ht.towards w).trans ?_)
      exact Towards.of_iff (hf.ext.holds ht.inv ht.valid w).symm
    · refine (Towards.of_iff (hf.ext.holds ht.inv (ht.ext.valid hfv) w)).trans ?_
      exact hf.towards w

end MadeMore

theorem Inv.labels (h : Inv c s) {b k t f : ℕ} (hb : s.bdd b = some (.branch k t f)) :
    k ≠ truekernel ∧ k ≠ falsekernel ∧ b ≠ truebdd ∧ b ≠ falsebdd := by
  obtain ⟨o, ho, hcat⟩ := h.labelled b k t f hb
  refine ⟨?_, ?_, ?_, ?_⟩
  · rintro rfl
    rw [h.constants.1] at ho
    cases ho
    exact hcat rfl
  · rintro rfl
    rw [h.constants.2] at ho
    cases ho
    exact hcat rfl
  · rintro rfl
    rw [h.leafTrue] at hb
    cases hb
  · rintro rfl
    rw [h.leafFalse] at hb
    cases hb

theorem getBDD_result (h : Inv c s) {k t f r : ℕ} (hk : k ≠ truekernel ∧ k ≠ falsekernel)
    (hr : (getBDD k t f).run s = some (r, s')) :
    (t = f ∧ r = t ∧ s' = s) ∨ s'.bdd r = some (.branch k t f) := by
  rw [getBDD, if_neg hk.1, if_neg hk.2] at hr
  split_ifs at hr with heq
  · obtain ⟨rfl, rfl⟩ := pure_eq_some.mp hr
    exact Or.inl ⟨heq.symm, heq, rfl⟩
  · rw [get_bind] at hr
    cases htab : s.bddtable k f t with
    | some x =>
      rw [htab] at hr
      obtain ⟨rfl, rfl⟩ := pure_eq_some.mp hr
      exact Or.inr (h.bddtable k f t _ htab)
    | none =>
      rw [htab] at hr
      obtain ⟨rfl, rfl⟩ := addBDD_eq_some.mp hr
      exact Or.inr withBDD_bdd_new

theorem getBDD_branchings (h : Inv c s) {k t f r m n : ℕ} (hk : k ≠ truekernel ∧ k ≠ falsekernel)
    (hr : (getBDD k t f).run s = some (r, s')) (ht : Branchings s.bdd t m) (hf : Branchings s.bdd f n) :
    ∃ m' ≤ m + n + 1, Branchings s'.bdd r m' := by
  have he := getBDD_extends h hr
  rcases getBDD_result h hk hr with ⟨-, rfl, -⟩ | hb
  · exact ⟨m, by omega, ht.of_extends he.bdd⟩
  · exact ⟨m + n + 1, le_rfl, .branch hb (ht.of_extends he.bdd) (hf.of_extends he.bdd)⟩

section Without

variable [DecidableEq P] {symbols : A → Finset P} (before : ℕ → ℕ → Bool) {symbolsToRemove : Finset P}

theorem merge_makesMore (h : Inv True s) {rank : ℕ → ℕ} (hrank : Ranks rank s) {b k t f n : ℕ}
    (hb : s.bdd b = some (.branch k t f)) (hn : rootRank rank s t + rootRank rank s f < n) :
    Succeeds (mergeBranches before goal n t f) s fun r s' =>
      Leaves s s' ∧ MadeMore goal s s' b r ∧ Above s'.lt s'.bdd k r := by
  obtain ⟨ht, hf, -⟩ := h.children hb
  obtain ⟨hkt, hkf⟩ := (h.sorted trivial).ordered b k t f hb
  have hlocal : ∀ k', s.lt k' k → (Local s k' fun w => Holds s.bdd w t) ∧ Local s k' fun w => Holds s.bdd w f :=
    fun k' hlt => ⟨h.local_of_above trivial (hkt.trans hlt), h.local_of_above trivial (hkf.trans hlt)⟩
  cases goal with
  | true =>
    refine (disjunction_succeeds before rank n s t f h hrank ht hf hn).after fun r s' hr hl => ⟨hl, ?_, ?_⟩
    all_goals have hret := disjunction_combines before n s t f r s' h ht hf hr
    · refine MadeMore.of_returns hret (fun k' hk' => ?_) fun w hw => ?_
      · exact (hlocal k' (hk' k t f hb)).1.or (hlocal k' (hk' k t f hb)).2
      · rcases (holds_branch hb).mp hw with ⟨-, hw⟩ | ⟨-, hw⟩
        · exact Or.inl hw
        · exact Or.inr hw
    · exact hret.inv.above_of_local trivial hret.holds
        (((h.local_of_above trivial hkt).or (h.local_of_above trivial hkf)).extends hret.ext)
  | false =>
    refine (conjunction_succeeds before rank n s t f h hrank ht hf hn).after fun r s' hr hl => ⟨hl, ?_, ?_⟩
    all_goals have hret := conjunction_combines before n s t f r s' h ht hf hr
    · refine MadeMore.of_returns hret (fun k' hk' => ?_) fun w hw => ?_
      · exact (hlocal k' (hk' k t f hb)).1.and (hlocal k' (hk' k t f hb)).2
      · refine (holds_branch hb).mpr ?_
        by_cases hk : w k
        · exact Or.inl ⟨hk, hw.1⟩
        · exact Or.inr ⟨hk, hw.2⟩
    · exact hret.inv.above_of_local trivial hret.holds
        (((h.local_of_above trivial hkt).and (h.local_of_above trivial hkf)).extends hret.ext)

theorem Leaves.refl (h : Inv True s) : Leaves s s := ⟨h, Extends.refl s, rfl, rfl⟩

theorem Leaves.trans (h : Leaves s s1) (h' : Leaves s1 s2) : Leaves s s2 :=
  ⟨h'.inv, h.ext.trans h'.ext, h'.order.trans h.order, h'.content.trans h.content⟩

theorem getBDD_leaves (h : Inv c s) {k t f r : ℕ} (hi : Inv True s')
    (hr : (getBDD k t f).run s = some (r, s')) : Leaves s s' := by
  obtain ⟨ho, hc, -⟩ := getBDD_frames k t f s r s' hr
  exact ⟨hi, getBDD_extends h hr, ho, hc⟩

-- no symbol to remove occurs in the diagram
def Without (symbols : A → Finset P) (symbolsToRemove : Finset P) (s : FOBDDManager A S) (b : ℕ) : Prop :=
  ∀ p ∈ symbolsToRemove, ¬ Occurs symbols s p b

theorem Without.of_extends (hn : Nested s) (hs : Inv c s) (he : Extends s s') {b : ℕ} (hb : s.bdd b ≠ none)
    (h : Without symbols symbolsToRemove s b) : Without symbols symbolsToRemove s' b :=
  fun p hp hocc => h p hp (hn.occurs_of_extends hs he hocc hb)

theorem Without.node (hn : Nested s) (hs : Inv c s) {b k t f nt nf r : ℕ} {x : KernelContent A S}
    (hb : s.bdd b = some (.branch k t f)) (hx : s.content k = some x)
    (hkernel : ∀ p ∈ symbolsToRemove, ¬ OccursIn symbols s p x) (hs2 : Inv c s2)
    (hr : (getBDD k nt nf).run s2 = some (r, s3)) (he : Extends s s3)
    (ht : Without symbols symbolsToRemove s3 nt) (hf : Without symbols symbolsToRemove s3 nf) :
    Without symbols symbolsToRemove s3 r := by
  obtain ⟨hk1, hk2, -⟩ := hs.labels hb
  rcases getBDD_result hs2 ⟨hk1, hk2⟩ hr with ⟨-, rfl, -⟩ | hbr
  · exact ht
  · intro p hp hocc
    rcases (occurs_branch hbr (he.content k x hx)).mp hocc with hin | hocc | hocc
    · rcases hin with hin | ⟨b', hb', hin⟩
      · exact hkernel p hp (Or.inl hin)
      · exact hkernel p hp (Or.inr ⟨b', hb', hn.occurs_of_extends hs he hin (hs.content_valid hx b' hb')⟩)
    · exact ht p hp hocc
    · exact hf p hp hocc

theorem makeMoreWithout_makesMore {s0 : FOBDDManager A S} (h0 : Inv True s0) (hn0 : Nested s0) {N : ℕ}
    (hN : ∀ n, N ≤ n → ∀ k, s0.order k ≠ none → Collects symbols s0 n k) (n : ℕ) {b : ℕ} (hl : Leaves s0 s)
    (hb : s.bdd b ≠ none) (hn : N + 2 * rootRank s0.kernelRank s b < n) :
    Succeeds (makeMoreWithout symbols before goal symbolsToRemove n b) s fun r s' =>
      Leaves s s' ∧ MadeMore goal s s' b r ∧ Without symbols symbolsToRemove s' r := by
  induction n generalizing s b with
  | zero => exact absurd hn (Nat.not_lt_zero _)
  | succ n ih =>
    have h := hl.inv
    have hnested := hn0.of_content hl.ext hl.order hl.content
    have hrank := h0.ranks.of_order hl.order
    have hleaf : ∀ {v}, s.bdd b = some (.leaf v) → Succeeds (pure b : Op A S ℕ) s fun r s' =>
        Leaves s s' ∧ MadeMore goal s s' b r ∧ Without symbols symbolsToRemove s' r :=
      fun hv => Succeeds.pure ⟨Leaves.refl h, MadeMore.refl h hb, fun _ _ => not_occurs_leaf hv⟩
    rw [makeMoreWithout]
    obtain rfl | rfl | ⟨k, t, f, hbr⟩ := h.leaf_or_branch hb
    · exact hleaf h.leafTrue
    · exact hleaf h.leafFalse
    · obtain ⟨ht, hf, hk⟩ := h.children hbr
      obtain ⟨-, -, hb1, hb2⟩ := h.labels hbr
      obtain ⟨hrt, hrf⟩ := hrank.branches h hbr
      obtain ⟨x, hx⟩ := hnested.branch h hbr
      rw [if_neg (by simp [hb1, hb2])]
      refine Succeeds.bind ((kernelOf_succeeds hbr).mono ?_)
      rintro _ _ ⟨rfl, rfl⟩
      refine Succeeds.bind ((hN n (by omega) _ (hl.order ▸ hk) x (hl.content ▸ hx) _ hl.ext).mono ?_)
      rintro X _ ⟨rfl, hX⟩
      by_cases hrem : ∃ sym ∈ symbolsToRemove, sym ∈ X
      · rw [if_pos hrem]
        refine Succeeds.bind ((truebranch_succeeds hbr).mono ?_)
        rintro _ _ ⟨rfl, rfl⟩
        refine Succeeds.bind ((falsebranch_succeeds hbr).mono ?_)
        rintro _ _ ⟨rfl, rfl⟩
        refine Succeeds.bind ((merge_makesMore before h hrank hbr (by omega)).mono ?_)
        rintro both s1 ⟨hl1, hm1, hab⟩
        have hlow := rootRank_of_above (hrank.of_order hl1.order) hab
        rw [rootRank_branch hbr] at hn
        refine (ih (hl.trans hl1) hm1.valid (by omega)).mono ?_
        rintro r s2 ⟨hl2, hm2, hw⟩
        exact ⟨hl1.trans hl2, hm1.trans hm2, hw⟩
      · rw [if_neg hrem]
        refine Succeeds.bind ((truebranch_succeeds hbr).mono ?_)
        rintro _ _ ⟨rfl, rfl⟩
        refine Succeeds.bind ((ih hl ht (by omega)).mono ?_)
        rintro nt s1 ⟨hl1, hm1, hw1⟩
        refine Succeeds.bind ((falsebranch_succeeds (hl1.ext.bdd _ _ hbr)).mono ?_)
        rintro _ _ ⟨rfl, rfl⟩
        refine Succeeds.bind ((ih (hl.trans hl1) (hl1.ext.valid hf) ?_).mono ?_)
        · rw [rootRank_of_extends hl1.ext hf]
          omega
        rintro nf s2 ⟨hl2, hm2, hw2⟩
        refine (getBDD_succeeds s2 _ nt nf).after fun r s3 hr _ => ?_
        have hm := MadeMore.node h hbr hm1 hm2 hr
        have hl3 := getBDD_leaves hm2.inv hm.inv hr
        refine ⟨(hl1.trans hl2).trans hl3, hm, ?_⟩
        have hn1 := hnested.of_content hl1.ext hl1.order hl1.content
        have hn2 := hn1.of_content hl2.ext hl2.order hl2.content
        refine Without.node hnested h hbr hx (fun p hp hin => hrem ⟨p, hp, (hX p).mpr hin⟩) hm2.inv hr hm.ext ?_ ?_
        · exact hw1.of_extends hn1 hm1.inv (hl2.ext.trans hl3.ext) hm1.valid
        · exact hw2.of_extends hn2 hm2.inv hl3.ext hm2.valid

end Without

section Cost

-- a run returns and leaves the diagrams as they are
def Keeps {α : Type} (m : Op A S α) (s : FOBDDManager A S) : Prop :=
  Succeeds m s fun _ s' => Inv True s' ∧ Extends s s'

structure BddStatistics.Estimates (E : BddStatistics V I A S W) : Prop where
  variablesOf : ∀ s k, Inv True s → s.order k ≠ none → Keeps (E.variablesOf k) s
  indicesOf : ∀ s k, Inv True s → s.order k ≠ none → Keeps (E.indicesOf k) s
  estimateCostAll : ∀ s b vars ind, Inv True s → s.bdd b ≠ none → Keeps (E.estimateCostAll b vars ind) s
  estimateNrAnswers : ∀ s b vars ind, Inv True s → s.bdd b ≠ none → Keeps (E.estimateNrAnswers b vars ind) s
  estimateKernelAnswers : ∀ s k vars ind, Inv True s → s.order k ≠ none →
    Keeps (E.estimateKernelAnswers k vars ind) s
  estimateChance : ∀ s k, Inv True s → s.order k ≠ none → Keeps (E.estimateChance k) s

theorem MadeMore.dropped (h : Inv True s) {b k t f : ℕ} (hb : s.bdd b = some (.branch k t f))
    (hf : isGoalbdd (!goal) f = true) : MadeMore goal s s b t := by
  refine ⟨h, Extends.refl s, (h.children hb).1, fun k' hk' => ?_, fun w => ?_⟩
  · exact ((h.sorted trivial).ordered b k t f hb).1.trans (hk' k t f hb)
  · cases goal with
    | true =>
      obtain rfl : f = falsebdd := by simpa [isGoalbdd] using hf
      intro hw
      rcases (holds_branch hb).mp hw with ⟨-, hw⟩ | ⟨-, hw⟩
      · exact hw
      · exact absurd hw (h.not_holds_false w)
    | false =>
      obtain rfl : f = truebdd := by simpa [isGoalbdd] using hf
      intro hw
      refine (holds_branch hb).mpr ?_
      by_cases hk : w k
      · exact Or.inl ⟨hk, hw⟩
      · exact Or.inr ⟨hk, h.holds_true w⟩

theorem MadeMore.dropped_low (h : Inv True s) {b k t f : ℕ} (hb : s.bdd b = some (.branch k t f))
    (ht : isGoalbdd (!goal) t = true) : MadeMore goal s s b f := by
  refine ⟨h, Extends.refl s, (h.children hb).2.1, fun k' hk' => ?_, fun w => ?_⟩
  · exact ((h.sorted trivial).ordered b k t f hb).2.trans (hk' k t f hb)
  · cases goal with
    | true =>
      obtain rfl : t = falsebdd := by simpa [isGoalbdd] using ht
      intro hw
      rcases (holds_branch hb).mp hw with ⟨-, hw⟩ | ⟨-, hw⟩
      · exact absurd hw (h.not_holds_false w)
      · exact hw
    | false =>
      obtain rfl : t = truebdd := by simpa [isGoalbdd] using ht
      intro hw
      refine (holds_branch hb).mpr ?_
      by_cases hk : w k
      · exact Or.inl ⟨hk, h.holds_true w⟩
      · exact Or.inr ⟨hk, hw⟩

variable {E : BddStatistics V I A S W}

theorem getTotalWeigthedCost_keeps [Add W] [Mul W] (hE : E.Estimates) (h : Inv True s) {b : ℕ} (hb : s.bdd b ≠ none)
    (vars : Finset V) (ind : Finset I) (weightPerAns : W) :
    Keeps (getTotalWeigthedCost E b vars ind weightPerAns) s := by
  refine Succeeds.bind ((hE.estimateCostAll s b vars ind h hb).mono ?_)
  rintro bddCost s1 ⟨h1, he1⟩
  refine Succeeds.bind ((hE.estimateNrAnswers s1 b vars ind h1 (he1.valid hb)).mono ?_)
  rintro bddAnswers s2 ⟨h2, he2⟩
  exact Succeeds.pure ⟨h2, he1.trans he2⟩

theorem cheaperBranch_drops [Add W] [Mul W] [LT W] [DecidableLT W] (hE : E.Estimates) (h : Inv True s) {b k t f : ℕ}
    (hb : s.bdd b = some (.branch k t f)) (vars : Finset V) (ind : Finset I) (weightPerAns : W) :
    Succeeds (cheaperBranch E goal b vars ind weightPerAns) s fun o s' => (Inv True s' ∧ Extends s s') ∧
      ∀ b', o = some b' → (b' = t ∨ b' = f) ∧ MadeMore goal s s' b b' := by
  obtain ⟨ht, hf, -⟩ := h.children hb
  have hbv : s.bdd b ≠ none := by rw [hb]; exact Option.some_ne_none _
  refine Succeeds.bind ((getTotalWeigthedCost_keeps hE h hbv vars ind weightPerAns).mono ?_)
  rintro totalBddCost s1 ⟨h1, he1⟩
  have hb1 := he1.bdd b _ hb
  have hlater : MadeMore goal s s1 b b := MadeMore.later h h1 he1 hbv
  refine Succeeds.bind ((truebranch_succeeds hb1).mono ?_)
  rintro _ _ ⟨rfl, rfl⟩
  refine Succeeds.bind ((falsebranch_succeeds hb1).mono ?_)
  rintro _ _ ⟨rfl, rfl⟩
  split_ifs with hgf hgt
  · have hm := hlater.trans (MadeMore.dropped h1 hb1 hgf)
    refine Succeeds.bind ((getTotalWeigthedCost_keeps hE h1 (he1.valid ht) vars ind weightPerAns).mono ?_)
    rintro totalBranchCost s2 ⟨h2, he2⟩
    have hm2 := hm.trans (MadeMore.later h1 h2 he2 hm.valid)
    split_ifs
    · exact Succeeds.pure ⟨⟨h2, he1.trans he2⟩, fun b' hb' => by cases hb'; exact ⟨Or.inl rfl, hm2⟩⟩
    · exact Succeeds.pure ⟨⟨h2, he1.trans he2⟩, fun b' hb' => by cases hb'⟩
  · have hm := hlater.trans (MadeMore.dropped_low h1 hb1 hgt)
    refine Succeeds.bind ((getTotalWeigthedCost_keeps hE h1 (he1.valid hf) vars ind weightPerAns).mono ?_)
    rintro totalBranchCost s2 ⟨h2, he2⟩
    have hm2 := hm.trans (MadeMore.later h1 h2 he2 hm.valid)
    split_ifs
    · exact Succeeds.pure ⟨⟨h2, he1.trans he2⟩, fun b' hb' => by cases hb'; exact ⟨Or.inr rfl, hm2⟩⟩
    · exact Succeeds.pure ⟨⟨h2, he1.trans he2⟩, fun b' hb' => by cases hb'⟩
  · exact Succeeds.pure ⟨⟨h1, he1⟩, fun b' hb' => by cases hb'⟩

-- the diagram itself, or one that unfolds to less
def NoLarger (s : FOBDDManager A S) (m : ℕ) (b r : ℕ) : Prop := r = b ∨ ∃ m' < m, Branchings s.bdd r m'

theorem NoLarger.exists_branchings {m b r : ℕ} (h : NoLarger s m b r) (hb : Branchings s.bdd b m) :
    ∃ m' ≤ m, Branchings s.bdd r m' := by
  rcases h with rfl | ⟨m', hm', hr⟩
  · exact ⟨m, le_rfl, hb⟩
  · exact ⟨m', hm'.le, hr⟩

-- an operation that makes more of the diagrams that unfold to less than n
def MakesMore (goal : Bool) (n : ℕ) (rec : ℕ → Finset V → Finset I → W → Op A S ℕ) : Prop :=
  ∀ s b vars ind weightPerAns m, Inv True s → Branchings s.bdd b m → m < n →
    Succeeds (rec b vars ind weightPerAns) s fun r s' => MadeMore goal s s' b r ∧ NoLarger s' m b r

variable [DecidableEq V] [DecidableEq I] [Sub W] [Mul W] [One W]

theorem makeMoreBranches_makesMore (hE : E.Estimates) {rec : ℕ → Finset V → Finset I → W → Op A S ℕ} {n : ℕ}
    (hrec : MakesMore goal n rec) (h : Inv True s) {b k t f mt mf : ℕ} (hb : s.bdd b = some (.branch k t f))
    (ht : Branchings s.bdd t mt) (hf : Branchings s.bdd f mf) (hn : mt + mf < n) (vars : Finset V)
    (ind : Finset I) (kernelvars : Finset V) (kernelindices : Finset I) (weightPerAns : W) :
    Succeeds (makeMoreBranches E rec b vars ind kernelvars kernelindices weightPerAns) s fun r s' =>
      ∃ s1, MadeMore goal s s1 t r.1 ∧ MadeMore goal s1 s' f r.2 ∧ NoLarger s1 mt t r.1 ∧ NoLarger s' mf f r.2 := by
  obtain ⟨htv, hfv, hk⟩ := h.children hb
  refine Succeeds.bind ((kernelOf_succeeds hb).mono ?_)
  rintro _ _ ⟨rfl, rfl⟩
  refine Succeeds.bind ((hE.estimateKernelAnswers _ _ kernelvars kernelindices h hk).mono ?_)
  rintro kernelAnswers s1 ⟨h1, he1⟩
  refine Succeeds.bind ((hE.estimateChance s1 _ h1 (he1.order_ne hk)).mono ?_)
  rintro chance s2 ⟨h2, he2⟩
  have he := he1.trans he2
  refine Succeeds.bind ((truebranch_succeeds (he.bdd b _ hb)).mono ?_)
  rintro _ _ ⟨rfl, rfl⟩
  refine Succeeds.bind ((hrec _ _ _ _ _ mt h2 (ht.of_extends he.bdd) (by omega)).mono ?_)
  rintro nt s3 ⟨hm3, hl3⟩
  refine Succeeds.bind ((falsebranch_succeeds ((he.trans hm3.ext).bdd b _ hb)).mono ?_)
  rintro _ _ ⟨rfl, rfl⟩
  refine Succeeds.bind ((hrec _ _ _ _ _ mf hm3.inv (hf.of_extends (he.trans hm3.ext).bdd) (by omega)).mono ?_)
  rintro nf s4 ⟨hm4, hl4⟩
  exact Succeeds.pure ⟨_, (MadeMore.later h h2 he htv).trans hm3, hm4, hl3, hl4⟩

theorem makeMore_makesMore [Add W] [LT W] [DecidableLT W] (hE : E.Estimates) (n : ℕ) : MakesMore goal n (makeMore E goal n) := by
  induction n with
  | zero => exact fun _ _ _ _ _ _ _ _ hn => absurd hn (Nat.not_lt_zero _)
  | succ n ih =>
    intro s b vars ind weightPerAns m h hm hn
    rw [makeMore]
    cases hm with
    | leaf hb =>
      have hleaf := h.leaves b _ hb
      have hbase : b = truebdd ∨ b = falsebdd := by
        split_ifs at hleaf
        · exact Or.inl hleaf
        · exact Or.inr hleaf
      rw [if_pos hbase]
      exact Succeeds.pure ⟨MadeMore.refl h (by rw [hb]; exact Option.some_ne_none _), Or.inl rfl⟩
    | @branch _ t f k mt mf hb ht hf =>
      obtain ⟨htv, hfv, hk⟩ := h.children hb
      have hbv : s.bdd b ≠ none := by rw [hb]; exact Option.some_ne_none _
      obtain ⟨hk1, hk2, hb1, hb2⟩ := h.labels hb
      rw [if_neg (by simp [hb1, hb2])]
      refine Succeeds.bind ((kernelOf_succeeds hb).mono ?_)
      rintro _ _ ⟨rfl, rfl⟩
      refine Succeeds.bind ((hE.variablesOf _ _ h hk).mono ?_)
      rintro kernelvars s1 ⟨h1, he1⟩
      refine Succeeds.bind ((kernelOf_succeeds (he1.bdd b _ hb)).mono ?_)
      rintro _ _ ⟨rfl, rfl⟩
      refine Succeeds.bind ((hE.indicesOf _ _ h1 (he1.order_ne hk)).mono ?_)
      rintro kernelindices s2 ⟨h2, he2⟩
      have he2 := he1.trans he2
      have hlater : MadeMore goal s s2 b b := MadeMore.later h h2 he2 hbv
      refine Succeeds.bind ((@cheaperBranch_drops _ _ _ _ _ _ goal _ _ _ _ _ hE h2 _ _ _ _ (he2.bdd b _ hb) vars ind weightPerAns).mono ?_)
      rintro o s3 ⟨⟨h3, he3⟩, ho⟩
      have he3 := he2.trans he3
      cases o with
      | some b' =>
        obtain ⟨hb', hm3⟩ := ho b' rfl
        have hsize : ∃ m' < mt + mf + 1, Branchings s3.bdd b' m' := by
          rcases hb' with rfl | rfl
          · exact ⟨mt, by omega, ht.of_extends he3.bdd⟩
          · exact ⟨mf, by omega, hf.of_extends he3.bdd⟩
        obtain ⟨m', hm', hsize⟩ := hsize
        refine (ih s3 b' vars ind weightPerAns m' h3 hsize (by omega)).mono ?_
        rintro r s4 ⟨hm4, hl4⟩
        obtain ⟨m'', hm'', hr⟩ := hl4.exists_branchings (hsize.of_extends hm4.ext.bdd)
        exact ⟨(hlater.trans hm3).trans hm4, Or.inr ⟨m'', by omega, hr⟩⟩
      | none =>
        have hb3 := he3.bdd b _ hb
        refine Succeeds.bind ((makeMoreBranches_makesMore hE ih h3 hb3 (ht.of_extends he3.bdd)
          (hf.of_extends he3.bdd) (by omega) vars ind kernelvars kernelindices weightPerAns).mono ?_)
        rintro ⟨nt, nf⟩ s5 ⟨s4, hm4, hm5, hl4, hl5⟩
        have he5 := hm4.ext.trans hm5.ext
        have hb5 := he5.bdd b _ hb3
        have hlater5 : MadeMore goal s s5 b b := MadeMore.later h hm5.inv (he3.trans he5) hbv
        refine Succeeds.bind ((truebranch_succeeds hb5).mono ?_)
        rintro _ _ ⟨rfl, rfl⟩
        refine Succeeds.bind ((falsebranch_succeeds hb5).mono ?_)
        rintro _ _ ⟨rfl, rfl⟩
        split_ifs with hchanged
        · refine Succeeds.bind ((kernelOf_succeeds hb5).mono ?_)
          rintro _ _ ⟨rfl, rfl⟩
          refine Succeeds.bind ((getBDD_succeeds s5 k nt nf).after fun b' s6 hr _ => ?_)
          have hm6 : MadeMore goal s3 s6 b b' := MadeMore.node h3 hb3 hm4 hm5 hr
          have hsize : ∃ a b, Branchings s5.bdd nt a ∧ Branchings s5.bdd nf b ∧ a + b < mt + mf := by
            obtain ⟨a, ha, hnt⟩ := hl4.exists_branchings (ht.of_extends (he3.trans hm4.ext).bdd)
            obtain ⟨b, hb, hnf⟩ := hl5.exists_branchings (hf.of_extends (he3.trans he5).bdd)
            rcases hchanged with hne | hne
            · obtain ⟨a, ha, hnt⟩ := hl4.resolve_left hne
              exact ⟨a, b, hnt.of_extends hm5.ext.bdd, hnf, by omega⟩
            · obtain ⟨b, hb, hnf⟩ := hl5.resolve_left hne
              exact ⟨a, b, hnt.of_extends hm5.ext.bdd, hnf, by omega⟩
          obtain ⟨a, a', hnt, hnf, hlt⟩ := hsize
          obtain ⟨m', hm', hb'⟩ := getBDD_branchings hm5.inv ⟨hk1, hk2⟩ hr hnt hnf
          refine (ih s6 b' vars ind weightPerAns m' hm6.inv hb' (by omega)).mono ?_
          rintro r s7 ⟨hm7, hl7⟩
          obtain ⟨m'', hm'', hr⟩ := hl7.exists_branchings (hb'.of_extends hm7.ext.bdd)
          have hlater3 : MadeMore goal s s3 b b := MadeMore.later h h3 he3 hbv
          exact ⟨(hlater3.trans hm6).trans hm7, Or.inr ⟨m'', by omega, hr⟩⟩
        · exact Succeeds.pure ⟨hlater5, Or.inl rfl⟩

end Cost

section Result

-- under every interpretation; the kernels may mean anything
def Implies (s : FOBDDManager A S) (b r : ℕ) : Prop :=
  ∀ (I : Interpretation A S) (v : ℕ → I.Env → Prop) (e : I.Env), I.meaning s v b e → I.meaning s v r e

-- what a call on b returns: an ordered, reduced diagram in a manager that has only grown
structure Approximates (s s' : FOBDDManager A S) (r : ℕ) : Prop where
  canonical : Canonical s'.lt s'.bdd
  ext : Extends s s'
  valid : s'.bdd r ≠ none

theorem MadeMore.approximates {b r : ℕ} (h : MadeMore goal s s' b r) : Approximates s s' r :=
  ⟨h.inv.canonical trivial, h.ext, h.valid⟩

theorem MadeMore.implied (hs : Inv True s) {b r : ℕ} (hb : s.bdd b ≠ none) (h : MadeMore true s s' b r) :
    Implies s' b r :=
  fun _ _ _ hm => h.towards _ ((h.ext.holds hs hb _).mp hm)

theorem MadeMore.implies (hs : Inv True s) {b r : ℕ} (hb : s.bdd b ≠ none) (h : MadeMore false s s' b r) :
    Implies s' r b :=
  fun _ _ _ hm => (h.ext.holds hs hb _).mpr (h.towards _ hm)

-- P(), with the atom and its predicate the number 0
def atomManager : FOBDDManager ℕ Unit :=
  (createManager.withKernel .standard (.atom 0 [])).withBDD 2 truebdd falsebdd

def unitCost : BddStatistics ℕ ℕ ℕ Unit ℤ where
  variablesOf _ := pure ∅
  indicesOf _ := pure ∅
  estimateCostAll _ _ _ := pure 1
  estimateNrAnswers _ _ _ := pure 1
  estimateKernelAnswers _ _ _ := pure 1
  estimateChance _ := pure 1
  univNrAnswers _ _ := 1

theorem unitCost_estimates : unitCost.Estimates where
  variablesOf s _ h _ := Succeeds.pure ⟨h, Extends.refl s⟩
  indicesOf s _ h _ := Succeeds.pure ⟨h, Extends.refl s⟩
  estimateCostAll s _ _ _ h _ := Succeeds.pure ⟨h, Extends.refl s⟩
  estimateNrAnswers s _ _ _ h _ := Succeeds.pure ⟨h, Extends.refl s⟩
  estimateKernelAnswers s _ _ _ h _ := Succeeds.pure ⟨h, Extends.refl s⟩
  estimateChance s _ h _ := Succeeds.pure ⟨h, Extends.refl s⟩

theorem atomManager_inv : Inv True atomManager ∧ Nested atomManager := by
  have hx : (createManager : FOBDDManager ℕ Unit).ContentValid (.atom 0 []) := fun b hb => absurd hb List.not_mem_nil
  have hk : Inv True (createManager.withKernel .standard (.atom 0 []) : FOBDDManager ℕ Unit) :=
    createManager_inv.withKernel_inv (by decide) hx
  have hn : Nested (createManager.withKernel .standard (.atom 0 []) : FOBDDManager ℕ Unit) :=
    createManager_nested.withKernel createManager_inv hx
  refine ⟨hk.withBDD_inv hk.true_valid hk.false_valid ⟨⟨.standard, 0⟩, rfl, by decide⟩ (by decide) rfl
    fun _ => ⟨above_of_leaf hk.leafTrue 2, above_of_leaf hk.leafFalse 2⟩, ?_⟩
  exact hn.of_content hk.withBDD_extends rfl rfl

example : ((makeMoreTrueWithout (fun a => {a}) (fun _ _ => false) ({0} : Finset ℕ) 2 2).run atomManager).map
    Prod.fst = some truebdd := by decide

end Result

end FOBDDManager

end FoBdd
