import DeclarativeLocalSearch.FoBdd.Invariant

namespace FoBdd

open DecisionDiagram

variable {A S : Type}

namespace FOBDDManager

theorem getOrder_eq_some {s s' : FOBDDManager A S} {k : ℕ} {o : KernelOrder} :
    (getOrder k : Op A S _).run s = some (o, s') ↔ s.order k = some o ∧ s = s' := by
  rw [getOrder, Op.get_bind]
  cases ho : s.order k with
  | none => simp [Op.failure_eq_some]
  | some o' => simp

theorem kernelLess_eq_some {s s' : FOBDDManager A S} {k k' : ℕ} {v : Bool} :
    (kernelLess k k' : Op A S _).run s = some (v, s') ↔
      ∃ o o', s.order k = some o ∧ s.order k' = some o' ∧ o.less o' = v ∧ s = s' := by
  unfold kernelLess
  simp only [Op.bind_eq_some, getOrder_eq_some, Op.pure_eq_some]
  constructor
  · rintro ⟨o, t, ⟨ho, rfl⟩, o', u, ⟨ho', rfl⟩, hv, rfl⟩
    exact ⟨o, o', ho, ho', hv, rfl⟩
  · rintro ⟨o, o', ho, ho', hv, rfl⟩
    exact ⟨o, s, ⟨ho, rfl⟩, o', s, ⟨ho', rfl⟩, hv, rfl⟩

theorem kernelOf_eq_some {s s' : FOBDDManager A S} {b k : ℕ}
    (h : (kernelOf b : Op A S _).run s = some (k, s')) :
    s = s' ∧ ((∃ v, s.bdd b = some (.leaf v) ∧ k = if v then truekernel else falsekernel) ∨
      ∃ hi lo, s.bdd b = some (.branch k hi lo)) := by
  rw [kernelOf, Op.get_bind] at h
  split at h
  · rename_i v hb
    obtain ⟨rfl, rfl⟩ := Op.pure_eq_some.mp h
    exact ⟨rfl, Or.inl ⟨v, hb, rfl⟩⟩
  · rename_i k' hi lo hb
    obtain ⟨rfl, rfl⟩ := Op.pure_eq_some.mp h
    exact ⟨rfl, Or.inr ⟨hi, lo, hb⟩⟩
  · exact absurd h Op.failure_eq_some

theorem truebranch_eq_some {s s' : FOBDDManager A S} {b t : ℕ}
    (h : (truebranch b : Op A S _).run s = some (t, s')) :
    s = s' ∧ ∃ k f, s.bdd b = some (.branch k t f) := by
  rw [truebranch, Op.get_bind] at h
  split at h
  · rename_i k hi lo hb
    obtain ⟨rfl, rfl⟩ := Op.pure_eq_some.mp h
    exact ⟨rfl, k, lo, hb⟩
  · exact absurd h Op.failure_eq_some

theorem falsebranch_eq_some {s s' : FOBDDManager A S} {b f : ℕ}
    (h : (falsebranch b : Op A S _).run s = some (f, s')) :
    s = s' ∧ ∃ k t, s.bdd b = some (.branch k t f) := by
  rw [falsebranch, Op.get_bind] at h
  split at h
  · rename_i k hi lo hb
    obtain ⟨rfl, rfl⟩ := Op.pure_eq_some.mp h
    exact ⟨rfl, k, hi, hb⟩
  · exact absurd h Op.failure_eq_some

def withBDD (s : FOBDDManager A S) (k t f : ℕ) : FOBDDManager A S :=
  { s with
    bdd := Function.update s.bdd s.nextbdd (some (.branch k t f))
    nextbdd := s.nextbdd + 1
    bddtable := Table.insert3 s.bddtable k f t s.nextbdd }

theorem addBDD_eq_some {s s' : FOBDDManager A S} {k t f r : ℕ} :
    (addBDD k t f : Op A S _).run s = some (r, s') ↔ s.nextbdd = r ∧ s.withBDD k t f = s' := by
  rw [addBDD, Op.get_bind]
  simp only [Op.bind_eq_some, Op.modify_eq_some, Op.pure_eq_some]
  constructor
  · rintro ⟨-, t', rfl, rfl, rfl⟩
    exact ⟨rfl, rfl⟩
  · rintro ⟨rfl, rfl⟩
    exact ⟨(), _, rfl, rfl, rfl⟩

section WithBDD

variable {c : Prop} {s : FOBDDManager A S} {k t f : ℕ}

theorem withBDD_bdd_new : (s.withBDD k t f).bdd s.nextbdd = some (.branch k t f) :=
  Function.update_self _ _ _

theorem withBDD_bdd_old {b : ℕ} (h : b ≠ s.nextbdd) : (s.withBDD k t f).bdd b = s.bdd b :=
  Function.update_of_ne h _ _

theorem Inv.ne_next (h : Inv c s) {b : ℕ} (hb : s.bdd b ≠ none) : b ≠ s.nextbdd :=
  fun he => hb (he ▸ h.freshbdd s.nextbdd le_rfl)

theorem Inv.withBDD_extends (h : Inv c s) : Extends s (s.withBDD k t f) where
  bdd b n hb := by
    have hne : b ≠ s.nextbdd := h.ne_next (by rw [hb]; exact Option.some_ne_none n)
    rw [withBDD_bdd_old hne]
    exact hb
  order _ _ hk := hk
  content _ _ hk := hk

theorem withBDD_bdd {b : ℕ} {n : Node ℕ ℕ} (hb : (s.withBDD k t f).bdd b = some n) :
    (b = s.nextbdd ∧ n = .branch k t f) ∨ (b ≠ s.nextbdd ∧ s.bdd b = some n) := by
  by_cases hne : b = s.nextbdd
  · subst hne
    rw [withBDD_bdd_new] at hb
    exact Or.inl ⟨rfl, (Option.some.inj hb).symm⟩
  · rw [withBDD_bdd_old hne] at hb
    exact Or.inr ⟨hne, hb⟩

theorem Inv.withBDD_sorted (h : Inv c s) (ht : s.bdd t ≠ none) (hf : s.bdd f ≠ none) (hne : f ≠ t)
    (hnew : s.bddtable k f t = none) (hs : c → Above s.lt s.bdd k t ∧ Above s.lt s.bdd k f)
    (hc : c) : (s.withBDD k t f).Sorted := by
  have hext : Extends s (s.withBDD k t f) := h.withBDD_extends
  have hold := h.sorted hc
  refine ⟨?_, ?_, ?_⟩
  · intro b k' hi lo hb
    rcases withBDD_bdd hb with ⟨-, hn⟩ | ⟨-, hb⟩
    · cases hn
      exact ⟨hext.above ht (hs hc).1, hext.above hf (hs hc).2⟩
    · obtain ⟨hhi, hlo⟩ := h.closed b k' hi lo hb
      obtain ⟨h1, h2⟩ := hold.ordered b k' hi lo hb
      exact ⟨hext.above hhi h1, hext.above hlo h2⟩
  · intro b k' hi lo hb
    rcases withBDD_bdd hb with ⟨-, hn⟩ | ⟨-, hb⟩
    · cases hn
      exact hne.symm
    · exact hold.reduced b k' hi lo hb
  · intro b k' hi lo hb
    rcases withBDD_bdd hb with ⟨rfl, hn⟩ | ⟨-, hb⟩
    · cases hn
      exact (Table.insert3_apply ..).trans (if_pos ⟨rfl, rfl, rfl⟩)
    · have htab := hold.hashed b k' hi lo hb
      refine (Table.insert3_apply ..).trans ((if_neg ?_).trans htab)
      rintro ⟨rfl, rfl, rfl⟩
      rw [hnew] at htab
      cases htab

theorem Inv.withBDD_inv (h : Inv c s) (ht : s.bdd t ≠ none) (hf : s.bdd f ≠ none)
    (hk : ∃ o, s.order k = some o ∧ o.category ≠ .trueFalse) (hne : f ≠ t)
    (hnew : s.bddtable k f t = none) (hs : c → Above s.lt s.bdd k t ∧ Above s.lt s.bdd k f) :
    Inv c (s.withBDD k t f) := by
  have hext : Extends s (s.withBDD k t f) := h.withBDD_extends
  have hholds : ∀ {b}, s.bdd b ≠ none → ∀ w,
      Holds (s.withBDD k t f).bdd w b ↔ Holds s.bdd w b := fun hb w => hext.holds h hb w
  exact {
    leafTrue := hext.bdd _ _ h.leafTrue
    leafFalse := hext.bdd _ _ h.leafFalse
    leaves := fun b v hb => by
      rcases withBDD_bdd hb with ⟨-, hn⟩ | ⟨-, hb⟩
      · cases hn
      · exact h.leaves b v hb
    closed := fun b k' hi lo hb => by
      rcases withBDD_bdd hb with ⟨-, hn⟩ | ⟨-, hb⟩
      · cases hn
        exact ⟨hext.valid ht, hext.valid hf⟩
      · obtain ⟨hhi, hlo⟩ := h.closed b k' hi lo hb
        exact ⟨hext.valid hhi, hext.valid hlo⟩
    acyclic := acyclic_update h.acyclic h.closed (h.freshbdd _ le_rfl) ht hf
    freshbdd := fun b hb => by
      have hb : s.nextbdd + 1 ≤ b := hb
      exact (Function.update_of_ne (by omega) _ _).trans (h.freshbdd b (by omega))
    freshkernel := h.freshkernel
    constants := h.constants
    constant := h.constant
    labelled := fun b k' hi lo hb => by
      rcases withBDD_bdd hb with ⟨-, hn⟩ | ⟨-, hb⟩
      · cases hn
        exact hk
      · exact h.labelled b k' hi lo hb
    injective := h.injective
    kernels := h.kernels
    numbers := h.numbers
    quants := fun k' sort b hx => hext.valid (h.quants k' sort b hx)
    atoms := fun k' terms sets hx b hb => hext.valid (h.atoms k' terms sets hx b hb)
    aggs := fun k' left right sets hx b hb => hext.valid (h.aggs k' left right sets hx b hb)
    kerneltable := h.kerneltable
    bddtable := fun k' f' t' b hb => by
      rcases Table.of_insert3 hb with ⟨rfl, rfl, rfl, rfl⟩ | hb
      · exact withBDD_bdd_new
      · exact hext.bdd _ _ (h.bddtable k' f' t' b hb)
    negations := fun b r hr => by
      obtain ⟨hb, hr, hw⟩ := h.negations b r hr
      exact ⟨hext.valid hb, hext.valid hr, fun w => by rw [hholds hr, hholds hb, hw]⟩
    conjunctions := fun b b' r hr => by
      obtain ⟨hb, hb', hr, hw⟩ := h.conjunctions b b' r hr
      exact ⟨hext.valid hb, hext.valid hb', hext.valid hr, fun w => by
        rw [hholds hr, hholds hb, hholds hb', hw]⟩
    disjunctions := fun b b' r hr => by
      obtain ⟨hb, hb', hr, hw⟩ := h.disjunctions b b' r hr
      exact ⟨hext.valid hb, hext.valid hb', hext.valid hr, fun w => by
        rw [hholds hr, hholds hb, hholds hb', hw]⟩
    ifthenelses := fun k' t' f' r hr => by
      obtain ⟨hb, hb', hr, hw⟩ := h.ifthenelses k' t' f' r hr
      exact ⟨hext.valid hb, hext.valid hb', hext.valid hr, fun w => by
        rw [hholds hr, hholds hb, hholds hb', hw]⟩
    quantifieds := fun sort b r hr => by
      obtain ⟨hb, hr⟩ := h.quantifieds sort b r hr
      exact ⟨hext.valid hb, hext.valid hr⟩
    sorted := h.withBDD_sorted ht hf hne hnew hs }

end WithBDD

theorem getBDD_returns {c : Prop} {s s' : FOBDDManager A S} {k t f r : ℕ} (h : Inv c s)
    (hk : s.order k ≠ none) (ht : s.bdd t ≠ none) (hf : s.bdd f ≠ none)
    (hs : c → k ≠ truekernel → k ≠ falsekernel → Above s.lt s.bdd k t ∧ Above s.lt s.bdd k f)
    (hr : (getBDD k t f).run s = some (r, s')) :
    Returns c s s' r fun w => Choice (truth w k) (Holds s.bdd w t) (Holds s.bdd w f) := by
  unfold getBDD at hr
  split_ifs at hr with h1 h2 h3
  · obtain ⟨rfl, rfl⟩ := Op.pure_eq_some.mp hr
    exact ⟨h, Extends.refl _, ht, fun w => (choice_true (by simp [truth, h1])).symm⟩
  · obtain ⟨rfl, rfl⟩ := Op.pure_eq_some.mp hr
    exact ⟨h, Extends.refl _, hf, fun w => (choice_false (by simp [truth, h2])).symm⟩
  · obtain ⟨rfl, rfl⟩ := Op.pure_eq_some.mp hr
    subst h3
    exact ⟨h, Extends.refl _, hf, fun w => (choice_self _ _).symm⟩
  · have htruth : ∀ w, truth w k ↔ w k := fun w => by simp [truth, h1, h2]
    rw [Op.get_bind] at hr
    cases htab : s.bddtable k f t with
    | some b =>
      rw [htab] at hr
      obtain ⟨rfl, rfl⟩ := Op.pure_eq_some.mp hr
      have hb := h.bddtable k f t _ htab
      exact ⟨h, Extends.refl _, by rw [hb]; exact Option.some_ne_none _, fun w => by
        rw [holds_branch hb, htruth]⟩
    | none =>
      rw [htab] at hr
      obtain ⟨rfl, rfl⟩ := addBDD_eq_some.mp hr
      obtain ⟨o, ho⟩ := Option.ne_none_iff_exists'.mp hk
      have hext : Extends s (s.withBDD k t f) := h.withBDD_extends
      have hcat : o.category ≠ .trueFalse := fun hc => (h.constant k o ho hc).elim h1 h2
      refine ⟨h.withBDD_inv ht hf ⟨o, ho, hcat⟩ h3 htab fun hc => hs hc h1 h2, hext, ?_, ?_⟩
      · rw [withBDD_bdd_new]
        exact Option.some_ne_none _
      · intro w
        rw [holds_branch withBDD_bdd_new, hext.holds h ht, hext.holds h hf, htruth]

end FOBDDManager

end FoBdd
