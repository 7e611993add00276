import DeclarativeLocalSearch.FoBdd.Reordering

namespace FoBdd

open DecisionDiagram Relation

variable {V A S : Type}

namespace FOBDDManager

open Op

-- the numbers of the kernels of a category have no gaps
structure Packed (s : FOBDDManager A S) : Prop where
  fresh : ∀ k, s.nextkernel ≤ k → s.order k = none
  full : ∀ cat, cat ≠ .trueFalse → ∀ n < s.nextorder cat, ∃ k, s.order k = some ⟨cat, n⟩

def Packs (s s' : FOBDDManager A S) : Prop := s.Packed → s'.Packed

instance : IsPreorder (FOBDDManager A S) Packs where
  refl _ := id
  trans _ _ _ h h' := h' ∘ h

theorem packs_kernelwise : Kernelwise (Packs : FOBDDManager A S → FOBDDManager A S → Prop) := by
  intro s s' h hs
  refine ⟨fun k hk => ?_, fun cat hcat n hn => ?_⟩
  · rw [h.order]
    exact hs.fresh k (h.nextkernel ▸ hk)
  · rw [h.order]
    exact hs.full cat hcat n (h.nextorder ▸ hn)

theorem createManager_packed : (createManager : FOBDDManager A S).Packed where
  fresh k hk := (createManager_inv.freshkernel k hk).1
  full cat hcat n hn := by
    have hzero : (createManager : FOBDDManager A S).nextorder cat = 0 := if_neg hcat
    rw [hzero] at hn
    exact absurd hn (Nat.not_lt_zero n)

section Kernels

variable [DecidableEq A] [DecidableEq S]

theorem Packed.withKernel {s : FOBDDManager A S} (h : s.Packed) (cat : KernelOrderCategory) (x : KernelContent A S) :
    (s.withKernel cat x).Packed := by
  refine ⟨fun k hk => ?_, fun cat' hcat n hn => ?_⟩
  · have hne : k ≠ s.nextkernel := Nat.ne_of_gt hk
    exact (Function.update_of_ne hne _ _).trans (h.fresh k (Nat.le_of_succ_le hk))
  · have hold : ∀ k, s.order k = some ⟨cat', n⟩ → (s.withKernel cat x).order k = some ⟨cat', n⟩ := by
      intro k hk
      have hne : k ≠ s.nextkernel := by
        rintro rfl
        exact absurd (hk.symm.trans (h.fresh _ le_rfl)) nofun
      exact (Function.update_of_ne hne _ _).trans hk
    have hnext : (s.withKernel cat x).nextorder = Function.update s.nextorder cat (s.nextorder cat + 1) := rfl
    rw [hnext, Function.update_apply] at hn
    split_ifs at hn with heq
    · subst heq
      rcases Nat.lt_succ_iff_lt_or_eq.mp hn with hlt | rfl
      · exact (h.full _ hcat n hlt).imp hold
      · exact ⟨s.nextkernel, withKernel_order_new⟩
    · exact (h.full cat' hcat n hn).imp hold

theorem lookupKernelContent_packs {category : Op A S Bool} (hcat : Reads category) (x : KernelContent A S) :
    Within Packs (lookupKernelContent category x) := by
  refine Within.get_bind fun s => ?_
  split
  · exact Within.pure _
  · refine (Within.reads hcat).bind fun v => ?_
    intro s k s' hr hs
    obtain ⟨-, rfl⟩ := newKernel_eq_some.mp hr
    exact hs.withKernel _ x

omit [DecidableEq A] [DecidableEq S] in
theorem changeSets_packs {rec : ℕ → ℕ → Op A S ℕ} (hrec : ∀ depth b, Within Packs (rec depth b)) (depth : ℕ)
    (vars : ℕ → ℕ) (j : ℕ) (sets : List ℕ) : Within Packs (changeSets rec depth vars j sets) := by
  induction sets generalizing j with
  | nil => exact Within.pure _
  | cons b sets ih => exact (hrec _ b).bind fun b' => (ih (j + 1)).bind fun sets' => Within.pure _

variable (L : TermLanguage V A S)

theorem getAtomKernel_packs (n : ℕ) (terms : A) (sets : List ℕ) : Within Packs (getAtomKernel L n terms sets) := by
  unfold getAtomKernel
  split
  · exact Within.pure _
  · exact lookupKernelContent_packs (contentContains_reads L (containsDeBruijnIndex_reads L n) _ _) _

theorem getAggKernel_packs (n : ℕ) (left right : A) (sets : List ℕ) :
    Within Packs (getAggKernel L n left right sets) :=
  lookupKernelContent_packs (contentContains_reads L (containsDeBruijnIndex_reads L n) _ _) _

theorem getQuantKernel_packs (n : ℕ) (sort : S) (b : ℕ) : Within Packs (getQuantKernel L n sort b) := by
  unfold getQuantKernel
  refine (Within.pure _).ite ((Within.pure _).ite ((Within.reads (isSolved_reads L n sort b)).bind fun v => ?_))
  exact (Within.pure _).ite (lookupKernelContent_packs (containsDeBruijnIndex_reads L n b 1) _)

theorem changeContent_packs {rec : ℕ → ℕ → Op A S ℕ} (hrec : ∀ depth b, Within Packs (rec depth b))
    (terms : ℕ → A → A) (n depth k : ℕ) (x : KernelContent A S) :
    Within Packs (changeContent L terms n rec depth k x) := by
  cases x with
  | trueKernel => exact Within.pure k
  | falseKernel => exact Within.pure k
  | atom a sets => exact (changeSets_packs hrec depth _ 0 sets).bind fun sets' => getAtomKernel_packs L n _ sets'
  | quant sort b => exact (hrec (depth + 1) b).bind fun b' => getQuantKernel_packs L n sort b'
  | agg left right sets =>
    exact (changeSets_packs hrec depth _ 0 sets).bind fun sets' => getAggKernel_packs L n _ _ sets'

theorem change_packs (terms : ℕ → A → A) (n depth b : ℕ) : Within Packs (change L terms n depth b) := by
  induction n generalizing depth b with
  | zero => exact Within.failure
  | succ n ih =>
    rw [change]
    refine (Within.pure _).ite ((Within.pure _).ite ((Within.reads (kernelOf_reads b)).bind fun k => ?_))
    refine (Within.reads (getContent_reads k)).bind fun x => ?_
    refine (changeContent_packs L ih terms n depth k x).bind fun nk => ?_
    refine (Within.reads (truebranch_reads b)).bind fun t => (ih depth t).bind fun nt => ?_
    exact (Within.reads (falsebranch_reads b)).bind fun f => (ih depth f).bind fun nf =>
      ifthenelse_within packs_kernelwise n nk nt nf

variable (ok : FOBDDManager A S → ℕ → ℕ → Bool)

theorem quantifyIndependent_packs (n : ℕ) (sort : S) (b : ℕ) : Within Packs (quantifyIndependent L ok n sort b) := by
  unfold quantifyIndependent
  split
  · exact (negation_within packs_kernelwise n b).ite (Within.pure b)
  · refine Within.bind ((getAtomKernel_packs L n _ _).bind fun k => ?_) fun k => Within.get_bind fun s => ?_
    · exact (getBDD_within packs_kernelwise k _ _).bind fun b' => getQuantKernel_packs L n sort b'
    · exact (getBDD_within packs_kernelwise k b _).ite Within.failure

theorem quantify_packs (n : ℕ) (sort : S) (b : ℕ) : Within Packs (quantify L ok n sort b) := by
  induction n generalizing sort b with
  | zero => exact Within.failure
  | succ n ih =>
    have hroot : ∀ k, Within Packs (quantifyRoot L n (quantify L ok n) sort b k) := by
      intro k
      refine (Within.reads (getOrder_reads k)).bind fun o => Within.ite ?_ ?_
      · refine (Within.reads (falsebranch_reads b)).bind fun f => (ih sort f).bind fun nf => ?_
        exact (Within.reads (truebranch_reads b)).bind fun t => (ih sort t).bind fun nt =>
          ifthenelse_within packs_kernelwise n k nt nf
      · exact (getQuantKernel_packs L n sort b).bind fun k' => getBDD_within packs_kernelwise k' _ _
    have hdependent : Within Packs (quantifyDependent L n (quantify L ok n) sort b) := by
      refine Within.get_bind fun s => ?_
      split
      · exact Within.pure _
      · refine (Within.reads (kernelOf_reads b)).bind fun k => (hroot k).bind fun r => ?_
        refine Within.bind (Within.modify fun s hs => ?_) fun _ => Within.pure r
        exact ⟨hs.fresh, hs.full⟩
    rw [quantify]
    refine (Within.pure _).ite ((quantifyIndependent_packs L ok n sort b).ite ?_)
    exact (Within.reads (containsDeBruijnIndex_reads L n b 0)).bind fun v =>
      hdependent.ite (quantifyIndependent_packs L ok n sort b)

theorem existsquantify_packs (n : ℕ) (var : V) (b : ℕ) : Within Packs (existsquantify L ok n var b) :=
  (change_packs L _ n 0 b).bind fun b' => quantify_packs L ok n _ b'

theorem univquantify_packs (n : ℕ) (var : V) (b : ℕ) : Within Packs (univquantify L ok n var b) :=
  (negation_within packs_kernelwise n b).bind fun b' => (existsquantify_packs L ok n var b').bind fun b'' =>
    negation_within packs_kernelwise n b''

variable {L ok} {before : ℕ → ℕ → Bool}

theorem Step.packed {s s' : FOBDDManager A S} (h : Step L before ok s s') (hs : s.Packed) : s'.Packed := by
  cases h with
  | atomKernel _ h => exact getAtomKernel_packs L _ _ _ _ _ _ h hs
  | aggKernel _ h => exact getAggKernel_packs L _ _ _ _ _ _ _ h hs
  | quantKernel _ h => exact getQuantKernel_packs L _ _ _ _ _ _ h hs
  | negation _ h => exact negation_within packs_kernelwise _ _ _ _ _ h hs
  | conjunction _ _ h => exact conjunction_within packs_kernelwise before _ _ _ _ _ _ h hs
  | disjunction _ _ h => exact disjunction_within packs_kernelwise before _ _ _ _ _ _ h hs
  | ifthenelse _ _ _ h => exact ifthenelse_within packs_kernelwise _ _ _ _ _ _ _ h hs
  | existsquantify _ h => exact existsquantify_packs L ok _ _ _ _ _ _ h hs
  | univquantify _ h => exact univquantify_packs L ok _ _ _ _ _ _ h hs
  | substitute _ h => exact change_packs L _ _ _ _ _ _ _ h hs

end Kernels

end FOBDDManager

end FoBdd
