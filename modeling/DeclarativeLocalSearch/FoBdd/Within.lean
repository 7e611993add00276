import DeclarativeLocalSearch.FoBdd.KernelTables

namespace FoBdd

open DecisionDiagram

variable {A S : Type}

namespace Op

variable {R : FOBDDManager A S → FOBDDManager A S → Prop} [IsPreorder (FOBDDManager A S) R]

-- every run that returns leads to a state that R relates to the first one
def Within (R : FOBDDManager A S → FOBDDManager A S → Prop) {α : Type} (m : Op A S α) : Prop :=
  ∀ s a s', m.run s = some (a, s') → R s s'

theorem Within.pure {α : Type} (a : α) : Within R (Pure.pure a : Op A S α) := fun _ _ _ h => by
  obtain ⟨-, rfl⟩ := pure_eq_some.mp h
  exact refl_of R _

theorem Within.reads {α : Type} {m : Op A S α} (h : Reads m) : Within R m := fun s a s' hr => by
  obtain rfl := h s a s' hr
  exact refl_of R s

omit [IsPreorder (FOBDDManager A S) R] in
theorem Within.failure {α : Type} : Within R (Alternative.failure : Op A S α) :=
  fun _ _ _ h => absurd h failure_eq_some

omit [IsPreorder (FOBDDManager A S) R] in
theorem Within.modify {f : FOBDDManager A S → FOBDDManager A S} (h : ∀ s, R s (f s)) :
    Within R (modify f : Op A S Unit) := fun s _ s' hr => by
  obtain rfl := modify_eq_some.mp hr
  exact h s

omit [IsPreorder (FOBDDManager A S) R] in
theorem Within.get_bind {α : Type} {f : FOBDDManager A S → Op A S α} (hf : ∀ s, Within R (f s)) :
    Within R ((get : Op A S _) >>= f) :=
  fun s a s' h => hf s s a s' h

theorem Within.bind {α β : Type} {m : Op A S α} {f : α → Op A S β} (hm : Within R m)
    (hf : ∀ a, Within R (f a)) : Within R (m >>= f) := by
  intro s b s' h
  obtain ⟨a, s1, h1, h2⟩ := bind_eq_some.mp h
  exact trans_of R (hm s a s1 h1) (hf a s1 b s' h2)

omit [IsPreorder (FOBDDManager A S) R] in
theorem Within.ite {α : Type} {p : Prop} [Decidable p] {m m' : Op A S α} (h : Within R m) (h' : Within R m') :
    Within R (if p then m else m') := by
  split_ifs <;> assumption

end Op

namespace FOBDDManager

open Op

-- the states differ in the diagrams and in what is remembered of the boolean operations
structure SameKernels (s s' : FOBDDManager A S) : Prop where
  order : s'.order = s.order
  content : s'.content = s.content
  nextkernel : s'.nextkernel = s.nextkernel
  nextorder : s'.nextorder = s.nextorder
  kernels : s'.kernels = s.kernels
  kerneltable : s'.kerneltable = s.kerneltable
  quanttable : s'.quanttable = s.quanttable

instance : IsPreorder (FOBDDManager A S) SameKernels where
  refl _ := ⟨rfl, rfl, rfl, rfl, rfl, rfl, rfl⟩
  trans _ _ _ h h' := ⟨h'.order.trans h.order, h'.content.trans h.content, h'.nextkernel.trans h.nextkernel,
    h'.nextorder.trans h.nextorder, h'.kernels.trans h.kernels, h'.kerneltable.trans h.kerneltable,
    h'.quanttable.trans h.quanttable⟩

variable {R : FOBDDManager A S → FOBDDManager A S → Prop} [IsPreorder (FOBDDManager A S) R]

-- a preorder that does not look at the diagrams
def Kernelwise (R : FOBDDManager A S → FOBDDManager A S → Prop) : Prop := ∀ s s', SameKernels s s' → R s s'

theorem getOrder_reads (k : ℕ) : Reads (getOrder k : Op A S _) :=
  fun _ _ _ h => (getOrder_eq_some.mp h).2

theorem kernelLess_reads (k k' : ℕ) : Reads (kernelLess k k' : Op A S _) :=
  (getOrder_reads k).bind fun _ => (getOrder_reads k').bind fun _ => Reads.pure _

theorem falsebranch_reads (b : ℕ) : Reads (falsebranch b : Op A S ℕ) :=
  fun _ _ _ h => (falsebranch_eq_some h).1

variable (hR : Kernelwise R)

include hR in
theorem getBDD_within (k t f : ℕ) : Within R (getBDD k t f) := by
  unfold getBDD
  split_ifs
  · exact Within.pure t
  · exact Within.pure f
  · exact Within.pure f
  · refine Within.get_bind fun s => ?_
    split
    · exact Within.pure _
    · intro s r s' hr
      obtain ⟨-, rfl⟩ := addBDD_eq_some.mp hr
      exact hR _ _ ⟨rfl, rfl, rfl, rfl, rfl, rfl, rfl⟩

include hR in
theorem negation_within (n b : ℕ) : Within R (negation n b) := by
  induction n generalizing b with
  | zero => exact Within.failure
  | succ n ih =>
    rw [negation]
    split_ifs
    · exact Within.pure _
    · exact Within.pure _
    · refine Within.get_bind fun s => ?_
      split
      · exact Within.pure _
      · refine (Within.reads (falsebranch_reads b)).bind fun f => (ih f).bind fun nf => ?_
        refine (Within.reads (truebranch_reads b)).bind fun t => (ih t).bind fun nt => ?_
        refine (Within.reads (kernelOf_reads b)).bind fun k => (getBDD_within hR k nt nf).bind fun r => ?_
        refine Within.bind (Within.modify fun s => hR _ _ ?_) fun _ => Within.pure r
        exact ⟨rfl, rfl, rfl, rfl, rfl, rfl, rfl⟩

include hR in
theorem combineNodes_within {rec : ℕ → ℕ → Op A S ℕ} (hrec : ∀ b b', Within R (rec b b')) (b b' : ℕ) :
    Within R (combineNodes rec b b') := by
  refine (Within.reads (kernelOf_reads b)).bind fun k => (Within.reads (kernelOf_reads b')).bind fun k' => ?_
  refine (Within.reads (kernelLess_reads k k')).bind fun less => ?_
  cases less with
  | true =>
    refine (Within.reads (falsebranch_reads b)).bind fun f => (hrec f b').bind fun nf => ?_
    exact (Within.reads (truebranch_reads b)).bind fun t => (hrec t b').bind fun nt => getBDD_within hR k nt nf
  | false =>
    refine (Within.reads (kernelLess_reads k' k)).bind fun less => ?_
    cases less with
    | true =>
      refine (Within.reads (falsebranch_reads b')).bind fun f => (hrec b f).bind fun nf => ?_
      exact (Within.reads (truebranch_reads b')).bind fun t => (hrec b t).bind fun nt => getBDD_within hR k' nt nf
    | false =>
      refine (Within.reads (falsebranch_reads b)).bind fun f => ?_
      refine (Within.reads (falsebranch_reads b')).bind fun f' => (hrec f f').bind fun nf => ?_
      refine (Within.reads (truebranch_reads b)).bind fun t => ?_
      exact (Within.reads (truebranch_reads b')).bind fun t' => (hrec t t').bind fun nt => getBDD_within hR k nt nf

include hR in
theorem combine_within (before : ℕ → ℕ → Bool) {op : Connective A S} (hstore : ∀ b b' r, Within R (op.store b b' r))
    (n b b' : ℕ) : Within R (combine before op n b b') := by
  induction n generalizing b b' with
  | zero => exact Within.failure
  | succ n ih =>
    have hordered : ∀ b b', Within R (combineOrdered op (combine before op n) b b') := by
      intro b b'
      refine Within.get_bind fun s => ?_
      split
      · exact Within.pure _
      · exact (combineNodes_within hR ih b b').bind fun r => (hstore b b' r).bind fun _ => Within.pure r
    rw [combine]
    split_ifs
    · exact Within.pure _
    · exact Within.pure _
    · exact Within.pure _
    · exact Within.pure _
    · exact hordered b' b
    · exact hordered b b'

include hR in
theorem conjunction_within (before : ℕ → ℕ → Bool) (n b b' : ℕ) : Within R (conjunction before n b b') := by
  refine combine_within hR before (fun _ _ _ => Within.modify fun s => hR _ _ ?_) n b b'
  exact ⟨rfl, rfl, rfl, rfl, rfl, rfl, rfl⟩

include hR in
theorem disjunction_within (before : ℕ → ℕ → Bool) (n b b' : ℕ) : Within R (disjunction before n b b') := by
  refine combine_within hR before (fun _ _ _ => Within.modify fun s => hR _ _ ?_) n b b'
  exact ⟨rfl, rfl, rfl, rfl, rfl, rfl, rfl⟩

include hR in
theorem placeKernel_within {rec : ℕ → ℕ → ℕ → Op A S ℕ} (hrec : ∀ k t f, Within R (rec k t f)) (k t f : ℕ) :
    Within R (placeKernel rec k t f) := by
  have hfalse : ∀ k' : ℕ, Within R (splitFalse rec k t f k') := fun k' =>
    (Within.reads (truebranch_reads f)).bind fun t' => (hrec k t t').bind fun nt =>
      (Within.reads (falsebranch_reads f)).bind fun f' => (hrec k t f').bind fun nf => getBDD_within hR k' nt nf
  have htrue : ∀ k' : ℕ, Within R (splitTrue rec k t f k') := fun k' =>
    (Within.reads (truebranch_reads t)).bind fun t' => (hrec k t' f).bind fun nt =>
      (Within.reads (falsebranch_reads t)).bind fun f' => (hrec k f' f).bind fun nf => getBDD_within hR k' nt nf
  have hboth : ∀ k' : ℕ, Within R (splitBoth rec k t f k') := fun k' =>
    (Within.reads (truebranch_reads t)).bind fun t1 => (Within.reads (truebranch_reads f)).bind fun t2 =>
      (hrec k t1 t2).bind fun nt => (Within.reads (falsebranch_reads t)).bind fun f1 =>
        (Within.reads (falsebranch_reads f)).bind fun f2 => (hrec k f1 f2).bind fun nf =>
          getBDD_within hR k' nt nf
  have hless : ∀ k k' : ℕ, Within R (kernelLess k k' : Op A S Bool) := fun k k' =>
    Within.reads (kernelLess_reads k k')
  refine (Within.reads (kernelOf_reads t)).bind fun kt => (Within.reads (kernelOf_reads f)).bind fun kf => ?_
  refine (hless k kt).bind fun less => Within.ite ?_ (Within.ite ?_ ?_)
  · refine (hless k kf).bind fun less => (getBDD_within hR k t f).ite (Within.ite ?_ (hfalse kf))
    exact (Within.reads (falsebranch_reads f)).bind fun f' => getBDD_within hR k t f'
  · refine (hless k kf).bind fun less => Within.ite ?_ (Within.ite ?_ (hfalse kf))
    · exact (Within.reads (truebranch_reads t)).bind fun t' => getBDD_within hR k t' f
    · exact (Within.reads (truebranch_reads t)).bind fun t' =>
        (Within.reads (falsebranch_reads f)).bind fun f' => getBDD_within hR k t' f'
  · exact (hless k kf).bind fun less => (hless kt kf).bind fun less' =>
      (htrue kt).ite ((hboth kt).ite (hfalse kf))

include hR in
theorem ifthenelse_within (n k t f : ℕ) : Within R (ifthenelse n k t f) := by
  induction n generalizing k t f with
  | zero => exact Within.failure
  | succ n ih =>
    refine Within.get_bind fun s => ?_
    split
    · exact Within.pure _
    · unfold mergeKernel
      split_ifs
      · exact Within.pure t
      · exact Within.pure f
      · exact Within.pure t
      · refine (placeKernel_within hR ih k t f).bind fun r => Within.bind (Within.modify fun s => hR _ _ ?_)
          fun _ => Within.pure r
        exact ⟨rfl, rfl, rfl, rfl, rfl, rfl, rfl⟩

end FOBDDManager

end FoBdd
