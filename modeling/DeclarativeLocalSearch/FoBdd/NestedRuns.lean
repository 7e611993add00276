import DeclarativeLocalSearch.FoBdd.Nested
import DeclarativeLocalSearch.FoBdd.Runs

namespace FoBdd

open DecisionDiagram Relation

variable {V A S : Type}

namespace FOBDDManager

variable {s s' s1 : FOBDDManager A S} {c : Prop}

theorem Frames.nested {α : Type} {m : Op A S α} (hm : Frames m) {a : α} (hr : m.run s = some (a, s'))
    (he : Extends s s') (h : Nested s) : Nested s' := by
  obtain ⟨ho, hc, -⟩ := hm s a s' hr
  exact h.of_content he ho hc

theorem createManager_nested : Nested (createManager : FOBDDManager A S) where
  content k hk := by
    simp only [createManager] at hk ⊢
    split_ifs at hk ⊢ <;> simp_all
  older k x hx b hb := by
    rcases createManager_content hx with rfl | rfl <;> cases hb

theorem getBDD_nested {k t f r : ℕ} (hs : Inv c s) (h : Nested s) (hr : (getBDD k t f).run s = some (r, s')) :
    Nested s' :=
  (getBDD_frames k t f).nested hr (getBDD_extends hs hr) h

theorem negation_nested {n b r : ℕ} (hs : Inv c s) (hb : s.bdd b ≠ none) (h : Nested s)
    (hr : (negation n b).run s = some (r, s')) : Nested s' :=
  (negation_frames n b).nested hr (negation_negates n _ _ _ _ hs hb hr).ext h

section Kernels

variable [DecidableEq A] [DecidableEq S]

theorem Nested.withKernel (h : Nested s) (hs : Inv c s) {cat : KernelOrderCategory} {x : KernelContent A S}
    (hx : s.ContentValid x) : Nested (s.withKernel cat x) where
  content k hk := by
    obtain ⟨o, ho⟩ := Option.ne_none_iff_exists'.mp hk
    rcases withKernel_order ho with ⟨rfl, -⟩ | ⟨-, ho⟩
    · exact (Function.update_self s.nextkernel (some x) s.content).trans_ne (Option.some_ne_none _)
    · obtain ⟨y, hy⟩ := Option.ne_none_iff_exists'.mp (h.content k (by rw [ho]; exact Option.some_ne_none _))
      rw [hs.withKernel_extends.content k y hy]
      exact Option.some_ne_none _
  older k y hy b hb := by
    have he : Extends s (s.withKernel cat x) := hs.withKernel_extends
    rcases withKernel_content hy with ⟨rfl, rfl⟩ | ⟨-, hy⟩
    · exact (hs.older_next (hx b hb)).of_extends he
    · exact (h.older k y hy b hb).of_extends he

theorem lookupKernelContent_nested {category : Op A S Bool} (hcat : Op.Reads category) {k : ℕ}
    {x : KernelContent A S} (hs : Inv c s) (hx : s.ContentValid x) (h : Nested s)
    (hr : (lookupKernelContent category x).run s = some (k, s')) : Nested s' := by
  rw [lookupKernelContent, Op.get_bind] at hr
  cases ht : s.kerneltable x with
  | some k' =>
    rw [ht] at hr
    obtain ⟨rfl, rfl⟩ := Op.pure_eq_some.mp hr
    exact h
  | none =>
    rw [ht] at hr
    obtain ⟨v, s1, hv, hr⟩ := Op.bind_eq_some.mp hr
    obtain rfl := hcat s v s1 hv
    obtain ⟨-, rfl⟩ := newKernel_eq_some.mp hr
    exact h.withKernel hs hx

variable (L : TermLanguage V A S)

theorem getAtomKernel_nested {n : ℕ} {terms : A} {sets : List ℕ} {k : ℕ} (hs : Inv c s)
    (hx : ∀ b ∈ sets, s.bdd b ≠ none) (h : Nested s) (hr : (getAtomKernel L n terms sets).run s = some (k, s')) :
    Nested s' := by
  unfold getAtomKernel at hr
  split at hr
  · obtain ⟨-, rfl⟩ := Op.pure_eq_some.mp hr
    exact h
  · rename_i terms' sets' hsimp
    exact lookupKernelContent_nested (x := .atom terms' sets')
      (contentContains_reads L (containsDeBruijnIndex_reads L n) _ _) hs (fun b hb => hx b (L.simplify_sets _ _ _ _ hsimp hb)) h hr

theorem getAggKernel_nested {n : ℕ} {left right : A} {sets : List ℕ} {k : ℕ} (hs : Inv c s)
    (hx : ∀ b ∈ sets, s.bdd b ≠ none) (h : Nested s)
    (hr : (getAggKernel L n left right sets).run s = some (k, s')) : Nested s' :=
  lookupKernelContent_nested (x := .agg left right sets)
    (contentContains_reads L (containsDeBruijnIndex_reads L n) _ _) hs hx h hr

theorem getQuantKernel_nested {n : ℕ} {sort : S} {b k : ℕ} (hs : Inv c s) (hb : s.bdd b ≠ none) (h : Nested s)
    (hr : (getQuantKernel L n sort b).run s = some (k, s')) : Nested s' := by
  unfold getQuantKernel at hr
  split_ifs at hr
  · obtain ⟨-, rfl⟩ := Op.pure_eq_some.mp hr
    exact h
  · obtain ⟨-, rfl⟩ := Op.pure_eq_some.mp hr
    exact h
  · obtain ⟨v, s1, hv, hr⟩ := Op.bind_eq_some.mp hr
    obtain rfl := isSolved_reads L n sort b s v s1 hv
    split_ifs at hr
    · obtain ⟨-, rfl⟩ := Op.pure_eq_some.mp hr
      exact h
    · exact lookupKernelContent_nested (containsDeBruijnIndex_reads L n b 1) hs
        (fun b' hb' => by rw [List.mem_singleton.mp hb']; exact hb) h hr

end Kernels

section Change

variable {rec : ℕ → ℕ → Op A S ℕ}

def ChangesNested (c : Prop) (op : ℕ → ℕ → Op A S ℕ) : Prop :=
  ∀ s depth b r s', Inv c s → s.bdd b ≠ none → Nested s → (op depth b).run s = some (r, s') → Nested s'

theorem changeSets_nested (hrec : Changes c rec) (hnest : ChangesNested c rec) (depth : ℕ) (vars : ℕ → ℕ)
    {sets : List ℕ} {j : ℕ} {sets' : List ℕ} (hs : Inv c s) (hx : ∀ b ∈ sets, s.bdd b ≠ none) (h : Nested s)
    (hr : (changeSets rec depth vars j sets).run s = some (sets', s')) : Nested s' := by
  induction sets generalizing s j sets' with
  | nil =>
    obtain ⟨-, rfl⟩ := Op.pure_eq_some.mp hr
    exact h
  | cons b sets ih =>
    simp only [changeSets, Op.bind_eq_some, Op.pure_eq_some] at hr
    obtain ⟨b', s1, hb', sets1, s2, hsets, -, rfl⟩ := hr
    have hb := hrec _ _ _ _ _ hs (hx b List.mem_cons_self) hb'
    exact ih hb.inv (fun x hx' => hb.ext.valid (hx x (List.mem_cons_of_mem b hx')))
      (hnest _ _ _ _ _ hs (hx b List.mem_cons_self) h hb') hsets

variable [DecidableEq A] [DecidableEq S] (L : TermLanguage V A S)

theorem changeContent_nested (hrec : Changes c rec) (hnest : ChangesNested c rec) (terms : ℕ → A → A)
    (n depth : ℕ) {k k' : ℕ} {x : KernelContent A S} (hs : Inv c s) (hx : s.ContentValid x) (h : Nested s)
    (hr : (changeContent L terms n rec depth k x).run s = some (k', s')) : Nested s' := by
  cases x with
  | trueKernel =>
    obtain ⟨-, rfl⟩ := Op.pure_eq_some.mp hr
    exact h
  | falseKernel =>
    obtain ⟨-, rfl⟩ := Op.pure_eq_some.mp hr
    exact h
  | atom a sets =>
    obtain ⟨sets', s1, hsets, hr⟩ := Op.bind_eq_some.mp hr
    obtain ⟨hi, -, hv⟩ := changeSets_builds hrec _ _ hs hx hsets
    exact getAtomKernel_nested L hi hv (changeSets_nested hrec hnest _ _ hs hx h hsets) hr
  | quant sort b =>
    obtain ⟨b', s1, hb', hr⟩ := Op.bind_eq_some.mp hr
    have hb := hx b (List.mem_singleton.mpr rfl)
    have hbuilt := hrec _ _ _ _ _ hs hb hb'
    exact getQuantKernel_nested L hbuilt.inv hbuilt.valid (hnest _ _ _ _ _ hs hb h hb') hr
  | agg left right sets =>
    obtain ⟨sets', s1, hsets, hr⟩ := Op.bind_eq_some.mp hr
    obtain ⟨hi, -, hv⟩ := changeSets_builds hrec _ _ hs hx hsets
    exact getAggKernel_nested L hi hv (changeSets_nested hrec hnest _ _ hs hx h hsets) hr

theorem change_nested (terms : ℕ → A → A) (n : ℕ) : ChangesNested c (change L terms n) := by
  induction n with
  | zero =>
    intro s depth b r s' _ _ _ hr
    exact absurd hr Op.failure_eq_some
  | succ n ih =>
    intro s depth b r s' hs hb h hr
    rw [change] at hr
    split_ifs at hr with h1 h2
    · obtain ⟨-, rfl⟩ := Op.pure_eq_some.mp hr
      exact h
    · obtain ⟨-, rfl⟩ := Op.pure_eq_some.mp hr
      exact h
    · obtain rfl | rfl | ⟨k, t, f, hn⟩ := hs.leaf_or_branch hb
      · exact absurd rfl h1
      · exact absurd rfl h2
      · obtain ⟨ht, hf, hk⟩ := hs.children hn
        have hrec : Changes c (change L terms n) := change_changes L terms n
        simp only [Op.bind_eq_some] at hr
        obtain ⟨k', s1, hk', x, s2, hx, nk, s3, hnk, t', s4, ht', nt, s5, hnt, f', s6, hf', nf, s7,
          hnf, hr⟩ := hr
        obtain ⟨rfl, rfl⟩ := kernelOf_branch hn hk'
        obtain ⟨rfl, hcontent⟩ := getContent_eq_some hx
        have hgk := changeContent_gives L hrec terms n depth hs hk (hs.content_valid hcontent) hnk
        obtain ⟨rfl, rfl⟩ := truebranch_branch (hgk.ext.bdd b _ hn) ht'
        have hbt := hrec _ _ _ _ _ hgk.inv (hgk.ext.valid ht) hnt
        obtain ⟨rfl, rfl⟩ := falsebranch_branch ((hgk.ext.trans hbt.ext).bdd b _ hn) hf'
        have hbf := hrec _ _ _ _ _ hbt.inv ((hgk.ext.trans hbt.ext).valid hf) hnf
        have hres := ifthenelse_chooses n _ _ _ _ _ _ hbf.inv
          ((hbt.ext.trans hbf.ext).order_ne hgk.kernel) (hbf.ext.valid hbt.valid) hbf.valid hr
        have h3 := changeContent_nested L hrec ih terms n depth hs (hs.content_valid hcontent) h hnk
        have h5 := ih _ _ _ _ _ hgk.inv (hgk.ext.valid ht) h3 hnt
        have h7 := ih _ _ _ _ _ hbt.inv ((hgk.ext.trans hbt.ext).valid hf) h5 hnf
        exact (ifthenelse_frames n nk nt nf).nested hr hres.ext h7

end Change

section Quantify

variable [DecidableEq A] [DecidableEq S] (L : TermLanguage V A S)
  {ok : FOBDDManager A S → ℕ → ℕ → Bool}

theorem sortNotEmpty_nested {n : ℕ} {sort : S} {k : ℕ} (hs : Inv c s) (h : Nested s)
    (hr : (sortNotEmpty L n sort).run s = some (k, s')) : Nested s' := by
  simp only [sortNotEmpty, Op.bind_eq_some] at hr
  obtain ⟨a, s1, ha, b, s2, hb, hr⟩ := hr
  obtain ⟨hg, -⟩ := getAtomKernel_gives L hs (fun b hb => absurd hb (List.not_mem_nil)) ha
  have h1 := getAtomKernel_nested L hs (fun b hb => absurd hb (List.not_mem_nil)) h ha
  have hbuilt := (getBDD_returns hg.inv hg.kernel hg.inv.true_valid hg.inv.false_valid
    (fun _ _ _ => ⟨above_of_leaf hg.inv.leafTrue _, above_of_leaf hg.inv.leafFalse _⟩) hb).builds
  exact getQuantKernel_nested L hbuilt.inv hbuilt.valid (getBDD_nested hg.inv h1 hb) hr

theorem quantifyIndependent_nested {n : ℕ} {sort : S} {b r : ℕ} (hs : Inv c s) (hb : s.bdd b ≠ none)
    (h : Nested s) (hr : (quantifyIndependent L ok n sort b).run s = some (r, s')) : Nested s' := by
  unfold quantifyIndependent at hr
  split at hr
  · split_ifs at hr
    · exact negation_nested hs hb h hr
    · obtain ⟨-, rfl⟩ := Op.pure_eq_some.mp hr
      exact h
  · obtain ⟨k, s1, hk, hr⟩ := Op.bind_eq_some.mp hr
    rw [Op.get_bind] at hr
    split_ifs at hr
    · exact getBDD_nested (sortNotEmpty_gives L hs hk).inv (sortNotEmpty_nested L hs h hk) hr
    · exact absurd hr Op.failure_eq_some

def QuantifiesNested (c : Prop) (op : S → ℕ → Op A S ℕ) : Prop :=
  ∀ s sort b r s', Inv c s → s.bdd b ≠ none → Nested s → (op sort b).run s = some (r, s') → Nested s'

variable {rec : S → ℕ → Op A S ℕ}

theorem quantifyRoot_nested (hrec : Quantifies c rec) (hnest : QuantifiesNested c rec) {n : ℕ} {sort : S}
    {b k t f r : ℕ} (hs : Inv c s) (hb : s.bdd b = some (.branch k t f)) (h : Nested s)
    (hr : (quantifyRoot L n rec sort b k).run s = some (r, s')) : Nested s' := by
  have hbv : s.bdd b ≠ none := by rw [hb]; exact Option.some_ne_none _
  obtain ⟨ht, hf, hk⟩ := hs.children hb
  obtain ⟨o, s1, ho, hr⟩ := Op.bind_eq_some.mp hr
  obtain ⟨-, rfl⟩ := getOrder_eq_some.mp ho
  split_ifs at hr
  · simp only [Op.bind_eq_some] at hr
    obtain ⟨f', s2, hf', nf, s3, hnf, t', s4, ht', nt, s5, hnt, hr⟩ := hr
    obtain ⟨rfl, rfl⟩ := falsebranch_branch hb hf'
    have hbf := hrec _ _ _ _ _ hs hf hnf
    obtain ⟨rfl, rfl⟩ := truebranch_branch (hbf.ext.bdd b _ hb) ht'
    have hbt := hrec _ _ _ _ _ hbf.inv (hbf.ext.valid ht) hnt
    have hres := ifthenelse_chooses n _ _ _ _ _ _ hbt.inv ((hbf.ext.trans hbt.ext).order_ne hk)
      hbt.valid (hbt.ext.valid hbf.valid) hr
    have h3 := hnest _ _ _ _ _ hs hf h hnf
    have h5 := hnest _ _ _ _ _ hbf.inv (hbf.ext.valid ht) h3 hnt
    exact (ifthenelse_frames n k nt nf).nested hr hres.ext h5
  · obtain ⟨q, s2, hq, hr⟩ := Op.bind_eq_some.mp hr
    obtain ⟨hg, -⟩ := getQuantKernel_gives L hs hbv hq
    exact getBDD_nested hg.inv (getQuantKernel_nested L hs hbv h hq) hr

theorem quantifyDependent_nested (hrec : Quantifies c rec) (hnest : QuantifiesNested c rec) {n : ℕ} {sort : S}
    {b k t f r : ℕ} (hs : Inv c s) (hb : s.bdd b = some (.branch k t f)) (h : Nested s)
    (hr : (quantifyDependent L n rec sort b).run s = some (r, s')) : Nested s' := by
  rw [quantifyDependent, Op.get_bind] at hr
  cases hm : s.quanttable sort b with
  | some result =>
    rw [hm] at hr
    obtain ⟨-, rfl⟩ := Op.pure_eq_some.mp hr
    exact h
  | none =>
    rw [hm] at hr
    simp only [Op.bind_eq_some] at hr
    obtain ⟨k', s1, hk', r', s2, hr', u, s3, hstore, hpure⟩ := hr
    obtain ⟨rfl, rfl⟩ := kernelOf_branch hb hk'
    have h2 := quantifyRoot_nested L hrec hnest hs hb h hr'
    obtain rfl := Op.modify_eq_some.mp hstore
    obtain ⟨-, rfl⟩ := Op.pure_eq_some.mp hpure
    exact h2.of_content ((Extends.refl s2).same rfl rfl rfl) rfl rfl

theorem quantify_nested (hok : c → ∀ s k b, ok s k b = true → s.rootBelow k b = true) (n : ℕ) :
    QuantifiesNested c (quantify L ok n) := by
  induction n with
  | zero =>
    intro s sort b r s' _ _ _ hr
    exact absurd hr Op.failure_eq_some
  | succ n ih =>
    intro s sort b r s' hs hb h hr
    rw [quantify] at hr
    split_ifs at hr with h1 h2
    · obtain ⟨-, rfl⟩ := Op.pure_eq_some.mp hr
      exact h
    · exact quantifyIndependent_nested L hs hb h hr
    · obtain rfl | rfl | ⟨k, t, f, hn⟩ := hs.leaf_or_branch hb
      · exact absurd rfl h2
      · exact absurd rfl h1
      · obtain ⟨v, s1, hv, hr⟩ := Op.bind_eq_some.mp hr
        obtain rfl := containsDeBruijnIndex_reads L n b 0 s v s1 hv
        cases v
        · exact quantifyIndependent_nested L hs hb h hr
        · exact quantifyDependent_nested L (quantify_quantifies L hok n) ih hs hn h hr

theorem existsquantify_nested (hok : c → ∀ s k b, ok s k b = true → s.rootBelow k b = true) {n : ℕ} {var : V}
    {b r : ℕ} (hs : Inv c s) (hb : s.bdd b ≠ none) (h : Nested s)
    (hr : (existsquantify L ok n var b).run s = some (r, s')) : Nested s' := by
  obtain ⟨b', s1, hb', hr⟩ := Op.bind_eq_some.mp hr
  have hbuilt := change_changes L _ n _ _ _ _ _ hs hb hb'
  exact quantify_nested L hok n _ _ _ _ _ hbuilt.inv hbuilt.valid
    (change_nested L _ n _ _ _ _ _ hs hb h hb') hr

theorem univquantify_nested (hok : c → ∀ s k b, ok s k b = true → s.rootBelow k b = true) {n : ℕ} {var : V}
    {b r : ℕ} (hs : Inv c s) (hb : s.bdd b ≠ none) (h : Nested s)
    (hr : (univquantify L ok n var b).run s = some (r, s')) : Nested s' := by
  simp only [univquantify, Op.bind_eq_some] at hr
  obtain ⟨b1, s1, hr1, b2, s2, hr2, hr⟩ := hr
  have hb1 := (negation_negates n _ _ _ _ hs hb hr1).builds
  have hb2 := existsquantify_builds L hok hb1.inv hb1.valid hr2
  have h1 := negation_nested hs hb h hr1
  have h2 := existsquantify_nested L hok hb1.inv hb1.valid h1 hr2
  exact negation_nested hb2.inv hb2.valid h2 hr

end Quantify

variable [DecidableEq A] [DecidableEq S] {L : TermLanguage V A S} {before : ℕ → ℕ → Bool}
  {ok : FOBDDManager A S → ℕ → ℕ → Bool}

theorem Step.nested (hok : c → ∀ s k b, ok s k b = true → s.rootBelow k b = true) (hstep : Step L before ok s s')
    (hs : Inv c s) (h : Nested s) : Nested s' := by
  have he := (hstep.inv hok hs).2
  cases hstep with
  | atomKernel hx hr => exact getAtomKernel_nested L hs hx h hr
  | aggKernel hx hr => exact getAggKernel_nested L hs hx h hr
  | quantKernel hb hr => exact getQuantKernel_nested L hs hb h hr
  | negation hb hr => exact negation_nested hs hb h hr
  | conjunction hb hb' hr => exact (conjunction_frames before _ _ _).nested hr he h
  | disjunction hb hb' hr => exact (disjunction_frames before _ _ _).nested hr he h
  | ifthenelse hk ht hf hr => exact (ifthenelse_frames _ _ _ _).nested hr he h
  | existsquantify hb hr => exact existsquantify_nested L hok hs hb h hr
  | univquantify hb hr => exact univquantify_nested L hok hs hb h hr
  | substitute hb hr => exact change_nested L _ _ _ _ _ _ _ hs hb h hr

theorem run_nested (hok : c → ∀ s k b, ok s k b = true → s.rootBelow k b = true)
    (hrun : ReflTransGen (Step L before ok) s s') (hs : Inv c s) (h : Nested s) : Nested s' := by
  induction hrun with
  | refl => exact h
  | tail steps step ih => exact step.nested hok (run_inv hok steps hs) ih

end FOBDDManager

end FoBdd
