import DeclarativeLocalSearch.FoBdd.KernelTables

namespace FoBdd

open DecisionDiagram

variable {V A S : Type}

namespace FOBDDManager

variable {c : Prop} {s s' : FOBDDManager A S}

-- an operation has returned the diagram r in the state s'
structure Builds (c : Prop) (s s' : FOBDDManager A S) (r : ℕ) : Prop where
  inv : Inv c s'
  ext : Extends s s'
  valid : s'.bdd r ≠ none

theorem Returns.builds {r : ℕ} {P : (ℕ → Prop) → Prop} (h : Returns c s s' r P) :
    Builds c s s' r :=
  ⟨h.inv, h.ext, h.valid⟩

theorem Builds.after {s1 : FOBDDManager A S} {r : ℕ} (he : Extends s s1) (h : Builds c s1 s' r) :
    Builds c s s' r :=
  ⟨h.inv, he.trans h.ext, h.valid⟩

-- a node with the kernel k over the diagram b keeps the order
def rootBelow (s : FOBDDManager A S) (k b : ℕ) : Bool :=
  k == truekernel || k == falsekernel ||
    match s.bdd b with
    | some (.branch k' _ _) =>
      match s.order k, s.order k' with
      | some o, some o' => o.less o'
      | _, _ => false
    | _ => true

theorem above_of_rootBelow {k b : ℕ} (h : s.rootBelow k b = true) (h1 : k ≠ truekernel)
    (h2 : k ≠ falsekernel) : Above s.lt s.bdd k b := by
  intro k' hi lo hb
  simp only [rootBelow, hb, Bool.or_eq_true, beq_iff_eq, h1, h2, false_or] at h
  cases ho : s.order k with
  | none => simp [ho] at h
  | some o =>
    cases ho' : s.order k' with
    | none => simp [ho, ho'] at h
    | some o' =>
      simp only [ho, ho'] at h
      exact ⟨o, o', ho, ho', h⟩

theorem rootBelow_of_above {k b : ℕ} (h : Above s.lt s.bdd k b) : s.rootBelow k b = true := by
  rw [rootBelow, Bool.or_eq_true]
  right
  split
  · rename_i k' hi lo hb
    obtain ⟨o, o', ho, ho', hlt⟩ := h k' hi lo hb
    simp only [ho, ho', hlt]
  · rfl

def always : FOBDDManager A S → ℕ → ℕ → Bool := fun _ _ _ => true

theorem Inv.storeQuantified [DecidableEq S] (h : Inv c s) {sort : S} {b r : ℕ} (hb : s.bdd b ≠ none)
    (hr : s.bdd r ≠ none) :
    Inv c { s with quanttable := Table.insert2 s.quanttable sort b r } :=
  { h with
    quantifieds := fun sort' b' r' hq => by
      rcases Table.of_insert2 hq with ⟨-, rfl, rfl⟩ | hq
      · exact ⟨hb, hr⟩
      · exact h.quantifieds sort' b' r' hq
    sorted := fun hc => ⟨(h.sorted hc).ordered, (h.sorted hc).reduced, (h.sorted hc).hashed⟩ }

section Change

def Changes (c : Prop) (op : ℕ → ℕ → Op A S ℕ) : Prop :=
  ∀ s depth b r s', Inv c s → s.bdd b ≠ none → (op depth b).run s = some (r, s') →
    Builds c s s' r

variable {rec : ℕ → ℕ → Op A S ℕ}

theorem changeSets_builds (hrec : Changes c rec) (depth : ℕ) (vars : ℕ → ℕ) {sets : List ℕ}
    {j : ℕ} {sets' : List ℕ} (h : Inv c s) (hs : ∀ b ∈ sets, s.bdd b ≠ none)
    (hr : (changeSets rec depth vars j sets).run s = some (sets', s')) :
    Inv c s' ∧ Extends s s' ∧ ∀ b ∈ sets', s'.bdd b ≠ none := by
  induction sets generalizing s j sets' with
  | nil =>
    obtain ⟨rfl, rfl⟩ := Op.pure_eq_some.mp hr
    exact ⟨h, Extends.refl s, hs⟩
  | cons b sets ih =>
    simp only [changeSets, Op.bind_eq_some, Op.pure_eq_some] at hr
    obtain ⟨b', s1, hb', sets1, s2, hsets, rfl, rfl⟩ := hr
    have hb := hrec _ _ _ _ _ h (hs b List.mem_cons_self) hb'
    obtain ⟨hi, he, hv⟩ := ih hb.inv
      (fun x hx => hb.ext.valid (hs x (List.mem_cons_of_mem b hx))) hsets
    refine ⟨hi, hb.ext.trans he, fun x hx => ?_⟩
    rcases List.mem_cons.mp hx with rfl | hx
    · exact he.valid hb.valid
    · exact hv x hx

variable [DecidableEq A] [DecidableEq S] (L : TermLanguage V A S)

theorem changeContent_gives (hrec : Changes c rec) (terms : ℕ → A → A) (n depth : ℕ) {k k' : ℕ}
    {x : KernelContent A S} (h : Inv c s) (hk : s.order k ≠ none) (hx : s.ContentValid x)
    (hr : (changeContent L terms n rec depth k x).run s = some (k', s')) : Gives c s s' k' := by
  cases x with
  | trueKernel =>
    obtain ⟨rfl, rfl⟩ := Op.pure_eq_some.mp hr
    exact ⟨h, Extends.refl s, hk⟩
  | falseKernel =>
    obtain ⟨rfl, rfl⟩ := Op.pure_eq_some.mp hr
    exact ⟨h, Extends.refl s, hk⟩
  | atom a sets =>
    obtain ⟨sets', s1, hs, hr⟩ := Op.bind_eq_some.mp hr
    obtain ⟨hi, he, hv⟩ := changeSets_builds hrec _ _ h hx hs
    obtain ⟨hg, -⟩ := getAtomKernel_gives L hi hv hr
    exact ⟨hg.inv, he.trans hg.ext, hg.kernel⟩
  | quant sort b =>
    obtain ⟨b', s1, hb, hr⟩ := Op.bind_eq_some.mp hr
    have hb := hrec _ _ _ _ _ h (hx b (List.mem_singleton.mpr rfl)) hb
    obtain ⟨hg, -⟩ := getQuantKernel_gives L hb.inv hb.valid hr
    exact ⟨hg.inv, hb.ext.trans hg.ext, hg.kernel⟩
  | agg left right sets =>
    obtain ⟨sets', s1, hs, hr⟩ := Op.bind_eq_some.mp hr
    obtain ⟨hi, he, hv⟩ := changeSets_builds hrec _ _ h hx hs
    obtain ⟨hg, -⟩ := getAggKernel_gives L hi hv hr
    exact ⟨hg.inv, he.trans hg.ext, hg.kernel⟩

theorem change_changes (terms : ℕ → A → A) (n : ℕ) : Changes c (change L terms n) := by
  induction n with
  | zero =>
    intro s depth b r s' _ _ hr
    exact absurd hr Op.failure_eq_some
  | succ n ih =>
    intro s depth b r s' h hb hr
    rw [change] at hr
    split_ifs at hr with h1 h2
    · obtain ⟨rfl, rfl⟩ := Op.pure_eq_some.mp hr
      exact ⟨h, Extends.refl s, h.true_valid⟩
    · obtain ⟨rfl, rfl⟩ := Op.pure_eq_some.mp hr
      exact ⟨h, Extends.refl s, h.false_valid⟩
    · obtain rfl | rfl | ⟨k, t, f, hn⟩ := h.leaf_or_branch hb
      · exact absurd rfl h1
      · exact absurd rfl h2
      · obtain ⟨ht, hf, hk⟩ := h.children hn
        simp only [Op.bind_eq_some] at hr
        obtain ⟨k', s1, hk', x, s2, hx, nk, s3, hnk, t', s4, ht', nt, s5, hnt, f', s6, hf', nf, s7,
          hnf, hr⟩ := hr
        obtain ⟨rfl, rfl⟩ := kernelOf_branch hn hk'
        obtain ⟨rfl, hcontent⟩ := getContent_eq_some hx
        have hgk := changeContent_gives L ih terms n depth h hk (h.content_valid hcontent) hnk
        obtain ⟨rfl, rfl⟩ := truebranch_branch (hgk.ext.bdd b _ hn) ht'
        have hbt := ih _ _ _ _ _ hgk.inv (hgk.ext.valid ht) hnt
        obtain ⟨rfl, rfl⟩ := falsebranch_branch ((hgk.ext.trans hbt.ext).bdd b _ hn) hf'
        have hbf := ih _ _ _ _ _ hbt.inv ((hgk.ext.trans hbt.ext).valid hf) hnf
        have hres := ifthenelse_chooses n _ _ _ _ _ _ hbf.inv
          ((hbt.ext.trans hbf.ext).order_ne hgk.kernel) (hbf.ext.valid hbt.valid) hbf.valid hr
        exact hres.builds.after ((hgk.ext.trans hbt.ext).trans hbf.ext)

end Change

section Quantify

variable [DecidableEq A] [DecidableEq S] (L : TermLanguage V A S)
  {ok : FOBDDManager A S → ℕ → ℕ → Bool}

theorem sortNotEmpty_gives {n : ℕ} {sort : S} {k : ℕ} (h : Inv c s)
    (hr : (sortNotEmpty L n sort).run s = some (k, s')) : Gives c s s' k := by
  simp only [sortNotEmpty, Op.bind_eq_some] at hr
  obtain ⟨a, s1, ha, b, s2, hb, hr⟩ := hr
  obtain ⟨hg, -⟩ := getAtomKernel_gives L h (fun b hb => absurd hb (List.not_mem_nil)) ha
  have hb := (getBDD_returns hg.inv hg.kernel hg.inv.true_valid hg.inv.false_valid
    (fun _ _ _ => ⟨above_of_leaf hg.inv.leafTrue _, above_of_leaf hg.inv.leafFalse _⟩) hb).builds
  obtain ⟨hq, -⟩ := getQuantKernel_gives L hb.inv hb.valid hr
  exact ⟨hq.inv, (hg.ext.trans hb.ext).trans hq.ext, hq.kernel⟩

theorem quantifyIndependent_builds (hok : c → ∀ s k b, ok s k b = true → s.rootBelow k b = true)
    {n : ℕ} {sort : S} {b r : ℕ} (h : Inv c s) (hb : s.bdd b ≠ none)
    (hr : (quantifyIndependent L ok n sort b).run s = some (r, s')) : Builds c s s' r := by
  unfold quantifyIndependent at hr
  split at hr
  · split_ifs at hr
    · exact (negation_negates n _ _ _ _ h hb hr).builds
    · obtain ⟨rfl, rfl⟩ := Op.pure_eq_some.mp hr
      exact ⟨h, Extends.refl s, hb⟩
  · obtain ⟨k, s1, hk, hr⟩ := Op.bind_eq_some.mp hr
    have hg := sortNotEmpty_gives L h hk
    rw [Op.get_bind] at hr
    split_ifs at hr with hk
    · refine (getBDD_returns hg.inv hg.kernel (hg.ext.valid hb) hg.inv.false_valid
        (fun hc h1 h2 => ?_) hr).builds.after hg.ext
      exact ⟨above_of_rootBelow (hok hc s1 k b hk) h1 h2, above_of_leaf hg.inv.leafFalse k⟩
    · exact absurd hr Op.failure_eq_some

def Quantifies (c : Prop) (op : S → ℕ → Op A S ℕ) : Prop :=
  ∀ s sort b r s', Inv c s → s.bdd b ≠ none → (op sort b).run s = some (r, s') →
    Builds c s s' r

variable {rec : S → ℕ → Op A S ℕ}

theorem quantifyRoot_builds (hrec : Quantifies c rec) {n : ℕ} {sort : S} {b k t f r : ℕ}
    (h : Inv c s) (hb : s.bdd b = some (.branch k t f))
    (hr : (quantifyRoot L n rec sort b k).run s = some (r, s')) : Builds c s s' r := by
  have hbv : s.bdd b ≠ none := by rw [hb]; exact Option.some_ne_none _
  obtain ⟨ht, hf, hk⟩ := h.children hb
  obtain ⟨o, s1, ho, hr⟩ := Op.bind_eq_some.mp hr
  obtain ⟨ho, rfl⟩ := getOrder_eq_some.mp ho
  split_ifs at hr with hcat
  · simp only [Op.bind_eq_some] at hr
    obtain ⟨f', s2, hf', nf, s3, hnf, t', s4, ht', nt, s5, hnt, hr⟩ := hr
    obtain ⟨rfl, rfl⟩ := falsebranch_branch hb hf'
    have hbf := hrec _ _ _ _ _ h hf hnf
    obtain ⟨rfl, rfl⟩ := truebranch_branch (hbf.ext.bdd b _ hb) ht'
    have hbt := hrec _ _ _ _ _ hbf.inv (hbf.ext.valid ht) hnt
    exact (ifthenelse_chooses n _ _ _ _ _ _ hbt.inv ((hbf.ext.trans hbt.ext).order_ne hk)
      hbt.valid (hbt.ext.valid hbf.valid) hr).builds.after (hbf.ext.trans hbt.ext)
  · obtain ⟨q, s2, hq, hr⟩ := Op.bind_eq_some.mp hr
    obtain ⟨hg, -⟩ := getQuantKernel_gives L h hbv hq
    exact (getBDD_returns hg.inv hg.kernel hg.inv.true_valid hg.inv.false_valid
      (fun _ _ _ => ⟨above_of_leaf hg.inv.leafTrue _, above_of_leaf hg.inv.leafFalse _⟩)
      hr).builds.after hg.ext

theorem quantifyDependent_builds (hrec : Quantifies c rec) {n : ℕ} {sort : S} {b k t f r : ℕ}
    (h : Inv c s) (hb : s.bdd b = some (.branch k t f))
    (hr : (quantifyDependent L n rec sort b).run s = some (r, s')) : Builds c s s' r := by
  have hbv : s.bdd b ≠ none := by rw [hb]; exact Option.some_ne_none _
  rw [quantifyDependent, Op.get_bind] at hr
  cases hm : s.quanttable sort b with
  | some result =>
    rw [hm] at hr
    obtain ⟨rfl, rfl⟩ := Op.pure_eq_some.mp hr
    exact ⟨h, Extends.refl s, (h.quantifieds sort b _ hm).2⟩
  | none =>
    rw [hm] at hr
    simp only [Op.bind_eq_some] at hr
    obtain ⟨k', s1, hk', r', s2, hr', u, s3, hstore, hpure⟩ := hr
    obtain ⟨rfl, rfl⟩ := kernelOf_branch hb hk'
    have hres := quantifyRoot_builds L hrec h hb hr'
    obtain rfl := Op.modify_eq_some.mp hstore
    obtain ⟨rfl, rfl⟩ := Op.pure_eq_some.mp hpure
    exact ⟨hres.inv.storeQuantified (hres.ext.valid hbv) hres.valid, hres.ext.same rfl rfl rfl,
      hres.valid⟩

theorem quantify_quantifies (hok : c → ∀ s k b, ok s k b = true → s.rootBelow k b = true)
    (n : ℕ) : Quantifies c (quantify L ok n) := by
  induction n with
  | zero =>
    intro s sort b r s' _ _ hr
    exact absurd hr Op.failure_eq_some
  | succ n ih =>
    intro s sort b r s' h hb hr
    rw [quantify] at hr
    split_ifs at hr with h1 h2
    · obtain ⟨rfl, rfl⟩ := Op.pure_eq_some.mp hr
      exact ⟨h, Extends.refl s, hb⟩
    · exact quantifyIndependent_builds L hok h hb hr
    · obtain rfl | rfl | ⟨k, t, f, hn⟩ := h.leaf_or_branch hb
      · exact absurd rfl h2
      · exact absurd rfl h1
      · obtain ⟨v, s1, hv, hr⟩ := Op.bind_eq_some.mp hr
        obtain rfl := containsDeBruijnIndex_reads L n b 0 s v s1 hv
        cases v
        · exact quantifyIndependent_builds L hok h hb hr
        · exact quantifyDependent_builds L ih h hn hr

theorem existsquantify_builds (hok : c → ∀ s k b, ok s k b = true → s.rootBelow k b = true)
    {n : ℕ} {var : V} {b r : ℕ} (h : Inv c s) (hb : s.bdd b ≠ none)
    (hr : (existsquantify L ok n var b).run s = some (r, s')) : Builds c s s' r := by
  obtain ⟨b', s1, hb', hr⟩ := Op.bind_eq_some.mp hr
  have hb := change_changes L _ n _ _ _ _ _ h hb hb'
  exact (quantify_quantifies L hok n _ _ _ _ _ hb.inv hb.valid hr).after hb.ext

theorem univquantify_builds (hok : c → ∀ s k b, ok s k b = true → s.rootBelow k b = true)
    {n : ℕ} {var : V} {b r : ℕ} (h : Inv c s) (hb : s.bdd b ≠ none)
    (hr : (univquantify L ok n var b).run s = some (r, s')) : Builds c s s' r := by
  simp only [univquantify, Op.bind_eq_some] at hr
  obtain ⟨b1, s1, h1, b2, s2, h2, hr⟩ := hr
  have hb1 := (negation_negates n _ _ _ _ h hb h1).builds
  have hb2 := existsquantify_builds L hok hb1.inv hb1.valid h2
  exact (negation_negates n _ _ _ _ hb2.inv hb2.valid hr).builds.after (hb1.ext.trans hb2.ext)

end Quantify

section Guard

def Ordered (s : FOBDDManager A S) : Prop :=
  ∀ b k hi lo, s.bdd b = some (.branch k hi lo) →
    Above s.lt s.bdd k hi ∧ Above s.lt s.bdd k lo

theorem Inv.above_of_extends (h : Inv c s) (he : Extends s s') {k b : ℕ} (hk : s.order k ≠ none)
    (ha : Above s'.lt s'.bdd k b) : Above s.lt s.bdd k b := by
  intro k' hi lo hb
  obtain ⟨o, o', ho, ho', hlt⟩ := ha k' hi lo (he.bdd b _ hb)
  obtain ⟨p, hp⟩ := Option.ne_none_iff_exists'.mp hk
  obtain ⟨p', hp', -⟩ := h.labelled b k' hi lo hb
  rw [he.order k p hp] at ho
  rw [he.order k' p' hp'] at ho'
  obtain rfl := Option.some.inj ho
  obtain rfl := Option.some.inj ho'
  exact ⟨_, _, hp, hp', hlt⟩

theorem Inv.ordered_of_extends (h : Inv c s) (he : Extends s s') (ho : s'.Ordered) :
    s.Ordered := by
  intro b k hi lo hb
  obtain ⟨h1, h2⟩ := ho b k hi lo (he.bdd b _ hb)
  have hk := (h.children hb).2.2
  exact ⟨h.above_of_extends he hk h1, h.above_of_extends he hk h2⟩

theorem rootBelow_of_getBDD (h : Inv c s) {k b r : ℕ} (hk : s.order k ≠ none)
    (hr : (getBDD k b falsebdd).run s = some (r, s')) (ho : s'.Ordered) :
    s.rootBelow k b = true := by
  unfold getBDD at hr
  split_ifs at hr with h1 h2 h3
  · simp [rootBelow, h1]
  · simp [rootBelow, h2]
  · exact rootBelow_of_above (h3 ▸ above_of_leaf h.leafFalse k)
  · rw [Op.get_bind] at hr
    cases htab : s.bddtable k falsebdd b with
    | some x =>
      rw [htab] at hr
      obtain ⟨rfl, rfl⟩ := Op.pure_eq_some.mp hr
      exact rootBelow_of_above (ho _ _ _ _ (h.bddtable _ _ _ _ htab)).1
    | none =>
      rw [htab] at hr
      obtain ⟨rfl, rfl⟩ := addBDD_eq_some.mp hr
      exact rootBelow_of_above
        (h.above_of_extends h.withBDD_extends hk (ho _ _ _ _ withBDD_bdd_new).1)

variable [DecidableEq A] [DecidableEq S] (L : TermLanguage V A S)
  {ok : FOBDDManager A S → ℕ → ℕ → Bool}

section Always

open Op

theorem quantifyIndependent_always (n : ℕ) (sort : S) (b : ℕ) :
    Refines (quantifyIndependent L ok n sort b) (quantifyIndependent L always n sort b) := by
  unfold quantifyIndependent
  split
  · exact Refines.refl _
  · refine Refines.bind_left fun k => Refines.get_bind fun s => ?_
    rw [always, if_pos rfl]
    split_ifs
    · exact Refines.refl _
    · exact Refines.failure _

theorem quantifyDependent_always {rec rec' : S → ℕ → Op A S ℕ}
    (hrec : ∀ sort b, Refines (rec sort b) (rec' sort b)) (n : ℕ) (sort : S) (b : ℕ) :
    Refines (quantifyDependent L n rec sort b) (quantifyDependent L n rec' sort b) := by
  refine Refines.get_bind fun s => ?_
  cases s.quanttable sort b with
  | some result => exact Refines.refl _
  | none =>
    refine Refines.bind_left fun k => Refines.bind (Refines.bind_left fun o => ?_)
      fun result => Refines.refl _
    split_ifs
    · exact Refines.bind_left fun f => (hrec sort f).bind fun nf => Refines.bind_left fun t =>
        (hrec sort t).bind fun nt => Refines.refl _
    · exact Refines.refl _

theorem quantify_always (n : ℕ) (sort : S) (b : ℕ) :
    Refines (quantify L ok n sort b) (quantify L always n sort b) := by
  induction n generalizing sort b with
  | zero => exact Refines.failure _
  | succ n ih =>
    unfold quantify
    split_ifs
    · exact Refines.refl _
    · exact quantifyIndependent_always L n sort b
    · refine Refines.bind_left fun v => ?_
      cases v
      · exact quantifyIndependent_always L n sort b
      · exact quantifyDependent_always L ih n sort b

theorem existsquantify_always (n : ℕ) (var : V) (b : ℕ) :
    Refines (existsquantify L ok n var b) (existsquantify L always n var b) :=
  Refines.bind_left fun b' => quantify_always L n (L.sort var) b'

theorem univquantify_always (n : ℕ) (var : V) (b : ℕ) :
    Refines (univquantify L ok n var b) (univquantify L always n var b) :=
  Refines.bind_left fun b' => (existsquantify_always L n var b').bind fun _ => Refines.refl _

end Always

-- what the code returns the guarded operation returns too, if the order has not been broken
def Guards (op op' : S → ℕ → Op A S ℕ) : Prop :=
  ∀ s sort b r s', Inv False s → s.bdd b ≠ none → (op sort b).run s = some (r, s') →
    s'.Ordered → (op' sort b).run s = some (r, s')

theorem quantifyIndependent_of_ordered {n : ℕ} {sort : S} {b r : ℕ} (h : Inv False s)
    (hr : (quantifyIndependent L always n sort b).run s = some (r, s'))
    (ho : s'.Ordered) : (quantifyIndependent L rootBelow n sort b).run s = some (r, s') := by
  unfold quantifyIndependent at hr ⊢
  split at hr
  · exact hr
  · obtain ⟨k, s1, hk, hr⟩ := Op.bind_eq_some.mp hr
    have hg := sortNotEmpty_gives L h hk
    refine Op.bind_eq_some.mpr ⟨k, s1, hk, ?_⟩
    rw [Op.get_bind] at hr ⊢
    rw [always, if_pos rfl] at hr
    rw [if_pos (rootBelow_of_getBDD hg.inv hg.kernel hr ho)]
    exact hr

theorem quantifyRoot_of_ordered {rec rec' : S → ℕ → Op A S ℕ} (hq : Quantifies False rec)
    (hrec : Guards rec rec') {n : ℕ} {sort : S} {b k t f r : ℕ} (h : Inv False s)
    (hb : s.bdd b = some (.branch k t f))
    (hr : (quantifyRoot L n rec sort b k).run s = some (r, s')) (ho : s'.Ordered) :
    (quantifyRoot L n rec' sort b k).run s = some (r, s') := by
  obtain ⟨ht, hf, hk⟩ := h.children hb
  obtain ⟨o, s1, hget, hr⟩ := Op.bind_eq_some.mp hr
  refine Op.bind_eq_some.mpr ⟨o, s1, hget, ?_⟩
  obtain ⟨-, rfl⟩ := getOrder_eq_some.mp hget
  split_ifs at hr ⊢ with hcat
  · simp only [Op.bind_eq_some] at hr ⊢
    obtain ⟨f', s2, hf', nf, s3, hnf, t', s4, ht', nt, s5, hnt, hr⟩ := hr
    obtain ⟨rfl, rfl⟩ := falsebranch_branch hb hf'
    have hbf := hq _ _ _ _ _ h hf hnf
    have ht'' := ht'
    obtain ⟨rfl, rfl⟩ := truebranch_branch (hbf.ext.bdd b _ hb) ht'
    have hbt := hq _ _ _ _ _ hbf.inv (hbf.ext.valid ht) hnt
    have hres := ifthenelse_chooses n _ _ _ _ _ _ hbt.inv ((hbf.ext.trans hbt.ext).order_ne hk)
      hbt.valid (hbt.ext.valid hbf.valid) hr
    have ho5 := hbt.inv.ordered_of_extends hres.ext ho
    have ho3 := hbf.inv.ordered_of_extends hbt.ext ho5
    exact ⟨_, _, hf', nf, s3, hrec _ _ _ _ _ h hf hnf ho3, _, _, ht'', nt, s5,
      hrec _ _ _ _ _ hbf.inv (hbf.ext.valid ht) hnt ho5, hr⟩
  · exact hr

theorem quantifyDependent_of_ordered {rec rec' : S → ℕ → Op A S ℕ} (hq : Quantifies False rec)
    (hrec : Guards rec rec') {n : ℕ} {sort : S} {b k t f r : ℕ} (h : Inv False s)
    (hb : s.bdd b = some (.branch k t f))
    (hr : (quantifyDependent L n rec sort b).run s = some (r, s')) (ho : s'.Ordered) :
    (quantifyDependent L n rec' sort b).run s = some (r, s') := by
  rw [quantifyDependent, Op.get_bind] at hr ⊢
  cases hm : s.quanttable sort b with
  | some result =>
    rw [hm] at hr
    exact hr
  | none =>
    rw [hm] at hr
    simp only [Op.bind_eq_some] at hr ⊢
    obtain ⟨k', s1, hk', r', s2, hr', u, s3, hstore, hpure⟩ := hr
    have hk := hk'
    obtain ⟨rfl, rfl⟩ := kernelOf_branch hb hk'
    refine ⟨_, _, hk, r', s2, quantifyRoot_of_ordered L hq hrec h hb hr' ?_, u, s3, hstore, hpure⟩
    obtain rfl := Op.modify_eq_some.mp hstore
    obtain ⟨rfl, rfl⟩ := Op.pure_eq_some.mp hpure
    exact ho

theorem quantify_of_ordered (n : ℕ) : Guards (quantify L always n) (quantify L rootBelow n) := by
  induction n with
  | zero =>
    intro s sort b r s' _ _ hr
    exact absurd hr Op.failure_eq_some
  | succ n ih =>
    intro s sort b r s' h hb hr ho
    rw [quantify] at hr ⊢
    split_ifs at hr ⊢ with h1 h2
    · exact hr
    · exact quantifyIndependent_of_ordered L h hr ho
    · obtain rfl | rfl | ⟨k, t, f, hn⟩ := h.leaf_or_branch hb
      · exact absurd rfl h2
      · exact absurd rfl h1
      · obtain ⟨v, s1, hv, hr⟩ := Op.bind_eq_some.mp hr
        refine Op.bind_eq_some.mpr ⟨v, s1, hv, ?_⟩
        obtain rfl := containsDeBruijnIndex_reads L n b 0 s v s1 hv
        cases v
        · exact quantifyIndependent_of_ordered L h hr ho
        · exact quantifyDependent_of_ordered L (quantify_quantifies L (fun h => h.elim) n) ih h hn
            hr ho

theorem existsquantify_of_ordered {n : ℕ} {var : V} {b r : ℕ} (h : Inv False s)
    (hb : s.bdd b ≠ none) (hr : (existsquantify L always n var b).run s = some (r, s'))
    (ho : s'.Ordered) : (existsquantify L rootBelow n var b).run s = some (r, s') := by
  obtain ⟨b', s1, hb', hr⟩ := Op.bind_eq_some.mp hr
  have hb1 := change_changes L _ n _ _ _ _ _ h hb hb'
  exact Op.bind_eq_some.mpr ⟨b', s1, hb', quantify_of_ordered L n _ _ _ _ _ hb1.inv hb1.valid hr ho⟩

theorem univquantify_of_ordered {n : ℕ} {var : V} {b r : ℕ} (h : Inv False s)
    (hb : s.bdd b ≠ none) (hr : (univquantify L always n var b).run s = some (r, s'))
    (ho : s'.Ordered) : (univquantify L rootBelow n var b).run s = some (r, s') := by
  simp only [univquantify, Op.bind_eq_some] at hr ⊢
  obtain ⟨b1, s1, h1, b2, s2, h2, hr⟩ := hr
  have hb1 := (negation_negates n _ _ _ _ h hb h1).builds
  have hb2 := existsquantify_builds L (fun h => h.elim) hb1.inv hb1.valid h2
  have hb3 := negation_negates n _ _ _ _ hb2.inv hb2.valid hr
  exact ⟨b1, s1, h1, b2, s2, existsquantify_of_ordered L hb1.inv hb1.valid h2
    (hb2.inv.ordered_of_extends hb3.ext ho), hr⟩

end Guard

end FOBDDManager

end FoBdd
