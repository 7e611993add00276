import DeclarativeLocalSearch.FoBdd.Meaning

namespace FoBdd

open DecisionDiagram

variable {V A S : Type}

namespace Op

variable {α β : Type} {s : FOBDDManager A S}

-- a run from s returns, and Q holds of what it returns
def Succeeds (m : Op A S α) (s : FOBDDManager A S) (Q : α → FOBDDManager A S → Prop) : Prop :=
  ∃ a s', m.run s = some (a, s') ∧ Q a s'

theorem Succeeds.pure {Q : α → FOBDDManager A S → Prop} {a : α} (h : Q a s) :
    Succeeds (Pure.pure a) s Q :=
  ⟨a, s, pure_eq_some.mpr ⟨rfl, rfl⟩, h⟩

theorem Succeeds.bind {m : Op A S α} {f : α → Op A S β} {Q : β → FOBDDManager A S → Prop}
    (h : Succeeds m s fun a s' => Succeeds (f a) s' Q) : Succeeds (m >>= f) s Q := by
  obtain ⟨a, s1, h1, b, s2, h2, hQ⟩ := h
  exact ⟨b, s2, bind_eq_some.mpr ⟨a, s1, h1, h2⟩, hQ⟩

theorem Succeeds.get_bind {f : FOBDDManager A S → Op A S β} {Q : β → FOBDDManager A S → Prop}
    (h : Succeeds (f s) s Q) : Succeeds (get >>= f) s Q := h

theorem Succeeds.mono {m : Op A S α} {Q Q' : α → FOBDDManager A S → Prop} (h : Succeeds m s Q)
    (hQ : ∀ a s', Q a s' → Q' a s') : Succeeds m s Q' := by
  obtain ⟨a, s', hr, hq⟩ := h
  exact ⟨a, s', hr, hQ a s' hq⟩

theorem Succeeds.after {m : Op A S α} {Q Q' : α → FOBDDManager A S → Prop} (h : Succeeds m s Q)
    (hQ : ∀ a s', m.run s = some (a, s') → Q a s' → Q' a s') : Succeeds m s Q' := by
  obtain ⟨a, s', hr, hq⟩ := h
  exact ⟨a, s', hr, hQ a s' hr hq⟩

end Op

namespace FOBDDManager

open Op

variable {s s' : FOBDDManager A S} {c : Prop}

section Accessors

theorem kernelOf_succeeds {b k t f : ℕ} (hb : s.bdd b = some (.branch k t f)) :
    Succeeds (kernelOf b) s fun k' s' => k = k' ∧ s = s' := by
  refine Succeeds.get_bind ?_
  rw [hb]
  exact Succeeds.pure ⟨rfl, rfl⟩

theorem truebranch_succeeds {b k t f : ℕ} (hb : s.bdd b = some (.branch k t f)) :
    Succeeds (truebranch b) s fun t' s' => t = t' ∧ s = s' := by
  refine Succeeds.get_bind ?_
  rw [hb]
  exact Succeeds.pure ⟨rfl, rfl⟩

theorem falsebranch_succeeds {b k t f : ℕ} (hb : s.bdd b = some (.branch k t f)) :
    Succeeds (falsebranch b) s fun f' s' => f = f' ∧ s = s' := by
  refine Succeeds.get_bind ?_
  rw [hb]
  exact Succeeds.pure ⟨rfl, rfl⟩

theorem getOrder_succeeds {k : ℕ} {o : KernelOrder} (ho : s.order k = some o) :
    Succeeds (getOrder k) s fun o' s' => o = o' ∧ s = s' := by
  refine Succeeds.get_bind ?_
  rw [ho]
  exact Succeeds.pure ⟨rfl, rfl⟩

theorem kernelLess_succeeds {k k' : ℕ} (hk : s.order k ≠ none) (hk' : s.order k' ≠ none) :
    Succeeds (kernelLess k k') s fun v s' => (v = true ↔ s.lt k k') ∧ s = s' := by
  obtain ⟨o, ho⟩ := Option.ne_none_iff_exists'.mp hk
  obtain ⟨o', ho'⟩ := Option.ne_none_iff_exists'.mp hk'
  refine Succeeds.bind ((getOrder_succeeds ho).mono ?_)
  rintro _ _ ⟨rfl, rfl⟩
  refine Succeeds.bind ((getOrder_succeeds ho').mono ?_)
  rintro _ _ ⟨rfl, rfl⟩
  refine Succeeds.pure ⟨⟨fun hless => ⟨_, _, ho, ho', hless⟩, ?_⟩, rfl⟩
  rintro ⟨p, p', hp, hp', hless⟩
  rw [ho] at hp
  rw [ho'] at hp'
  cases hp
  cases hp'
  exact hless

theorem getContent_succeeds {k : ℕ} {x : KernelContent A S} (hx : s.content k = some x) :
    Succeeds (getContent k) s fun x' s' => x = x' ∧ s = s' := by
  refine Succeeds.get_bind ?_
  rw [hx]
  exact Succeeds.pure ⟨rfl, rfl⟩

theorem getBDD_succeeds (s : FOBDDManager A S) (k t f : ℕ) :
    Succeeds (getBDD k t f) s fun _ _ => True := by
  unfold getBDD
  split_ifs
  · exact Succeeds.pure trivial
  · exact Succeeds.pure trivial
  · exact Succeeds.pure trivial
  · refine Succeeds.get_bind ?_
    split
    · exact Succeeds.pure trivial
    · exact ⟨_, _, addBDD_eq_some.mpr ⟨rfl, rfl⟩, trivial⟩

theorem getBDD_extends (h : Inv c s) {k t f r : ℕ} (hr : (getBDD k t f).run s = some (r, s')) :
    Extends s s' := by
  unfold getBDD at hr
  split_ifs at hr
  · obtain ⟨rfl, rfl⟩ := pure_eq_some.mp hr
    exact Extends.refl s
  · obtain ⟨rfl, rfl⟩ := pure_eq_some.mp hr
    exact Extends.refl s
  · obtain ⟨rfl, rfl⟩ := pure_eq_some.mp hr
    exact Extends.refl s
  · rw [get_bind] at hr
    split at hr
    · obtain ⟨rfl, rfl⟩ := pure_eq_some.mp hr
      exact Extends.refl s
    · obtain ⟨rfl, rfl⟩ := addBDD_eq_some.mp hr
      exact h.withBDD_extends

end Accessors

section Rank

-- a number for each kernel that goes down along the order
def Ranks (rank : ℕ → ℕ) (s : FOBDDManager A S) : Prop := ∀ k k', s.lt k k' → rank k' < rank k

def rootRank (rank : ℕ → ℕ) (s : FOBDDManager A S) (b : ℕ) : ℕ :=
  match s.bdd b with
  | some (.branch k _ _) => rank k + 1
  | _ => 0

-- the orders of a category are numbered, and there is no order beyond the last number
def kernelRank (s : FOBDDManager A S) (k : ℕ) : ℕ :=
  match s.order k with
  | some ⟨.standard, n⟩ => s.nextorder .trueFalse + s.nextorder .deBruijn + n
  | some ⟨.deBruijn, n⟩ => s.nextorder .trueFalse + n
  | some ⟨.trueFalse, n⟩ => n
  | none => 0

theorem Inv.ranks (h : Inv c s) : Ranks s.kernelRank s := by
  rintro k k' ⟨⟨cat, n⟩, ⟨cat', n'⟩, ho, ho', hlt⟩
  have hn' := h.numbers k' _ ho'
  rw [KernelOrder.less_iff, KernelOrder.rank, KernelOrder.rank, Prod.Lex.toLex_lt_toLex] at hlt
  simp only [kernelRank, ho, ho']
  cases cat <;> cases cat' <;> simp only [KernelOrder.depth] at hlt hn' ⊢ <;> omega

variable {rank : ℕ → ℕ}

theorem Ranks.of_order (h : Ranks rank s) (ho : s'.order = s.order) : Ranks rank s' := by
  rintro k k' ⟨o, o', hk, hk', hlt⟩
  rw [ho] at hk hk'
  exact h k k' ⟨o, o', hk, hk', hlt⟩

theorem rootRank_branch {b k t f : ℕ} (hb : s.bdd b = some (.branch k t f)) :
    rootRank rank s b = rank k + 1 := by
  rw [rootRank, hb]

theorem rootRank_of_extends (he : Extends s s') {b : ℕ} (hb : s.bdd b ≠ none) :
    rootRank rank s' b = rootRank rank s b := by
  obtain ⟨n, hn⟩ := Option.ne_none_iff_exists'.mp hb
  rw [rootRank, rootRank, hn, he.bdd b n hn]

theorem rootRank_of_above (h : Ranks rank s) {k b : ℕ} (hb : Above s.lt s.bdd k b) :
    rootRank rank s b ≤ rank k := by
  unfold rootRank
  split
  · rename_i k' t f hn
    exact h k k' (hb k' t f hn)
  · exact Nat.zero_le _

end Rank

section Combine

-- an operation has returned in the state s', with the kernels it found in s
structure Leaves (s s' : FOBDDManager A S) : Prop where
  inv : Inv True s'
  ext : Extends s s'
  order : s'.order = s.order
  content : s'.content = s.content

theorem Returns.leaves {m : Op A S ℕ} (hm : Frames m) {r : ℕ} {P : (ℕ → Prop) → Prop}
    (hr : m.run s = some (r, s')) (h : Returns True s s' r P) : Leaves s s' := by
  obtain ⟨ho, hc, -⟩ := hm s r s' hr
  exact ⟨h.inv, h.ext, ho, hc⟩

variable {op : Connective A S} {den : Prop → Prop → Prop} {rank : ℕ → ℕ} {n : ℕ} {rec : ℕ → ℕ → Op A S ℕ}

-- an operation that returns on two diagrams of less than n levels together
def CombinesBelow (rank : ℕ → ℕ) (n : ℕ) (rec : ℕ → ℕ → Op A S ℕ) : Prop :=
  ∀ s b b', Inv True s → Ranks rank s → s.bdd b ≠ none → s.bdd b' ≠ none →
    rootRank rank s b + rootRank rank s b' < n → Succeeds (rec b b') s fun _ s' => Leaves s s'

theorem Ranks.branches (h : Ranks rank s) (hs : Inv True s) {b k t f : ℕ} (hb : s.bdd b = some (.branch k t f)) :
    rootRank rank s t < rootRank rank s b ∧ rootRank rank s f < rootRank rank s b := by
  obtain ⟨ht, hf⟩ := (hs.sorted trivial).ordered b k t f hb
  rw [rootRank_branch hb]
  exact ⟨Nat.lt_succ_of_le (rootRank_of_above h ht), Nat.lt_succ_of_le (rootRank_of_above h hf)⟩

theorem CombinesBelow.after (hrec : CombinesBelow rank n rec) {s1 : FOBDDManager A S} (hrank : Ranks rank s)
    (hl : Leaves s s1) {b b' : ℕ} (hb : s.bdd b ≠ none) (hb' : s.bdd b' ≠ none)
    (hn : rootRank rank s b + rootRank rank s b' < n) : Succeeds (rec b b') s1 fun _ s' => Leaves s1 s' := by
  refine hrec s1 b b' hl.inv (hrank.of_order hl.order) (hl.ext.valid hb) (hl.ext.valid hb') ?_
  rwa [rootRank_of_extends hl.ext hb, rootRank_of_extends hl.ext hb']

theorem combineNodes_succeeds (hrec : CombinesBelow rank n rec) (h : Inv True s) (hrank : Ranks rank s)
    {b1 b2 k1 k2 t1 t2 f1 f2 : ℕ} (hb1 : s.bdd b1 = some (.branch k1 t1 f1))
    (hb2 : s.bdd b2 = some (.branch k2 t2 f2)) (hn : rootRank rank s b1 + rootRank rank s b2 < n + 1) :
    Succeeds (combineNodes rec b1 b2) s fun _ _ => True := by
  have hv1 : s.bdd b1 ≠ none := by rw [hb1]; exact Option.some_ne_none _
  have hv2 : s.bdd b2 ≠ none := by rw [hb2]; exact Option.some_ne_none _
  obtain ⟨ht1, hf1, hk1⟩ := h.children hb1
  obtain ⟨ht2, hf2, hk2⟩ := h.children hb2
  obtain ⟨hrt1, hrf1⟩ := hrank.branches h hb1
  obtain ⟨hrt2, hrf2⟩ := hrank.branches h hb2
  refine Succeeds.bind ((kernelOf_succeeds hb1).mono ?_)
  rintro _ _ ⟨rfl, rfl⟩
  refine Succeeds.bind ((kernelOf_succeeds hb2).mono ?_)
  rintro _ _ ⟨rfl, rfl⟩
  refine Succeeds.bind ((kernelLess_succeeds hk1 hk2).mono ?_)
  rintro less _ ⟨-, rfl⟩
  cases less with
  | true =>
    refine Succeeds.bind ((falsebranch_succeeds hb1).mono ?_)
    rintro _ _ ⟨rfl, rfl⟩
    refine Succeeds.bind ((hrec _ _ _ h hrank hf1 hv2 (by omega)).mono fun nf s1 hl => ?_)
    refine Succeeds.bind ((truebranch_succeeds (hl.ext.bdd _ _ hb1)).mono ?_)
    rintro _ _ ⟨rfl, rfl⟩
    exact Succeeds.bind ((hrec.after hrank hl ht1 hv2 (by omega)).mono fun nt s2 _ => getBDD_succeeds s2 _ nt nf)
  | false =>
    refine Succeeds.bind ((kernelLess_succeeds hk2 hk1).mono ?_)
    rintro less _ ⟨-, rfl⟩
    cases less with
    | true =>
      refine Succeeds.bind ((falsebranch_succeeds hb2).mono ?_)
      rintro _ _ ⟨rfl, rfl⟩
      refine Succeeds.bind ((hrec _ _ _ h hrank hv1 hf2 (by omega)).mono fun nf s1 hl => ?_)
      refine Succeeds.bind ((truebranch_succeeds (hl.ext.bdd _ _ hb2)).mono ?_)
      rintro _ _ ⟨rfl, rfl⟩
      exact Succeeds.bind ((hrec.after hrank hl hv1 ht2 (by omega)).mono fun nt s2 _ => getBDD_succeeds s2 _ nt nf)
    | false =>
      refine Succeeds.bind ((falsebranch_succeeds hb1).mono ?_)
      rintro _ _ ⟨rfl, rfl⟩
      refine Succeeds.bind ((falsebranch_succeeds hb2).mono ?_)
      rintro _ _ ⟨rfl, rfl⟩
      refine Succeeds.bind ((hrec _ _ _ h hrank hf1 hf2 (by omega)).mono fun nf s1 hl => ?_)
      refine Succeeds.bind ((truebranch_succeeds (hl.ext.bdd _ _ hb1)).mono ?_)
      rintro _ _ ⟨rfl, rfl⟩
      refine Succeeds.bind ((truebranch_succeeds (hl.ext.bdd _ _ hb2)).mono ?_)
      rintro _ _ ⟨rfl, rfl⟩
      exact Succeeds.bind ((hrec.after hrank hl ht1 ht2 (by omega)).mono fun nt s2 _ => getBDD_succeeds s2 _ nt nf)

theorem combineOrdered_succeeds (hstore : ∀ s b b' r, Succeeds (op.store b b' r) s fun _ _ => True)
    (hrec : CombinesBelow rank n rec) (h : Inv True s) (hrank : Ranks rank s)
    {b1 b2 k1 k2 t1 t2 f1 f2 : ℕ} (hb1 : s.bdd b1 = some (.branch k1 t1 f1))
    (hb2 : s.bdd b2 = some (.branch k2 t2 f2)) (hn : rootRank rank s b1 + rootRank rank s b2 < n + 1) :
    Succeeds (combineOrdered op rec b1 b2) s fun _ _ => True := by
  refine Succeeds.get_bind ?_
  split
  · exact Succeeds.pure trivial
  · refine Succeeds.bind ((combineNodes_succeeds hrec h hrank hb1 hb2 hn).mono fun r s1 _ => ?_)
    exact Succeeds.bind ((hstore s1 b1 b2 r).mono fun _ _ _ => Succeeds.pure trivial)

theorem combine_succeeds (before : ℕ → ℕ → Bool) (hm : Means True op den)
    (hframe : ∀ b b' r, Frames (op.store b b' r)) (hstore : ∀ s b b' r, Succeeds (op.store b b' r) s fun _ _ => True)
    (rank : ℕ → ℕ) (n : ℕ) : CombinesBelow rank n (combine before op n) := by
  induction n with
  | zero => exact fun s b b' _ _ _ _ hn => absurd hn (Nat.not_lt_zero _)
  | succ n ih =>
    intro s b1 b2 h hrank hb1 hb2 hn
    have hbranch : ∀ {b}, s.bdd b ≠ none → b ≠ op.zero → b ≠ op.one → ∃ k t f, s.bdd b = some (.branch k t f) := by
      intro b hb hz ho
      obtain hl | hl | hn := h.leaf_or_branch hb
      · exact ((hm.leaf b (Or.inl hl)).elim hz ho).elim
      · exact ((hm.leaf b (Or.inr hl)).elim hz ho).elim
      · exact hn
    have hret : Succeeds (combine before op (n + 1) b1 b2) s fun _ _ => True := by
      rw [combine]
      split_ifs with h1 h2 h3 h4 h5
      · exact Succeeds.pure trivial
      · exact Succeeds.pure trivial
      · exact Succeeds.pure trivial
      · exact Succeeds.pure trivial
      all_goals
        rw [not_or] at h1
        obtain ⟨k1, t1, f1, hn1⟩ := hbranch hb1 h1.1 h2
        obtain ⟨k2, t2, f2, hn2⟩ := hbranch hb2 h1.2 h3
      · exact combineOrdered_succeeds hstore ih h hrank hn2 hn1 (by omega)
      · exact combineOrdered_succeeds hstore ih h hrank hn1 hn2 hn
    exact hret.after fun r s' hr _ => Returns.leaves (combine_frames before hframe (n + 1) b1 b2) hr
      (combine_combines before hm (n + 1) s b1 b2 r s' h hb1 hb2 hr)

theorem conjunction_succeeds (before : ℕ → ℕ → Bool) (rank : ℕ → ℕ) (n : ℕ) :
    CombinesBelow rank n (conjunction before n : ℕ → ℕ → Op A S ℕ) := by
  refine combine_succeeds before conjunctive_means (fun _ _ _ => Frames.modify fun s => ?_)
    (fun s b b' r => ⟨(), _, rfl, trivial⟩) rank n
  exact ⟨rfl, rfl, rfl⟩

theorem disjunction_succeeds (before : ℕ → ℕ → Bool) (rank : ℕ → ℕ) (n : ℕ) :
    CombinesBelow rank n (disjunction before n : ℕ → ℕ → Op A S ℕ) := by
  refine combine_succeeds before disjunctive_means (fun _ _ _ => Frames.modify fun s => ?_)
    (fun s b b' r => ⟨(), _, rfl, trivial⟩) rank n
  exact ⟨rfl, rfl, rfl⟩

end Combine

section IfThenElse

-- the weight of a diagram of s0 is above those of its branches
structure Weighs (s0 : FOBDDManager A S) (W : ℕ → ℕ) : Prop where
  closed : Closed s0.bdd
  child : ∀ b k hi lo, s0.bdd b = some (.branch k hi lo) → W hi < W b ∧ W lo < W b

-- an operation that returns on two diagrams of s0 of less than n together, whatever has been added to s0
def ChoosesBelow (s0 : FOBDDManager A S) (W : ℕ → ℕ) (n : ℕ) (rec : ℕ → ℕ → ℕ → Op A S ℕ) : Prop :=
  ∀ s k t f, Extends s0 s → Inv False s → s.order k ≠ none → s0.bdd t ≠ none → s0.bdd f ≠ none →
    W t + W f < n → Succeeds (rec k t f) s fun _ s' => Extends s s' ∧ Inv False s'

variable {s0 : FOBDDManager A S} {W : ℕ → ℕ} {n k t f : ℕ} {rec : ℕ → ℕ → ℕ → Op A S ℕ}

theorem Weighs.branches (hW : Weighs s0 W) (he : Extends s0 s) (hb : s0.bdd t ≠ none) {k' t' f' : ℕ}
    (hn : s.bdd t = some (.branch k' t' f')) :
    (s0.bdd t' ≠ none ∧ s0.bdd f' ≠ none) ∧ W t' < W t ∧ W f' < W t := by
  obtain ⟨x, hx⟩ := Option.ne_none_iff_exists'.mp hb
  have hn0 : s0.bdd t = some (.branch k' t' f') := hx.trans ((he.bdd t x hx).symm.trans hn)
  exact ⟨hW.closed t k' t' f' hn0, hW.child t k' t' f' hn0⟩

theorem splitTrue_succeeds (hW : Weighs s0 W) (hrec : ChoosesBelow s0 W n rec) (he : Extends s0 s) (h : Inv False s)
    (hk : s.order k ≠ none) (ht : s0.bdd t ≠ none) (hf : s0.bdd f ≠ none) {k' t' f' : ℕ}
    (htn : s.bdd t = some (.branch k' t' f')) (hn : W t + W f < n + 1) :
    Succeeds (splitTrue rec k t f k') s fun _ _ => True := by
  obtain ⟨⟨ht', hf'⟩, hlt, hlf⟩ := hW.branches he ht htn
  refine Succeeds.bind ((truebranch_succeeds htn).mono ?_)
  rintro _ _ ⟨rfl, rfl⟩
  refine Succeeds.bind ((hrec _ _ _ _ he h hk ht' hf (by omega)).mono fun nt s1 hs1 => ?_)
  refine Succeeds.bind ((falsebranch_succeeds (hs1.1.bdd _ _ htn)).mono ?_)
  rintro _ _ ⟨rfl, rfl⟩
  exact Succeeds.bind ((hrec _ _ _ _ (he.trans hs1.1) hs1.2 (hs1.1.order_ne hk) hf' hf (by omega)).mono
    fun nf s2 _ => getBDD_succeeds s2 _ nt nf)

theorem splitFalse_succeeds (hW : Weighs s0 W) (hrec : ChoosesBelow s0 W n rec) (he : Extends s0 s) (h : Inv False s)
    (hk : s.order k ≠ none) (ht : s0.bdd t ≠ none) (hf : s0.bdd f ≠ none) {k' t' f' : ℕ}
    (hfn : s.bdd f = some (.branch k' t' f')) (hn : W t + W f < n + 1) :
    Succeeds (splitFalse rec k t f k') s fun _ _ => True := by
  obtain ⟨⟨ht', hf'⟩, hlt, hlf⟩ := hW.branches he hf hfn
  refine Succeeds.bind ((truebranch_succeeds hfn).mono ?_)
  rintro _ _ ⟨rfl, rfl⟩
  refine Succeeds.bind ((hrec _ _ _ _ he h hk ht ht' (by omega)).mono fun nt s1 hs1 => ?_)
  refine Succeeds.bind ((falsebranch_succeeds (hs1.1.bdd _ _ hfn)).mono ?_)
  rintro _ _ ⟨rfl, rfl⟩
  exact Succeeds.bind ((hrec _ _ _ _ (he.trans hs1.1) hs1.2 (hs1.1.order_ne hk) ht hf' (by omega)).mono
    fun nf s2 _ => getBDD_succeeds s2 _ nt nf)

theorem splitBoth_succeeds (hW : Weighs s0 W) (hrec : ChoosesBelow s0 W n rec) (he : Extends s0 s) (h : Inv False s)
    (hk : s.order k ≠ none) (ht : s0.bdd t ≠ none) (hf : s0.bdd f ≠ none) {k' k'' t1 f1 t2 f2 : ℕ}
    (htn : s.bdd t = some (.branch k' t1 f1)) (hfn : s.bdd f = some (.branch k'' t2 f2)) (hn : W t + W f < n + 1) :
    Succeeds (splitBoth rec k t f k') s fun _ _ => True := by
  obtain ⟨⟨ht1, hf1⟩, hlt1, hlf1⟩ := hW.branches he ht htn
  obtain ⟨⟨ht2, hf2⟩, hlt2, hlf2⟩ := hW.branches he hf hfn
  refine Succeeds.bind ((truebranch_succeeds htn).mono ?_)
  rintro _ _ ⟨rfl, rfl⟩
  refine Succeeds.bind ((truebranch_succeeds hfn).mono ?_)
  rintro _ _ ⟨rfl, rfl⟩
  refine Succeeds.bind ((hrec _ _ _ _ he h hk ht1 ht2 (by omega)).mono fun nt s1 hs1 => ?_)
  refine Succeeds.bind ((falsebranch_succeeds (hs1.1.bdd _ _ htn)).mono ?_)
  rintro _ _ ⟨rfl, rfl⟩
  refine Succeeds.bind ((falsebranch_succeeds (hs1.1.bdd _ _ hfn)).mono ?_)
  rintro _ _ ⟨rfl, rfl⟩
  exact Succeeds.bind ((hrec _ _ _ _ (he.trans hs1.1) hs1.2 (hs1.1.order_ne hk) hf1 hf2 (by omega)).mono
    fun nf s2 _ => getBDD_succeeds s2 _ nt nf)

theorem root_succeeds (h : Inv c s) {o : KernelOrder} (ho : s.order k = some o) (hcat : o.category ≠ .trueFalse)
    {b : ℕ} (hb : s.bdd b ≠ none) : Succeeds (kernelOf b) s fun k' s' => s = s' ∧ s.order k' ≠ none ∧
      (s.lt k k' ∨ (k = k' ∨ s.lt k' k) ∧ ∃ t f, s.bdd b = some (.branch k' t f)) := by
  have hrun : ∃ k', (kernelOf b).run s = some (k', s) := by
    rw [kernelOf, Op.get_bind]
    cases hn : s.bdd b with
    | none => exact absurd hn hb
    | some x => cases x <;> exact ⟨_, rfl⟩
  obtain ⟨k', hk'⟩ := hrun
  refine ⟨k', s, hk', rfl, ?_⟩
  obtain ⟨-, ⟨hlt, -⟩ | ⟨rfl, hn⟩ | ⟨hlt, hn⟩⟩ := h.root_cases ho hcat hk'
  · obtain ⟨_, o', _, ho', _⟩ := id hlt
    exact ⟨by rw [ho']; exact Option.some_ne_none _, Or.inl hlt⟩
  · exact ⟨by rw [ho]; exact Option.some_ne_none _, Or.inr ⟨Or.inl rfl, hn⟩⟩
  · obtain ⟨o', _, ho', _, _⟩ := id hlt
    exact ⟨by rw [ho']; exact Option.some_ne_none _, Or.inr ⟨Or.inr hlt, hn⟩⟩

theorem placeKernel_succeeds (hW : Weighs s0 W) (hrec : ChoosesBelow s0 W n rec) (he : Extends s0 s) (h : Inv False s)
    {o : KernelOrder} (ho : s.order k = some o) (hcat : o.category ≠ .trueFalse) (ht : s0.bdd t ≠ none)
    (hf : s0.bdd f ≠ none) (hn : W t + W f < n + 1) : Succeeds (placeKernel rec k t f) s fun _ _ => True := by
  have hk : s.order k ≠ none := by rw [ho]; exact Option.some_ne_none o
  refine Succeeds.bind ((root_succeeds h ho hcat (he.valid ht)).mono ?_)
  rintro tk _ ⟨rfl, htk, htcases⟩
  refine Succeeds.bind ((root_succeeds h ho hcat (he.valid hf)).mono ?_)
  rintro fk _ ⟨rfl, hfk, hfcases⟩
  -- the root of a branch that the kernel is not above
  have hroot : ∀ {b k'}, ¬ s.lt k k' → (s.lt k k' ∨ (k = k' ∨ s.lt k' k) ∧ ∃ t f, s.bdd b = some (.branch k' t f)) →
      ∃ t f, s.bdd b = some (.branch k' t f) := fun hlt hcases => (hcases.resolve_left hlt).2
  refine Succeeds.bind ((kernelLess_succeeds hk htk).mono ?_)
  rintro less _ ⟨hless, rfl⟩
  by_cases h1 : less = true
  · rw [if_pos h1]
    refine Succeeds.bind ((kernelLess_succeeds hk hfk).mono ?_)
    rintro less' _ ⟨hless', rfl⟩
    by_cases h3 : less' = true
    · rw [if_pos h3]
      exact getBDD_succeeds s k t f
    · obtain ⟨t2, f2, hfn⟩ := hroot (fun hlt => h3 (hless'.mpr hlt)) hfcases
      rw [if_neg h3]
      split_ifs
      · refine Succeeds.bind ((falsebranch_succeeds hfn).mono ?_)
        rintro _ _ ⟨rfl, rfl⟩
        exact getBDD_succeeds s k t f2
      · exact splitFalse_succeeds hW hrec he h hk ht hf hfn hn
  · obtain ⟨t1, f1, htn⟩ := hroot (fun hlt => h1 (hless.mpr hlt)) htcases
    rw [if_neg h1]
    by_cases h2 : k = tk
    · rw [if_pos h2]
      refine Succeeds.bind ((kernelLess_succeeds hk hfk).mono ?_)
      rintro less' _ ⟨hless', rfl⟩
      by_cases h3 : less' = true
      · rw [if_pos h3]
        refine Succeeds.bind ((truebranch_succeeds htn).mono ?_)
        rintro _ _ ⟨rfl, rfl⟩
        exact getBDD_succeeds s k t1 f
      · obtain ⟨t2, f2, hfn⟩ := hroot (fun hlt => h3 (hless'.mpr hlt)) hfcases
        rw [if_neg h3]
        split_ifs
        · refine Succeeds.bind ((truebranch_succeeds htn).mono ?_)
          rintro _ _ ⟨rfl, rfl⟩
          refine Succeeds.bind ((falsebranch_succeeds hfn).mono ?_)
          rintro _ _ ⟨rfl, rfl⟩
          exact getBDD_succeeds s k t1 f2
        · exact splitFalse_succeeds hW hrec he h hk ht hf hfn hn
    · rw [if_neg h2]
      refine Succeeds.bind ((kernelLess_succeeds hk hfk).mono ?_)
      rintro less' _ ⟨hless', rfl⟩
      refine Succeeds.bind ((kernelLess_succeeds htk hfk).mono ?_)
      rintro less'' _ ⟨-, rfl⟩
      split_ifs with h3
      · exact splitTrue_succeeds hW hrec he h hk ht hf htn hn
      · obtain ⟨t2, f2, hfn⟩ := hroot (fun hlt => h3 (Or.inl (hless'.mpr hlt))) hfcases
        exact splitBoth_succeeds hW hrec he h hk ht hf htn hfn hn
      · obtain ⟨t2, f2, hfn⟩ := hroot (fun hlt => h3 (Or.inl (hless'.mpr hlt))) hfcases
        exact splitFalse_succeeds hW hrec he h hk ht hf hfn hn

-- no order of the kernels is needed: each call is made on a branch
theorem ifthenelse_succeeds (hW : Weighs s0 W) (n : ℕ) :
    ChoosesBelow s0 W n (ifthenelse n : ℕ → ℕ → ℕ → Op A S ℕ) := by
  induction n with
  | zero => exact fun s k t f _ _ _ _ _ hn => absurd hn (Nat.not_lt_zero _)
  | succ n ih =>
    intro s k t f he h hk ht hf hn
    have hret : Succeeds (ifthenelse (n + 1) k t f) s fun _ _ => True := by
      refine Succeeds.get_bind ?_
      split
      · exact Succeeds.pure trivial
      · unfold mergeKernel
        split_ifs with h1 h2 h3
        · exact Succeeds.pure trivial
        · exact Succeeds.pure trivial
        · exact Succeeds.pure trivial
        · obtain ⟨o, ho⟩ := Option.ne_none_iff_exists'.mp hk
          have hcat : o.category ≠ .trueFalse := fun hcat => (h.constant k o ho hcat).elim h1 h2
          refine Succeeds.bind ((placeKernel_succeeds hW ih he h ho hcat ht hf hn).mono fun r s1 _ => ?_)
          exact ⟨r, _, rfl, trivial⟩
    exact hret.after fun r s' hr _ =>
      have hr' := ifthenelse_chooses (n + 1) s k t f r s' h hk (he.valid ht) (he.valid hf) hr
      ⟨hr'.ext, hr'.inv⟩

end IfThenElse

end FOBDDManager

end FoBdd
