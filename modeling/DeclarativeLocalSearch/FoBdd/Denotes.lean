import DeclarativeLocalSearch.FoBdd.Meaning
import DeclarativeLocalSearch.FoBdd.Runs

set_option linter.unusedSectionVars false

namespace FoBdd

open DecisionDiagram

variable {V A S D : Type} [DecidableEq V] {L : TermLanguage V A S}

namespace FOBDDManager

-- a manager of kernels without sets, whose standard kernels are without the index 0 and whose memo table
-- of the quantifications is right
structure Sound (M : Meaning L D) (s : FOBDDManager A S) : Prop where
  inv : Inv False s
  plain : ∀ k x, s.content k = some x → x.plain
  constants : s.content truekernel = some .trueKernel ∧ s.content falsekernel = some .falseKernel
  standard : ∀ v, M.Coherent s v → ∀ k o, s.order k = some o → o.category = .standard →
    ∀ e i i', AgreeBut 0 i i' → (v k (e, i) ↔ v k (e, i'))
  quantified : ∀ v, M.Coherent s v → ∀ sort b r, s.quanttable sort b = some r → ∀ e c,
    M.bdd s v r e (fun _ => c) ↔ ∃ d, M.sort sort d ∧ M.bdd s v b e (push d fun _ => c)

-- an operation has returned a diagram, or a kernel, in the state s', and it means Q
structure Denotes (M : Meaning L D) (s s' : FOBDDManager A S) (r : ℕ)
    (Q : Meaning.Valuation V D → (V → D) → (ℕ → D) → Prop) : Prop where
  sound : Sound M s'
  ext : Extends s s'
  valid : s'.bdd r ≠ none
  meaning : ∀ v, M.Coherent s' v → ∀ e i, M.bdd s' v r e i ↔ Q v e i

structure DenotesKernel (M : Meaning L D) (s s' : FOBDDManager A S) (k : ℕ)
    (Q : Meaning.Valuation V D → (V → D) → (ℕ → D) → Prop) : Prop where
  sound : Sound M s'
  ext : Extends s s'
  kernel : s'.order k ≠ none
  meaning : ∀ v, M.Coherent s' v → ∀ e i, Meaning.kernel v k e i ↔ Q v e i

variable {M : Meaning L D} {s s' : FOBDDManager A S} {Q Q' : Meaning.Valuation V D → (V → D) → (ℕ → D) → Prop}

theorem Sound.bdd_eq (h : Sound M s) (he : Extends s s') {b : ℕ} (hb : s.bdd b ≠ none) (v : Meaning.Valuation V D) :
    M.bdd s' v b = M.bdd s v b := he.bdd_meaning h.inv hb v

theorem Denotes.same (h : Sound M s) {r : ℕ} (hr : s.bdd r ≠ none) : Denotes M s s r fun v => M.bdd s v r :=
  ⟨h, Extends.refl s, hr, fun _ _ _ _ => Iff.rfl⟩

theorem Denotes.congr {r : ℕ} (h : Denotes M s s' r Q) (hQ : ∀ v, M.Coherent s' v → ∀ e i, Q v e i ↔ Q' v e i) :
    Denotes M s s' r Q' :=
  ⟨h.sound, h.ext, h.valid, fun v hv e i => (h.meaning v hv e i).trans (hQ v hv e i)⟩

theorem Denotes.after {s1 : FOBDDManager A S} {r : ℕ} (he : Extends s s1) (h : Denotes M s1 s' r Q) :
    Denotes M s s' r Q := ⟨h.sound, he.trans h.ext, h.valid, h.meaning⟩

theorem createManager_sound (M : Meaning L D) : Sound M (createManager : FOBDDManager A S) where
  inv := createManager_inv.weaken False.elim
  plain k x h := by rcases createManager_content h with rfl | rfl <;> trivial
  constants := ⟨rfl, rfl⟩
  standard v _ k o ho hcat := by
    rcases createManager_order ho with ⟨-, rfl⟩ | ⟨-, rfl⟩ <;> exact absurd hcat nofun
  quantified := by rintro _ _ _ _ _ ⟨⟩

section Boolean

theorem Sound.of_frame (hs : Sound M s) (hi : Inv False s') (he : Extends s s')
    (hf : s'.order = s.order ∧ s'.content = s.content ∧ s'.quanttable = s.quanttable) : Sound M s' where
  inv := hi
  plain k x hx := hs.plain k x (hf.2.1 ▸ hx)
  constants := hf.2.1 ▸ hs.constants
  standard v hv k o ho := hs.standard v (he.coherent hs.inv hv) k o (hf.1 ▸ ho)
  quantified v hv sort b r hr e c := by
    rw [hf.2.2] at hr
    obtain ⟨hb, hrv⟩ := hs.inv.quantifieds sort b r hr
    rw [hs.bdd_eq he hb, hs.bdd_eq he hrv]
    exact hs.quantified v (he.coherent hs.inv hv) sort b r hr e c

theorem Returns.denotes (hs : Sound M s) {r : ℕ} {P : (ℕ → Prop) → Prop} (h : Returns False s s' r P)
    (hf : s'.order = s.order ∧ s'.content = s.content ∧ s'.quanttable = s.quanttable) :
    Denotes M s s' r fun v e i => P fun k => v k (e, i) :=
  ⟨hs.of_frame h.inv h.ext hf, h.ext, h.valid, fun _ _ _ _ => h.holds _⟩

theorem getBDD_denotes (hs : Sound M s) {k t f r : ℕ} (hk : s.order k ≠ none) (ht : s.bdd t ≠ none)
    (hf : s.bdd f ≠ none) (hr : (getBDD k t f).run s = some (r, s')) :
    Denotes M s s' r fun v e i => Choice (Meaning.kernel v k e i) (M.bdd s v t e i) (M.bdd s v f e i) :=
  (getBDD_returns hs.inv hk ht hf (fun hc => hc.elim) hr).denotes hs (getBDD_frames k t f s r s' hr)

theorem ifthenelse_denotes (hs : Sound M s) {n k t f r : ℕ} (hk : s.order k ≠ none) (ht : s.bdd t ≠ none)
    (hf : s.bdd f ≠ none) (hr : (ifthenelse n k t f).run s = some (r, s')) :
    Denotes M s s' r fun v e i => Choice (Meaning.kernel v k e i) (M.bdd s v t e i) (M.bdd s v f e i) :=
  (ifthenelse_chooses n s k t f r s' hs.inv hk ht hf hr).denotes hs (ifthenelse_frames n k t f s r s' hr)

theorem negation_denotes (hs : Sound M s) {n b r : ℕ} (hb : s.bdd b ≠ none)
    (hr : (negation n b).run s = some (r, s')) : Denotes M s s' r fun v e i => ¬ M.bdd s v b e i :=
  (negation_negates n s b r s' hs.inv hb hr).denotes hs (negation_frames n b s r s' hr)

theorem conjunction_denotes (hs : Sound M s) {before : ℕ → ℕ → Bool} {n b b' r : ℕ} (hb : s.bdd b ≠ none)
    (hb' : s.bdd b' ≠ none) (hr : (conjunction before n b b').run s = some (r, s')) :
    Denotes M s s' r fun v e i => M.bdd s v b e i ∧ M.bdd s v b' e i :=
  (conjunction_combines before n s b b' r s' hs.inv hb hb' hr).denotes hs (conjunction_frames before n b b' s r s' hr)

theorem disjunction_denotes (hs : Sound M s) {before : ℕ → ℕ → Bool} {n b b' r : ℕ} (hb : s.bdd b ≠ none)
    (hb' : s.bdd b' ≠ none) (hr : (disjunction before n b b').run s = some (r, s')) :
    Denotes M s s' r fun v e i => M.bdd s v b e i ∨ M.bdd s v b' e i :=
  (disjunction_combines before n s b b' r s' hs.inv hb hb' hr).denotes hs (disjunction_frames before n b b' s r s' hr)

theorem Sound.true_valid (h : Sound M s) : s.bdd truebdd ≠ none := h.inv.true_valid

theorem Sound.false_valid (h : Sound M s) : s.bdd falsebdd ≠ none := h.inv.false_valid

theorem Sound.bdd_true (h : Sound M s) (v : Meaning.Valuation V D) (e : V → D) (i : ℕ → D) : M.bdd s v truebdd e i :=
  h.inv.holds_true _

theorem Sound.not_bdd_false (h : Sound M s) (v : Meaning.Valuation V D) (e : V → D) (i : ℕ → D) :
    ¬ M.bdd s v falsebdd e i := h.inv.not_holds_false _

theorem Sound.constant_valid (h : Sound M s) (w : Bool) : s.bdd (if w then truebdd else falsebdd) ≠ none := by
  cases w
  · exact h.false_valid
  · exact h.true_valid

theorem Sound.constant_iff (h : Sound M s) (w : Bool) (v : Meaning.Valuation V D) (e : V → D) (i : ℕ → D) :
    M.bdd s v (if w then truebdd else falsebdd) e i ↔ w = true := by
  cases w
  · exact iff_of_false (h.not_bdd_false v e i) Bool.false_ne_true
  · exact iff_of_true (h.bdd_true v e i) rfl

end Boolean

section Contains

theorem Sound.bdd_branch (h : Sound M s) {b k t f : ℕ} (hb : s.bdd b = some (.branch k t f))
    (v : Meaning.Valuation V D) (e : V → D) (i : ℕ → D) :
    M.bdd s v b e i ↔ Choice (Meaning.kernel v k e i) (M.bdd s v t e i) (M.bdd s v f e i) :=
  h.inv.holds_node hb _

-- a diagram does not depend on an index it does not contain
def Independent (M : Meaning L D) (s : FOBDDManager A S) (j b : ℕ) : Prop :=
  ∀ v, M.Coherent s v → ∀ e i i', AgreeBut j i i' → (M.bdd s v b e i ↔ M.bdd s v b e i')

theorem contentContains_false {rec : ℕ → ℕ → Op A S Bool} {x : KernelContent A S}
    (hrec : ∀ b j s', (rec b j).run s = some (false, s') → Independent M s j b) (hx : x.plain) {j : ℕ}
    (hr : (contentContains L rec x j).run s = some (false, s')) {v : Meaning.Valuation V D} (hv : M.Coherent s v)
    {e : V → D} {i i' : ℕ → D} (hi : AgreeBut j i i') :
    M.interpretation.content (M.interpretation.meaning s v) x (e, i) ↔
      M.interpretation.content (M.interpretation.meaning s v) x (e, i') := by
  cases x with
  | trueKernel => exact Iff.rfl
  | falseKernel => exact Iff.rfl
  | atom a sets =>
    rw [contentContains] at hr
    split_ifs at hr with hcontains
    · exact absurd (Op.pure_eq_some.mp hr).1 Bool.true_eq_false_eq_False.elim
    · exact M.contains a j (Bool.eq_false_iff.mpr hcontains) e i i' hi
  | quant sort b =>
    exact exists_congr fun d => and_congr_right fun _ => hrec b (j + 1) s' hr v hv e _ _ (hi.push d)
  | agg left right sets => exact hx.elim

theorem containsDeBruijnIndex_false (hs : Sound M s) {n b j : ℕ}
    (hr : (containsDeBruijnIndex L n b j).run s = some (false, s')) : Independent M s j b := by
  induction n generalizing b j s' with
  | zero => exact absurd hr Op.failure_eq_some
  | succ n ih =>
    intro v hv e i i' hi
    rw [containsDeBruijnIndex, Op.get_bind] at hr
    split at hr
    · exact absurd hr Op.failure_eq_some
    · rename_i w hw
      exact (holds_leaf hw).trans (holds_leaf hw).symm
    · rename_i k t f hb
      obtain ⟨kernelContains, s1, hk, hr⟩ := Op.bind_eq_some.mp hr
      obtain ⟨x, s2, hx, hk⟩ := Op.bind_eq_some.mp hk
      obtain ⟨rfl, hcontent⟩ := getContent_eq_some hx
      obtain rfl := contentContains_reads L (containsDeBruijnIndex_reads L n) x j _ _ _ hk
      cases kernelContains with
      | true => exact absurd (Op.pure_eq_some.mp hr).1 Bool.true_eq_false_eq_False.elim
      | false =>
        obtain ⟨branchContains, s2, hf, hr⟩ := Op.bind_eq_some.mp hr
        obtain rfl := containsDeBruijnIndex_reads L n f j _ _ _ hf
        cases branchContains with
        | true => exact absurd (Op.pure_eq_some.mp hr).1 Bool.true_eq_false_eq_False.elim
        | false =>
          have hkernel : v k (e, i) ↔ v k (e, i') := by
            rw [hv k x hcontent]
            exact contentContains_false (fun b j s' => ih) (hs.plain k x hcontent) hk hv hi
          rw [hs.bdd_branch hb, hs.bdd_branch hb, ih hf v hv e i i' hi, ih hr v hv e i i' hi,
            Meaning.kernel, Meaning.kernel, hs.inv.truth_iff hb, hs.inv.truth_iff hb, hkernel]

end Contains

section Kernels

variable [DecidableEq A] [DecidableEq S]

theorem Sound.kernel_iff (hs : Sound M s) {k : ℕ} {x : KernelContent A S} (hk : s.content k = some x)
    (h1 : x ≠ .trueKernel) (h2 : x ≠ .falseKernel) (v : Meaning.Valuation V D) (e : V → D) (i : ℕ → D) :
    Meaning.kernel v k e i ↔ v k (e, i) := by
  have hne1 : k ≠ truekernel := by
    rintro rfl
    exact h1 (Option.some.inj (hk.symm.trans hs.constants.1))
  have hne2 : k ≠ falsekernel := by
    rintro rfl
    exact h2 (Option.some.inj (hk.symm.trans hs.constants.2))
  rw [Meaning.kernel, truth, if_neg hne1, if_neg hne2]

theorem Sound.withKernel (hs : Sound M s) {category : Bool} {x : KernelContent A S} (hx : s.ContentValid x)
    (hplain : x.plain) (hcategory : category = false → ∀ v, M.Coherent s v → ∀ e i i', AgreeBut 0 i i' →
      (M.interpretation.content (M.interpretation.meaning s v) x (e, i) ↔
        M.interpretation.content (M.interpretation.meaning s v) x (e, i'))) :
    Sound M (s.withKernel (if category then .deBruijn else .standard) x) := by
  have he : Extends s (s.withKernel (if category then .deBruijn else .standard) x) := hs.inv.withKernel_extends
  refine ⟨hs.inv.withKernel_inv (by cases category <;> simp) hx, fun k y hk => ?_, ⟨he.content _ _ hs.constants.1,
    he.content _ _ hs.constants.2⟩, fun v hv k o ho hcat e i i' hi => ?_, fun v hv sort b r hr => ?_⟩
  · rcases withKernel_content hk with ⟨-, rfl⟩ | ⟨-, hk⟩
    · exact hplain
    · exact hs.plain k y hk
  · rcases withKernel_order ho with ⟨rfl, rfl⟩ | ⟨-, ho⟩
    · have hcontent := hv s.nextkernel x (Function.update_self _ _ _)
      rw [hcontent]
      refine hcategory ?_ v (he.coherent hs.inv hv) e i i' hi
      cases category with
      | true => exact absurd hcat nofun
      | false => rfl
    · exact hs.standard v (he.coherent hs.inv hv) k o ho hcat e i i' hi
  · exact hs.quantified v (he.coherent hs.inv hv) sort b r hr

theorem lookupKernelContent_denotes (hs : Sound M s) {category : Op A S Bool} {x : KernelContent A S} {k : ℕ}
    (hreads : Op.Reads category) (hx : s.ContentValid x) (hplain : x.plain) (h1 : x ≠ .trueKernel)
    (h2 : x ≠ .falseKernel)
    (hcategory : ∀ s', category.run s = some (false, s') → ∀ v, M.Coherent s v → ∀ e i i', AgreeBut 0 i i' →
      (M.interpretation.content (M.interpretation.meaning s v) x (e, i) ↔
        M.interpretation.content (M.interpretation.meaning s v) x (e, i')))
    (hr : (lookupKernelContent category x).run s = some (k, s')) :
    DenotesKernel M s s' k fun v e i => M.interpretation.content (M.interpretation.meaning s v) x (e, i) := by
  obtain ⟨hg, hb, hk⟩ := lookupKernelContent_gives hreads hs.inv hx hr
  have hsound : Sound M s' := by
    rw [lookupKernelContent, Op.get_bind] at hr
    cases ht : s.kerneltable x with
    | some k' =>
      rw [ht] at hr
      obtain ⟨-, rfl⟩ := Op.pure_eq_some.mp hr
      exact hs
    | none =>
      rw [ht] at hr
      obtain ⟨w, s1, hw, hr⟩ := Op.bind_eq_some.mp hr
      obtain rfl := hreads s w s1 hw
      obtain ⟨-, rfl⟩ := newKernel_eq_some.mp hr
      exact hs.withKernel hx hplain fun hfalse => hcategory s (hfalse ▸ hw)
  refine ⟨hsound, hg.ext, hg.kernel, fun v hv e i => ?_⟩
  rw [hsound.kernel_iff hk h1 h2, hv k x hk]
  have hmeaning : M.interpretation.meaning s' v = M.interpretation.meaning s v := by
    funext b e
    simp only [Interpretation.meaning, hb]
  rw [hmeaning]

theorem getAtomKernel_denotes (hs : Sound M s) {n : ℕ} {a : A} {k : ℕ}
    (hr : (getAtomKernel L n a []).run s = some (k, s')) :
    DenotesKernel M s s' k fun _ e i => M.atom a e i := by
  unfold getAtomKernel at hr
  split at hr
  · rename_i w hw
    obtain ⟨rfl, rfl⟩ := Op.pure_eq_some.mp hr
    cases w with
    | true =>
      exact ⟨hs, Extends.refl s, (Gives.of_true hs.inv).kernel, fun v _ e i =>
        iff_of_true trivial ((M.simplify_constant a true hw e i).mpr rfl)⟩
    | false =>
      refine ⟨hs, Extends.refl s, (Gives.of_false hs.inv).kernel, fun v _ e i => iff_of_false id fun ha => ?_⟩
      exact absurd ((M.simplify_constant a false hw e i).mp ha) Bool.false_ne_true
  · rename_i a' sets hw
    obtain rfl : sets = [] := List.eq_nil_of_subset_nil (L.simplify_sets _ _ _ _ hw)
    have hden := lookupKernelContent_denotes (x := .atom a' []) hs (contentContains_reads L (containsDeBruijnIndex_reads L n) _ _)
      (fun b hb => absurd hb List.not_mem_nil) rfl nofun nofun (fun s' hfalse v hv e i i' hi =>
        contentContains_false (x := .atom a' []) (fun b j s' => containsDeBruijnIndex_false hs) rfl hfalse hv hi) hr
    exact ⟨hden.sound, hden.ext, hden.kernel, fun v hv e i =>
      (hden.meaning v hv e i).trans (M.simplify_atom a a' [] hw e i)⟩

theorem isSolved_true (hs : Sound M s) {n : ℕ} {sort : S} {b : ℕ}
    (hr : (isSolved L n sort b).run s = some (true, s')) {v : Meaning.Valuation V D} (hv : M.Coherent s v)
    (e : V → D) (i : ℕ → D) : ∃ d, M.sort sort d ∧ M.bdd s v b e (push d i) := by
  obtain ⟨l, s1, hl, hr⟩ := Op.bind_eq_some.mp hr
  obtain rfl := longestbranch_reads n b _ _ _ hl
  split_ifs at hr
  · obtain ⟨k, s2, hk, hr⟩ := Op.bind_eq_some.mp hr
    obtain rfl := kernelOf_reads b _ _ _ hk
    obtain ⟨x, s3, hx, hr⟩ := Op.bind_eq_some.mp hr
    obtain ⟨rfl, hcontent⟩ := getContent_eq_some hx
    cases x with
    | atom terms sets =>
      obtain ⟨t, s4, ht, hr⟩ := Op.bind_eq_some.mp hr
      obtain ⟨hsolved, -⟩ := Op.pure_eq_some.mp hr
      obtain ⟨rfl, k', f, hb⟩ := truebranch_eq_some ht
      obtain ⟨-, rfl⟩ := kernelOf_branch hb hk
      rw [Bool.and_eq_true, beq_iff_eq] at hsolved
      obtain ⟨d, hd, hatom⟩ := M.solves sort terms hsolved.1 e i
      refine ⟨d, hd, (hs.bdd_branch hb v e _).mpr (Or.inl ⟨?_, hsolved.2 ▸ hs.bdd_true v e _⟩)⟩
      rw [hs.kernel_iff hcontent nofun nofun, hv _ _ hcontent]
      exact hatom
    | _ => exact absurd (Op.pure_eq_some.mp hr).1 Bool.false_ne_true
  · exact absurd (Op.pure_eq_some.mp hr).1 Bool.false_ne_true

theorem getQuantKernel_denotes (hs : Sound M s) (hne : ∀ sort, ∃ d, M.sort sort d) {n : ℕ} {sort : S} {b k : ℕ}
    (hb : s.bdd b ≠ none) (hr : (getQuantKernel L n sort b).run s = some (k, s')) :
    DenotesKernel M s s' k fun v e i => ∃ d, M.sort sort d ∧ M.bdd s v b e (push d i) := by
  obtain ⟨d₀, hd₀⟩ := hne sort
  unfold getQuantKernel at hr
  split_ifs at hr with h1 h2
  · obtain ⟨rfl, rfl⟩ := Op.pure_eq_some.mp hr
    exact ⟨hs, Extends.refl s, (Gives.of_true hs.inv).kernel, fun v _ e i =>
      iff_of_true trivial ⟨d₀, hd₀, h1 ▸ hs.bdd_true v e _⟩⟩
  · obtain ⟨rfl, rfl⟩ := Op.pure_eq_some.mp hr
    exact ⟨hs, Extends.refl s, (Gives.of_false hs.inv).kernel, fun v _ e i =>
      iff_of_false id fun ⟨d, _, hd⟩ => hs.not_bdd_false v e _ (h2 ▸ hd)⟩
  · obtain ⟨w, s1, hw, hr⟩ := Op.bind_eq_some.mp hr
    obtain rfl := isSolved_reads L n sort b s w s1 hw
    cases w with
    | true =>
      obtain ⟨rfl, rfl⟩ := Op.pure_eq_some.mp hr
      exact ⟨hs, Extends.refl s, (Gives.of_true hs.inv).kernel, fun v hv e i =>
        iff_of_true trivial (isSolved_true hs hw hv e i)⟩
    | false =>
      refine lookupKernelContent_denotes (x := .quant sort b) hs (containsDeBruijnIndex_reads L n b 1)
        (fun b' hb' => List.mem_singleton.mp hb' ▸ hb) trivial nofun nofun (fun s' hfalse v hv e i i' hi => ?_) hr
      exact exists_congr fun d => and_congr_right fun _ =>
        containsDeBruijnIndex_false hs hfalse v hv e _ _ (hi.push d)

end Kernels

section Change

variable [DecidableEq A] [DecidableEq S] {rec : ℕ → ℕ → Op A S ℕ}

-- the environments before and after a change of the terms, under a number of quantifiers
structure Translation (M : Meaning L D) (terms : ℕ → A → A)
    (R : ℕ → (V → D) → (ℕ → D) → (V → D) → (ℕ → D) → Prop) : Prop where
  atom : ∀ n a e i e' i', R n e i e' i' → (M.atom (terms n a) e i ↔ M.atom a e' i')
  push : ∀ n e i e' i' d, R n e i e' i' → R (n + 1) e (push d i) e' (push d i')

-- the changed diagram means what the old one does in the old environment
structure Changed (M : Meaning L D) (R : (V → D) → (ℕ → D) → (V → D) → (ℕ → D) → Prop)
    (s s' : FOBDDManager A S) (b r : ℕ) : Prop where
  sound : Sound M s'
  ext : Extends s s'
  valid : s'.bdd r ≠ none
  meaning : ∀ v, M.Coherent s' v → ∀ e i e' i', R e i e' i' → (M.bdd s' v r e i ↔ M.bdd s v b e' i')

variable {terms : ℕ → A → A} {R : ℕ → (V → D) → (ℕ → D) → (V → D) → (ℕ → D) → Prop}

theorem changeContent_changed (hR : Translation M terms R) (hne : ∀ sort, ∃ d, M.sort sort d) {n : ℕ}
    (hrec : ∀ s s' depth b r, Sound M s → s.bdd b ≠ none → (rec depth b).run s = some (r, s') →
      Changed M (R depth) s s' b r)
    (hs : Sound M s) {depth k k' : ℕ} {x : KernelContent A S} (horder : s.order k ≠ none)
    (hk : s.content k = some x) (hr : (changeContent L terms n rec depth k x).run s = some (k', s')) :
    Sound M s' ∧ Extends s s' ∧ s'.order k' ≠ none ∧ ∀ v, M.Coherent s' v → ∀ e i e' i', R depth e i e' i' →
      (Meaning.kernel v k' e i ↔ Meaning.kernel v k e' i') := by
  have hconstant : ∀ v : Meaning.Valuation V D, ∀ e i e' i', (v k (e, i) ↔ v k (e', i')) →
      (Meaning.kernel v k e i ↔ Meaning.kernel v k e' i') := fun v e i e' i' hsame => by
    simp only [Meaning.kernel, truth, hsame]
  cases x with
  | trueKernel =>
    obtain ⟨rfl, rfl⟩ := Op.pure_eq_some.mp hr
    exact ⟨hs, Extends.refl s, horder, fun v hv e i e' i' _ => hconstant v e i e' i' (by rw [hv k _ hk]; rfl)⟩
  | falseKernel =>
    obtain ⟨rfl, rfl⟩ := Op.pure_eq_some.mp hr
    exact ⟨hs, Extends.refl s, horder, fun v hv e i e' i' _ => hconstant v e i e' i' (by rw [hv k _ hk]; rfl)⟩
  | atom a sets =>
    obtain rfl : sets = [] := hs.plain k _ hk
    rw [changeContent, changeSets] at hr
    have hden := getAtomKernel_denotes hs hr
    refine ⟨hden.sound, hden.ext, hden.kernel, fun v hv e i e' i' hRe => ?_⟩
    rw [hden.meaning v hv, hR.atom depth a e i e' i' hRe, hs.kernel_iff hk (by simp) (by simp),
      hv k _ (hden.ext.content k _ hk)]
    rfl
  | quant sort b =>
    obtain ⟨b', s1, hb', hr⟩ := Op.bind_eq_some.mp hr
    have hbv := hs.inv.quants k sort b hk
    have hchanged := hrec s s1 (depth + 1) b b' hs hbv hb'
    have hden := getQuantKernel_denotes hchanged.sound hne hchanged.valid hr
    refine ⟨hden.sound, hchanged.ext.trans hden.ext, hden.kernel, fun v hv e i e' i' hRe => ?_⟩
    have hv1 := hden.ext.coherent hchanged.sound.inv hv
    rw [hden.meaning v hv, hs.kernel_iff hk (by simp) (by simp), hv1 k _ (hchanged.ext.content k _ hk)]
    refine exists_congr fun d => and_congr_right fun _ => ?_
    rw [hchanged.meaning v hv1 e _ e' _ (hR.push depth e i e' i' d hRe)]
    exact iff_of_eq (congrFun (congrFun (hs.bdd_eq hchanged.ext hbv v).symm e') _)
  | agg left right sets => exact (hs.plain k _ hk).elim

theorem change_changed (hR : Translation M terms R) (hne : ∀ sort, ∃ d, M.sort sort d) {n depth b r : ℕ}
    (hs : Sound M s) (hb : s.bdd b ≠ none) (hr : (change L terms n depth b).run s = some (r, s')) :
    Changed M (R depth) s s' b r := by
  induction n generalizing s s' depth b r with
  | zero => exact absurd hr Op.failure_eq_some
  | succ n ih =>
    rw [change] at hr
    split_ifs at hr with h1 h2
    · obtain ⟨rfl, rfl⟩ := Op.pure_eq_some.mp hr
      exact ⟨hs, Extends.refl s, hs.true_valid, fun v _ e i e' i' _ =>
        iff_of_true (hs.bdd_true v e i) (h1 ▸ hs.bdd_true v e' i')⟩
    · obtain ⟨rfl, rfl⟩ := Op.pure_eq_some.mp hr
      exact ⟨hs, Extends.refl s, hs.false_valid, fun v _ e i e' i' _ =>
        iff_of_false (hs.not_bdd_false v e i) (h2 ▸ hs.not_bdd_false v e' i')⟩
    · obtain rfl | rfl | ⟨k, t, f, hn⟩ := hs.inv.leaf_or_branch hb
      · exact absurd rfl h1
      · exact absurd rfl h2
      · obtain ⟨ht, hf, hk⟩ := hs.inv.children hn
        simp only [Op.bind_eq_some] at hr
        obtain ⟨k', s1, hk', x, s2, hx, nk, s3, hnk, t', s4, ht', nt, s5, hnt, f', s6, hf', nf, s7,
          hnf, hr⟩ := hr
        obtain ⟨rfl, rfl⟩ := kernelOf_branch hn hk'
        obtain ⟨rfl, hcontent⟩ := getContent_eq_some hx
        obtain ⟨hsk, hek, hok, hmk⟩ := changeContent_changed hR hne (fun s s' depth b r => ih) hs hk hcontent hnk
        obtain ⟨rfl, rfl⟩ := truebranch_branch (hek.bdd b _ hn) ht'
        have hct := ih hsk (hek.valid ht) hnt
        obtain ⟨rfl, rfl⟩ := falsebranch_branch ((hek.trans hct.ext).bdd b _ hn) hf'
        have hcf := ih hct.sound ((hek.trans hct.ext).valid hf) hnf
        have hres := ifthenelse_denotes hcf.sound ((hct.ext.trans hcf.ext).order_ne hok)
          (hcf.ext.valid hct.valid) hcf.valid hr
        refine ⟨hres.sound, (hek.trans (hct.ext.trans hcf.ext)).trans hres.ext, hres.valid,
          fun v hv e i e' i' hRe => ?_⟩
        have hvf := hres.ext.coherent hcf.sound.inv hv
        have hvt := hcf.ext.coherent hct.sound.inv hvf
        have hvk := hct.ext.coherent hsk.inv hvt
        rw [hres.meaning v hv, hs.bdd_branch hn, hmk v hvk e i e' i' hRe, hct.sound.bdd_eq hcf.ext hct.valid,
          hct.meaning v hvt e i e' i' hRe, hcf.meaning v hvf e i e' i' hRe, hs.bdd_eq hek ht,
          hs.bdd_eq (hek.trans hct.ext) hf]

end Change

section Quantify

variable [DecidableEq A] [DecidableEq S]

-- quantification over the index 0, where all indices have the same value
structure Quantified (M : Meaning L D) (s s' : FOBDDManager A S) (sort : S) (b r : ℕ) : Prop where
  sound : Sound M s'
  ext : Extends s s'
  valid : s'.bdd r ≠ none
  meaning : ∀ v, M.Coherent s' v → ∀ e c, M.bdd s' v r e (fun _ => c) ↔
    ∃ d, M.sort sort d ∧ M.bdd s v b e (push d fun _ => c)

theorem sortNotEmpty_denotes (hs : Sound M s) (hne : ∀ sort, ∃ d, M.sort sort d) {n : ℕ} {sort : S} {k : ℕ}
    (hr : (sortNotEmpty L n sort).run s = some (k, s')) : DenotesKernel M s s' k fun _ _ _ => True := by
  simp only [sortNotEmpty, Op.bind_eq_some] at hr
  obtain ⟨a, s1, ha, b, s2, hb, hr⟩ := hr
  have hatom := getAtomKernel_denotes hs ha
  have hbdd := getBDD_denotes hatom.sound hatom.kernel hatom.sound.true_valid hatom.sound.false_valid hb
  have hquant := getQuantKernel_denotes hbdd.sound hne hbdd.valid hr
  refine ⟨hquant.sound, (hatom.ext.trans hbdd.ext).trans hquant.ext, hquant.kernel, fun v hv e i => ?_⟩
  rw [hquant.meaning v hv]
  obtain ⟨d, hd⟩ := hne sort
  have hv2 := hquant.ext.coherent hbdd.sound.inv hv
  have hv1 := hbdd.ext.coherent hatom.sound.inv hv2
  refine iff_of_true ⟨d, hd, (hbdd.meaning v hv2 e _).mpr (Or.inl ⟨?_, hatom.sound.bdd_true v e _⟩)⟩ trivial
  exact (hatom.meaning v hv1 e _).mpr ((M.sortAtom sort e _).mpr hd)

theorem quantifyIndependent_quantified (hs : Sound M s) (hne : ∀ sort, ∃ d, M.sort sort d)
    {ok : FOBDDManager A S → ℕ → ℕ → Bool} {n : ℕ} {sort : S} {b r : ℕ} (hb : s.bdd b ≠ none)
    (hindep : Independent M s 0 b) (hr : (quantifyIndependent L ok n sort b).run s = some (r, s')) :
    Quantified M s s' sort b r := by
  obtain ⟨d₀, hd₀⟩ := hne sort
  have hquant : ∀ v, M.Coherent s v → ∀ e c, M.bdd s v b e (fun _ => c) ↔
      ∃ d, M.sort sort d ∧ M.bdd s v b e (push d fun _ => c) := fun v hv e c => by
    have hall : ∀ d, M.bdd s v b e (push d fun _ => c) ↔ M.bdd s v b e fun _ => c := fun d =>
      hindep v hv e _ _ (agreeBut_const d c)
    simp only [hall]
    exact ⟨fun h => ⟨d₀, hd₀, h⟩, fun ⟨_, _, h⟩ => h⟩
  unfold quantifyIndependent at hr
  split at hr
  · rename_i empty hempty
    have hfull : ¬ empty = true := fun h => (M.builtin sort empty hempty).mp h d₀ hd₀
    rw [if_neg hfull] at hr
    obtain ⟨rfl, rfl⟩ := Op.pure_eq_some.mp hr
    exact ⟨hs, Extends.refl s, hb, hquant⟩
  · obtain ⟨k, s1, hk, hr⟩ := Op.bind_eq_some.mp hr
    have hkernel := sortNotEmpty_denotes hs hne hk
    rw [Op.get_bind] at hr
    split_ifs at hr
    · have hres := getBDD_denotes hkernel.sound hkernel.kernel (hkernel.ext.valid hb) hkernel.sound.false_valid hr
      refine ⟨hres.sound, hkernel.ext.trans hres.ext, hres.valid, fun v hv e c => ?_⟩
      have hv1 := hres.ext.coherent hkernel.sound.inv hv
      rw [hres.meaning v hv, hs.bdd_eq hkernel.ext hb,
        choice_true ((hkernel.meaning v hv1 e _).mpr trivial), hquant v (hkernel.ext.coherent hs.inv hv1) e c]
    · exact absurd hr Op.failure_eq_some

theorem Sound.storeQuantified (hs : Sound M s) {sort : S} {b r : ℕ} (hb : s.bdd b ≠ none) (hr : s.bdd r ≠ none)
    (hquant : ∀ v, M.Coherent s v → ∀ e c, M.bdd s v r e (fun _ => c) ↔
      ∃ d, M.sort sort d ∧ M.bdd s v b e (push d fun _ => c)) :
    Sound M { s with quanttable := Table.insert2 s.quanttable sort b r } where
  inv := hs.inv.storeQuantified hb hr
  plain := hs.plain
  constants := hs.constants
  standard := hs.standard
  quantified v hv sort' b' r' hmem := by
    rcases Table.of_insert2 hmem with ⟨rfl, rfl, rfl⟩ | hmem
    · exact hquant v hv
    · exact hs.quantified v hv sort' b' r' hmem

theorem quantifyRoot_quantified (hne : ∀ sort, ∃ d, M.sort sort d) {rec : S → ℕ → Op A S ℕ}
    (hrec : ∀ s s' sort b r, Sound M s → s.bdd b ≠ none → (rec sort b).run s = some (r, s') →
      Quantified M s s' sort b r)
    (hs : Sound M s) {n : ℕ} {sort : S} {b k t f r : ℕ} (hb : s.bdd b = some (.branch k t f))
    (hr : (quantifyRoot L n rec sort b k).run s = some (r, s')) : Quantified M s s' sort b r := by
  have hbv : s.bdd b ≠ none := by rw [hb]; exact Option.some_ne_none _
  obtain ⟨ht, hf, hk⟩ := hs.inv.children hb
  obtain ⟨o, s1, ho, hr⟩ := Op.bind_eq_some.mp hr
  obtain ⟨horder, rfl⟩ := getOrder_eq_some.mp ho
  split_ifs at hr with hcat
  · simp only [Op.bind_eq_some] at hr
    obtain ⟨f', s2, hf', nf, s3, hnf, t', s4, ht', nt, s5, hnt, hr⟩ := hr
    obtain ⟨rfl, rfl⟩ := falsebranch_branch hb hf'
    have hqf := hrec _ _ _ _ _ hs hf hnf
    obtain ⟨rfl, rfl⟩ := truebranch_branch (hqf.ext.bdd b _ hb) ht'
    have hqt := hrec _ _ _ _ _ hqf.sound (hqf.ext.valid ht) hnt
    have hres := ifthenelse_denotes hqt.sound ((hqf.ext.trans hqt.ext).order_ne hk) hqt.valid
      (hqt.ext.valid hqf.valid) hr
    refine ⟨hres.sound, (hqf.ext.trans hqt.ext).trans hres.ext, hres.valid, fun v hv e c => ?_⟩
    have hvt := hres.ext.coherent hqt.sound.inv hv
    have hvf := hqt.ext.coherent hqf.sound.inv hvt
    have hvs := hqf.ext.coherent hs.inv hvf
    -- the kernel does not depend on the index that is quantified
    have hkernel : ∀ d, Meaning.kernel v k e (push d fun _ => c) ↔ Meaning.kernel v k e fun _ => c := fun d => by
      have hsame := hs.standard v hvs k o horder hcat e _ _ (agreeBut_const d c)
      simp only [Meaning.kernel, truth, hsame]
    rw [hres.meaning v hv, hqt.meaning v hvt, hqf.sound.bdd_eq hqt.ext hqf.valid, hqf.meaning v hvf,
      hs.bdd_eq hqf.ext ht]
    simp only [hs.bdd_branch hb, hkernel, Choice]
    by_cases hc : Meaning.kernel v k e fun _ => c <;> simp [hc]
  · obtain ⟨q, s2, hq, hr⟩ := Op.bind_eq_some.mp hr
    have hkernel := getQuantKernel_denotes hs hne hbv hq
    have hres := getBDD_denotes hkernel.sound hkernel.kernel hkernel.sound.true_valid hkernel.sound.false_valid hr
    refine ⟨hres.sound, hkernel.ext.trans hres.ext, hres.valid, fun v hv e c => ?_⟩
    have hv1 := hres.ext.coherent hkernel.sound.inv hv
    rw [hres.meaning v hv, Choice, hkernel.meaning v hv1]
    simp only [hkernel.sound.bdd_true, hkernel.sound.not_bdd_false, and_true, and_false, or_false]

theorem quantify_quantified (hne : ∀ sort, ∃ d, M.sort sort d) {ok : FOBDDManager A S → ℕ → ℕ → Bool}
    {n : ℕ} {sort : S} {b r : ℕ} (hs : Sound M s) (hb : s.bdd b ≠ none)
    (hr : (quantify L ok n sort b).run s = some (r, s')) : Quantified M s s' sort b r := by
  induction n generalizing s s' sort b r with
  | zero => exact absurd hr Op.failure_eq_some
  | succ n ih =>
    rw [quantify] at hr
    split_ifs at hr with h1 h2
    · obtain ⟨rfl, rfl⟩ := Op.pure_eq_some.mp hr
      exact ⟨hs, Extends.refl s, hb, fun v _ e c => iff_of_false (h1 ▸ hs.not_bdd_false v e _)
        fun hex => hex.elim fun _ h => hs.not_bdd_false v e _ (h1 ▸ h.2)⟩
    · exact quantifyIndependent_quantified hs hne hb (fun v _ e i i' _ =>
        iff_of_true (h2 ▸ hs.bdd_true v e i) (h2 ▸ hs.bdd_true v e i')) hr
    · obtain rfl | rfl | ⟨k, t, f, hn⟩ := hs.inv.leaf_or_branch hb
      · exact absurd rfl h2
      · exact absurd rfl h1
      · obtain ⟨w, s1, hw, hr⟩ := Op.bind_eq_some.mp hr
        obtain rfl := containsDeBruijnIndex_reads L n b 0 s w s1 hw
        cases w with
        | false => exact quantifyIndependent_quantified hs hne hb (containsDeBruijnIndex_false hs hw) hr
        | true =>
          rw [if_pos rfl, quantifyDependent, Op.get_bind] at hr
          cases hm : s.quanttable sort b with
          | some result =>
            rw [hm] at hr
            obtain ⟨rfl, rfl⟩ := Op.pure_eq_some.mp hr
            exact ⟨hs, Extends.refl s, (hs.inv.quantifieds sort b _ hm).2, fun v hv =>
              hs.quantified v hv sort b _ hm⟩
          | none =>
            rw [hm] at hr
            simp only [Op.bind_eq_some] at hr
            obtain ⟨k', s1, hk', r', s2, hr', u, s3, hstore, hpure⟩ := hr
            obtain ⟨rfl, rfl⟩ := kernelOf_branch hn hk'
            have hres := quantifyRoot_quantified hne (fun s s' sort b r => ih) hs hn hr'
            obtain rfl := Op.modify_eq_some.mp hstore
            obtain ⟨rfl, rfl⟩ := Op.pure_eq_some.mp hpure
            refine ⟨hres.sound.storeQuantified (hres.ext.valid hb) hres.valid fun v hv e c => ?_,
              hres.ext.same rfl rfl rfl, hres.valid, hres.meaning⟩
            rw [hres.meaning v hv, hs.bdd_eq hres.ext hb]

theorem bump_translation (var : V) : Translation M (L.bump var) fun n e i e' i' =>
    e' = Function.update e var (i n) ∧ i' = skip n i where
  atom n a e i e' i' h := by
    obtain ⟨rfl, rfl⟩ := h
    exact M.bump var n a e i
  push n e i e' i' d h := by
    obtain ⟨rfl, rfl⟩ := h
    exact ⟨rfl, (skip_push n d i).symm⟩

theorem existsquantify_means (hs : Sound M s) (hne : ∀ sort, ∃ d, M.sort sort d)
    {ok : FOBDDManager A S → ℕ → ℕ → Bool} {n : ℕ} {var : V} {b r : ℕ} (hb : s.bdd b ≠ none)
    (hr : (existsquantify L ok n var b).run s = some (r, s')) :
    Sound M s' ∧ Extends s s' ∧ s'.bdd r ≠ none ∧ ∀ v, M.Coherent s' v → ∀ e c,
      (M.bdd s' v r e (fun _ => c) ↔
        ∃ d, M.sort (L.sort var) d ∧ M.bdd s v b (Function.update e var d) fun _ => c) := by
  obtain ⟨b', s1, hb', hr⟩ := Op.bind_eq_some.mp hr
  have hchanged := change_changed (bump_translation var) hne hs hb hb'
  have hquant := quantify_quantified hne hchanged.sound hchanged.valid hr
  refine ⟨hquant.sound, hchanged.ext.trans hquant.ext, hquant.valid, fun v hv e c => ?_⟩
  have hv1 := hquant.ext.coherent hchanged.sound.inv hv
  rw [hquant.meaning v hv]
  refine exists_congr fun d => and_congr_right fun _ => ?_
  exact hchanged.meaning v hv1 e (push d fun _ => c) _ _ ⟨rfl, (skip_push_zero d _).symm⟩

theorem univquantify_means (hs : Sound M s) (hne : ∀ sort, ∃ d, M.sort sort d)
    {ok : FOBDDManager A S → ℕ → ℕ → Bool} {n : ℕ} {var : V} {b r : ℕ} (hb : s.bdd b ≠ none)
    (hr : (univquantify L ok n var b).run s = some (r, s')) :
    Sound M s' ∧ Extends s s' ∧ s'.bdd r ≠ none ∧ ∀ v, M.Coherent s' v → ∀ e c,
      (M.bdd s' v r e (fun _ => c) ↔
        ∀ d, M.sort (L.sort var) d → M.bdd s v b (Function.update e var d) fun _ => c) := by
  simp only [univquantify, Op.bind_eq_some] at hr
  obtain ⟨b1, s1, h1, b2, s2, h2, hr⟩ := hr
  have hneg := negation_denotes hs hb h1
  obtain ⟨hs2, he2, hv2, hm2⟩ := existsquantify_means hneg.sound hne hneg.valid h2
  have hres := negation_denotes hs2 hv2 hr
  refine ⟨hres.sound, (hneg.ext.trans he2).trans hres.ext, hres.valid, fun v hv e c => ?_⟩
  have hvs2 := hres.ext.coherent hs2.inv hv
  have hvs1 := he2.coherent hneg.sound.inv hvs2
  rw [hres.meaning v hv, hm2 v hvs2]
  simp only [hneg.meaning v hvs1, not_exists, not_and, not_not]

end Quantify

end FOBDDManager

end FoBdd
