import DeclarativeLocalSearch.FoBdd.GetBDD

namespace FoBdd

open DecisionDiagram

variable {A S : Type}

namespace FOBDDManager

variable {c : Prop} {s s' : FOBDDManager A S}

-- P does not depend on the kernels that are not below k
def Local (s : FOBDDManager A S) (k : ℕ) (P : (ℕ → Prop) → Prop) : Prop :=
  ∀ w w', (∀ x, s.lt k x → (w x ↔ w' x)) → (P w ↔ P w')

section Local

variable {k : ℕ} {P Q : (ℕ → Prop) → Prop}

theorem Local.not (h : Local s k P) : Local s k fun w => ¬ P w :=
  fun w w' hw => not_congr (h w w' hw)

theorem Local.and (h : Local s k P) (h' : Local s k Q) : Local s k fun w => P w ∧ Q w :=
  fun w w' hw => and_congr (h w w' hw) (h' w w' hw)

theorem Local.or (h : Local s k P) (h' : Local s k Q) : Local s k fun w => P w ∨ Q w :=
  fun w w' hw => or_congr (h w w' hw) (h' w w' hw)

theorem Local.choice (h : Local s k P) (h' : Local s k Q) {k' : ℕ} (hk : s.lt k k') :
    Local s k fun w => Choice (truth w k') (P w) (Q w) := by
  intro w w' hw
  have : truth w k' ↔ truth w' k' := by
    unfold truth
    split_ifs
    · exact Iff.rfl
    · exact Iff.rfl
    · exact hw k' hk
  simp only [Choice]
  rw [h w w' hw, h' w w' hw, this]

theorem Local.extends (h : Local s k P) (he : Extends s s') : Local s' k P :=
  fun w w' hw => h w w' fun x hx => hw x (he.lt hx)

theorem Inv.local_of_above (h : Inv c s) (hc : c) {b : ℕ} (hb : Above s.lt s.bdd k b) :
    Local s k fun w => Holds s.bdd w b :=
  fun _ _ hw => holds_agree (h.canonical hc) hb hw

theorem Inv.above_of_local (h : Inv c s) (hc : c) {b : ℕ} (hb : ∀ w, Holds s.bdd w b ↔ P w)
    (hP : Local s k P) : Above s.lt s.bdd k b :=
  (h.canonical hc).above_of_local s.lt_wf fun w w' hw => by rw [hb, hb, hP w w' hw]

end Local

theorem Inv.children (h : Inv c s) {b k t f : ℕ} (hb : s.bdd b = some (.branch k t f)) :
    s.bdd t ≠ none ∧ s.bdd f ≠ none ∧ s.order k ≠ none := by
  obtain ⟨ht, hf⟩ := h.closed b k t f hb
  obtain ⟨o, ho, -⟩ := h.labelled b k t f hb
  exact ⟨ht, hf, by rw [ho]; exact Option.some_ne_none o⟩

theorem Inv.holds_node (h : Inv c s) {b k t f : ℕ} (hb : s.bdd b = some (.branch k t f))
    (w : ℕ → Prop) :
    Holds s.bdd w b ↔ Choice (truth w k) (Holds s.bdd w t) (Holds s.bdd w f) := by
  rw [holds_branch hb, h.truth_iff hb]

theorem Extends.order_ne (h : Extends s s') {k : ℕ} (hk : s.order k ≠ none) :
    s'.order k ≠ none := by
  obtain ⟨o, ho⟩ := Option.ne_none_iff_exists'.mp hk
  rw [h.order k o ho]
  exact Option.some_ne_none o

theorem Returns.congr {r : ℕ} {P Q : (ℕ → Prop) → Prop} (h : Returns c s s' r P)
    (hPQ : ∀ w, P w ↔ Q w) : Returns c s s' r Q :=
  ⟨h.inv, h.ext, h.valid, fun w => (h.holds w).trans (hPQ w)⟩

theorem getBDD_node {s2 s3 : FOBDDManager A S} {k nt nf r : ℕ} {P Q : (ℕ → Prop) → Prop}
    (h2 : Inv c s2) (he : Extends s s2) (hk : s.order k ≠ none) (hnt : s2.bdd nt ≠ none)
    (hnf : s2.bdd nf ≠ none) (hP : ∀ w, Holds s2.bdd w nt ↔ P w)
    (hQ : ∀ w, Holds s2.bdd w nf ↔ Q w) (hl : c → Local s k P ∧ Local s k Q)
    (hr : (getBDD k nt nf).run s2 = some (r, s3)) :
    Returns c s s3 r fun w => Choice (truth w k) (P w) (Q w) := by
  have hret := getBDD_returns h2 (he.order_ne hk) hnt hnf
    (fun hc _ _ => ⟨h2.above_of_local hc hP ((hl hc).1.extends he),
      h2.above_of_local hc hQ ((hl hc).2.extends he)⟩) hr
  exact ⟨hret.inv, he.trans hret.ext, hret.valid, fun w => by
    rw [hret.holds, choice_congr (hP w) (hQ w)]⟩

theorem kernelOf_branch {b k t f k' : ℕ}
    (hb : s.bdd b = some (.branch k t f)) (hk : (kernelOf b).run s = some (k', s')) :
    s = s' ∧ k = k' := by
  obtain ⟨hs, ⟨v, hv, -⟩ | ⟨t1, f1, hb1⟩⟩ := kernelOf_eq_some hk
  · rw [hb] at hv
    cases hv
  · rw [hb] at hb1
    cases hb1
    exact ⟨hs, rfl⟩

theorem truebranch_branch {b k t f t' : ℕ} (hb : s.bdd b = some (.branch k t f))
    (ht : (truebranch b).run s = some (t', s')) : s = s' ∧ t = t' := by
  obtain ⟨hs, k1, f1, hb1⟩ := truebranch_eq_some ht
  rw [hb] at hb1
  cases hb1
  exact ⟨hs, rfl⟩

theorem falsebranch_branch {b k t f f' : ℕ} (hb : s.bdd b = some (.branch k t f))
    (hf : (falsebranch b).run s = some (f', s')) : s = s' ∧ f = f' := by
  obtain ⟨hs, k1, t1, hb1⟩ := falsebranch_eq_some hf
  rw [hb] at hb1
  cases hb1
  exact ⟨hs, rfl⟩

theorem Extends.same {s'' : FOBDDManager A S} (h : Extends s s') (hb : s''.bdd = s'.bdd)
    (ho : s''.order = s'.order) (hc : s''.content = s'.content) : Extends s s'' :=
  ⟨hb ▸ h.bdd, ho ▸ h.order, hc ▸ h.content⟩

theorem getBDD_falseFirst {s1 s2 s3 : FOBDDManager A S} {k a b r : ℕ} {P Q : (ℕ → Prop) → Prop}
    (ha : Returns c s s1 a Q) (hb : Returns c s1 s2 b P) (hk : s.order k ≠ none)
    (hl : c → Local s k P ∧ Local s k Q) (hr : (getBDD k b a).run s2 = some (r, s3)) :
    Returns c s s3 r fun w => Choice (truth w k) (P w) (Q w) :=
  getBDD_node hb.inv (ha.ext.trans hb.ext) hk hb.valid (hb.ext.valid ha.valid) hb.holds
    (fun w => (hb.ext.holds ha.inv ha.valid w).trans (ha.holds w)) hl hr

theorem getBDD_trueFirst {s1 s2 s3 : FOBDDManager A S} {k a b r : ℕ} {P Q : (ℕ → Prop) → Prop}
    (ha : Returns c s s1 a P) (hb : Returns c s1 s2 b Q) (hk : s.order k ≠ none)
    (hl : c → Local s k P ∧ Local s k Q) (hr : (getBDD k a b).run s2 = some (r, s3)) :
    Returns c s s3 r fun w => Choice (truth w k) (P w) (Q w) :=
  getBDD_node hb.inv (ha.ext.trans hb.ext) hk (hb.ext.valid ha.valid) hb.valid
    (fun w => (hb.ext.holds ha.inv ha.valid w).trans (ha.holds w)) hb.holds hl hr

theorem Inv.leaf_or_branch (h : Inv c s) {b : ℕ} (hb : s.bdd b ≠ none) :
    b = truebdd ∨ b = falsebdd ∨ ∃ k t f, s.bdd b = some (.branch k t f) := by
  obtain ⟨n, hn⟩ := Option.ne_none_iff_exists'.mp hb
  cases n with
  | leaf v =>
    have := h.leaves b v hn
    cases v
    · exact Or.inr (Or.inl this)
    · exact Or.inl this
  | branch k t f => exact Or.inr (Or.inr ⟨k, t, f, hn⟩)

theorem Inv.true_valid (h : Inv c s) : s.bdd truebdd ≠ none := by
  rw [h.leafTrue]
  exact Option.some_ne_none _

theorem Inv.false_valid (h : Inv c s) : s.bdd falsebdd ≠ none := by
  rw [h.leafFalse]
  exact Option.some_ne_none _

theorem Inv.holds_true (h : Inv c s) (w : ℕ → Prop) : Holds s.bdd w truebdd :=
  (holds_leaf h.leafTrue).mpr rfl

theorem Inv.not_holds_false (h : Inv c s) (w : ℕ → Prop) : ¬ Holds s.bdd w falsebdd := by
  rw [holds_leaf h.leafFalse]
  exact Bool.false_ne_true

section Negation

def Negates (c : Prop) (op : ℕ → Op A S ℕ) : Prop :=
  ∀ s b r s', Inv c s → s.bdd b ≠ none → (op b).run s = some (r, s') →
    Returns c s s' r fun w => ¬ Holds s.bdd w b

theorem not_choice (p q t : Prop) : ¬ Choice p q t ↔ Choice p (¬ q) (¬ t) := by
  unfold Choice
  tauto

theorem Inv.storeNegation (h : Inv c s) {b r : ℕ} (hb : s.bdd b ≠ none) (hr : s.bdd r ≠ none)
    (hw : ∀ w, Holds s.bdd w r ↔ ¬ Holds s.bdd w b) :
    Inv c { s with negationtable := Table.insert s.negationtable b r } :=
  { h with
    negations := fun b' r' hr' => by
      rcases Table.of_insert hr' with ⟨rfl, rfl⟩ | hr'
      · exact ⟨hb, hr, hw⟩
      · exact h.negations b' r' hr'
    sorted := fun hc => ⟨(h.sorted hc).ordered, (h.sorted hc).reduced, (h.sorted hc).hashed⟩ }

theorem negateNode_negates {rec : ℕ → Op A S ℕ} (hrec : Negates c rec) {b r k t f : ℕ}
    (h : Inv c s) (hb : s.bdd b = some (.branch k t f))
    (hr : (negateNode rec b).run s = some (r, s')) :
    Returns c s s' r fun w => ¬ Holds s.bdd w b := by
  have hbv : s.bdd b ≠ none := by rw [hb]; exact Option.some_ne_none _
  obtain ⟨ht, hf, hk⟩ := h.children hb
  rw [negateNode, Op.get_bind] at hr
  cases hm : s.negationtable b with
  | some result =>
    rw [hm] at hr
    obtain ⟨rfl, rfl⟩ := Op.pure_eq_some.mp hr
    obtain ⟨-, hv, hw⟩ := h.negations b _ hm
    exact ⟨h, Extends.refl _, hv, hw⟩
  | none =>
    rw [hm] at hr
    simp only [Op.bind_eq_some] at hr
    obtain ⟨f', s1, hf', nf, s2, hnf, t', s3, ht', nt, s4, hnt, k', s5, hk', r', s6, hr', _, s7,
      hstore, hpure⟩ := hr
    obtain ⟨rfl, rfl⟩ := falsebranch_branch hb hf'
    have hretf := hrec _ _ _ _ h hf hnf
    obtain ⟨rfl, rfl⟩ := truebranch_branch (hretf.ext.bdd b _ hb) ht'
    have hrett := (hrec _ _ _ _ hretf.inv (hretf.ext.valid ht) hnt).congr fun w =>
      not_congr (hretf.ext.holds h ht w)
    obtain ⟨rfl, rfl⟩ := kernelOf_branch ((hretf.ext.trans hrett.ext).bdd b _ hb) hk'
    have hret := (getBDD_falseFirst hretf hrett hk (fun hc =>
      ⟨(h.local_of_above hc ((h.sorted hc).ordered _ _ _ _ hb).1).not,
        (h.local_of_above hc ((h.sorted hc).ordered _ _ _ _ hb).2).not⟩) hr').congr fun w =>
      ((not_congr (h.holds_node hb w)).trans (not_choice _ _ _)).symm
    obtain rfl := Op.modify_eq_some.mp hstore
    obtain ⟨rfl, rfl⟩ := Op.pure_eq_some.mp hpure
    refine ⟨hret.inv.storeNegation (hret.ext.valid hbv) hret.valid fun w => ?_,
      hret.ext.same rfl rfl rfl, hret.valid, hret.holds⟩
    rw [hret.holds, hret.ext.holds h hbv]

theorem negation_negates (n : ℕ) : Negates c (negation n : ℕ → Op A S ℕ) := by
  induction n with
  | zero =>
    intro s b r s' _ _ hr
    exact absurd hr Op.failure_eq_some
  | succ n ih =>
    intro s b r s' h hb hr
    rw [negation] at hr
    split_ifs at hr with h1 h2
    · obtain ⟨rfl, rfl⟩ := Op.pure_eq_some.mp hr
      subst h1
      exact ⟨h, Extends.refl _, h.false_valid, fun w => by
        simp [h.holds_true w, h.not_holds_false w]⟩
    · obtain ⟨rfl, rfl⟩ := Op.pure_eq_some.mp hr
      subst h2
      exact ⟨h, Extends.refl _, h.true_valid, fun w => by
        simp [h.holds_true w, h.not_holds_false w]⟩
    · obtain rfl | rfl | ⟨k, t, f, hn⟩ := h.leaf_or_branch hb
      · exact absurd rfl h1
      · exact absurd rfl h2
      · exact negateNode_negates ih h hn hr

end Negation

section Connective

-- what a connective means and where its memo table keeps the results
structure Means (c : Prop) (op : Connective A S) (den : Prop → Prop → Prop) : Prop where
  comm : ∀ p q, den p q ↔ den q p
  self : ∀ p, den p p ↔ p
  choice : ∀ x p q p' q', den (Choice x p q) (Choice x p' q') ↔ Choice x (den p p') (den q q')
  congr : ∀ {p q p' q'}, (p ↔ p') → (q ↔ q') → (den p q ↔ den p' q')
  zero : ∀ s : FOBDDManager A S, Inv c s → s.bdd op.zero ≠ none ∧
    ∀ w p, den (Holds s.bdd w op.zero) p ↔ Holds s.bdd w op.zero
  one : ∀ s : FOBDDManager A S, Inv c s → ∀ w p, den (Holds s.bdd w op.one) p ↔ p
  leaf : ∀ b, b = truebdd ∨ b = falsebdd → b = op.zero ∨ b = op.one
  table : ∀ (s : FOBDDManager A S), Inv c s → ∀ b b' r, op.table s b b' = some r →
    s.bdd r ≠ none ∧ ∀ w, Holds s.bdd w r ↔ den (Holds s.bdd w b) (Holds s.bdd w b')
  store : ∀ (s s' : FOBDDManager A S) b b' r u, Inv c s → s.bdd b ≠ none → s.bdd b' ≠ none →
    s.bdd r ≠ none → (∀ w, Holds s.bdd w r ↔ den (Holds s.bdd w b) (Holds s.bdd w b')) →
    (op.store b b' r).run s = some (u, s') → Inv c s' ∧ Extends s s' ∧ s'.bdd = s.bdd

variable {den : Prop → Prop → Prop}

def Combines (c : Prop) (den : Prop → Prop → Prop) (op : ℕ → ℕ → Op A S ℕ) : Prop :=
  ∀ s b b' r s', Inv c s → s.bdd b ≠ none → s.bdd b' ≠ none → (op b b').run s = some (r, s') →
    Returns c s s' r fun w => den (Holds s.bdd w b) (Holds s.bdd w b')

variable {op : Connective A S} {rec : ℕ → ℕ → Op A S ℕ}

theorem Means.left (hm : Means c op den) (x p q r : Prop) :
    den (Choice x p q) r ↔ Choice x (den p r) (den q r) :=
  (hm.congr Iff.rfl (choice_self x r).symm).trans (hm.choice x p q r r)

theorem Means.right (hm : Means c op den) (x p q r : Prop) :
    den r (Choice x p q) ↔ Choice x (den r p) (den r q) :=
  (hm.congr (choice_self x r).symm Iff.rfl).trans (hm.choice x r r p q)

theorem Local.combine {k : ℕ} {P Q : (ℕ → Prop) → Prop} (hm : Means c op den) (h : Local s k P)
    (h' : Local s k Q) : Local s k fun w => den (P w) (Q w) :=
  fun w w' hw => hm.congr (h w w' hw) (h' w w' hw)

theorem combine_pair (hm : Means c op den) (hrec : Combines c den rec) (h : Inv c s)
    {k f1 f2 t1 t2 nf nt r : ℕ} {s1 s2 s3 : FOBDDManager A S} (hk : s.order k ≠ none)
    (hf1 : s.bdd f1 ≠ none) (hf2 : s.bdd f2 ≠ none) (ht1 : s.bdd t1 ≠ none) (ht2 : s.bdd t2 ≠ none)
    (hl : c → ∀ b, b = f1 ∨ b = f2 ∨ b = t1 ∨ b = t2 → Above s.lt s.bdd k b)
    (hnf : (rec f1 f2).run s = some (nf, s1)) (hnt : (rec t1 t2).run s1 = some (nt, s2))
    (hr : (getBDD k nt nf).run s2 = some (r, s3)) :
    Returns c s s3 r fun w => Choice (truth w k) (den (Holds s.bdd w t1) (Holds s.bdd w t2))
      (den (Holds s.bdd w f1) (Holds s.bdd w f2)) := by
  have hretf := hrec _ _ _ _ _ h hf1 hf2 hnf
  have hrett := (hrec _ _ _ _ _ hretf.inv (hretf.ext.valid ht1) (hretf.ext.valid ht2) hnt).congr
    fun w => hm.congr (hretf.ext.holds h ht1 w) (hretf.ext.holds h ht2 w)
  have hloc : ∀ hc b, b = f1 ∨ b = f2 ∨ b = t1 ∨ b = t2 → Local s k fun w => Holds s.bdd w b :=
    fun hc b hb => h.local_of_above hc (hl hc b hb)
  exact getBDD_falseFirst hretf hrett hk (fun hc =>
    ⟨Local.combine hm (hloc hc t1 (by simp)) (hloc hc t2 (by simp)),
      Local.combine hm (hloc hc f1 (by simp)) (hloc hc f2 (by simp))⟩) hr

theorem combineNodes_combines (hm : Means c op den) (hrec : Combines c den rec) (h : Inv c s)
    {b1 b2 k1 k2 t1 t2 f1 f2 r : ℕ} (hb1 : s.bdd b1 = some (.branch k1 t1 f1))
    (hb2 : s.bdd b2 = some (.branch k2 t2 f2))
    (hr : (combineNodes rec b1 b2).run s = some (r, s')) :
    Returns c s s' r fun w => den (Holds s.bdd w b1) (Holds s.bdd w b2) := by
  have hv1 : s.bdd b1 ≠ none := by rw [hb1]; exact Option.some_ne_none _
  have hv2 : s.bdd b2 ≠ none := by rw [hb2]; exact Option.some_ne_none _
  obtain ⟨ht1, hf1, hk1⟩ := h.children hb1
  obtain ⟨ht2, hf2, hk2⟩ := h.children hb2
  rw [combineNodes] at hr
  simp only [Op.bind_eq_some] at hr
  obtain ⟨k1', s1, hk1', k2', s2, hk2', v, s3, hv, hr⟩ := hr
  obtain ⟨rfl, rfl⟩ := kernelOf_branch hb1 hk1'
  obtain ⟨rfl, rfl⟩ := kernelOf_branch hb2 hk2'
  obtain ⟨o, o', ho, ho', rfl, rfl⟩ := kernelLess_eq_some.mp hv
  have habove1 := fun hc => (h.sorted hc).ordered _ _ _ _ hb1
  have habove2 := fun hc => (h.sorted hc).ordered _ _ _ _ hb2
  split_ifs at hr with hlt
  · -- the kernel of the first diagram is above that of the second
    have hlt : s.lt k1 k2 := ⟨o, o', ho, ho', hlt⟩
    simp only [Op.bind_eq_some] at hr
    obtain ⟨f, s4, hf, nf, s5, hnf, t, s6, ht, nt, s7, hnt, hr⟩ := hr
    obtain ⟨rfl, rfl⟩ := falsebranch_branch hb1 hf
    have hretf := hrec _ _ _ _ _ h hf1 hv2 hnf
    obtain ⟨rfl, rfl⟩ := truebranch_branch (hretf.ext.bdd b1 _ hb1) ht
    refine (combine_pair hm hrec h hk1 hf1 hv2 ht1 hv2 (fun hc b hb => ?_) hnf hnt hr).congr
      fun w => ?_
    · rcases hb with rfl | rfl | rfl | rfl
      · exact (habove1 hc).2
      · exact above_of_branch hb2 hlt
      · exact (habove1 hc).1
      · exact above_of_branch hb2 hlt
    · exact (hm.left _ _ _ _).symm.trans (hm.congr (h.holds_node hb1 w).symm Iff.rfl)
  simp only [Op.bind_eq_some] at hr
  obtain ⟨v, s3, hv, hr⟩ := hr
  obtain ⟨o2, o1, ho2, ho1, rfl, rfl⟩ := kernelLess_eq_some.mp hv
  rw [ho] at ho1
  rw [ho'] at ho2
  cases ho1
  cases ho2
  split_ifs at hr with hgt
  · -- the kernel of the second diagram is above that of the first
    have hgt : s.lt k2 k1 := ⟨o', o, ho', ho, hgt⟩
    simp only [Op.bind_eq_some] at hr
    obtain ⟨f, s4, hf, nf, s5, hnf, t, s6, ht, nt, s7, hnt, hr⟩ := hr
    obtain ⟨rfl, rfl⟩ := falsebranch_branch hb2 hf
    have hretf := hrec _ _ _ _ _ h hv1 hf2 hnf
    obtain ⟨rfl, rfl⟩ := truebranch_branch (hretf.ext.bdd b2 _ hb2) ht
    refine (combine_pair hm hrec h hk2 hv1 hf2 hv1 ht2 (fun hc b hb => ?_) hnf hnt hr).congr
      fun w => ?_
    · rcases hb with rfl | rfl | rfl | rfl
      · exact above_of_branch hb1 hgt
      · exact (habove2 hc).2
      · exact above_of_branch hb1 hgt
      · exact (habove2 hc).1
    · exact (hm.right _ _ _ _).symm.trans (hm.congr Iff.rfl (h.holds_node hb2 w).symm)
  · -- one kernel for both
    obtain rfl : k1 = k2 := by
      rcases o.less_trichotomous o' with hless | rfl | hless
      · exact absurd hless hlt
      · exact h.injective k1 k2 o ho ho'
      · exact absurd hless hgt
    simp only [Op.bind_eq_some] at hr
    obtain ⟨fa, s4, hfa, fb, s5, hfb, nf, s6, hnf, ta, s7, hta, tb, s8, htb, nt, s9, hnt, hr⟩ := hr
    obtain ⟨rfl, rfl⟩ := falsebranch_branch hb1 hfa
    obtain ⟨rfl, rfl⟩ := falsebranch_branch hb2 hfb
    have hretf := hrec _ _ _ _ _ h hf1 hf2 hnf
    obtain ⟨rfl, rfl⟩ := truebranch_branch (hretf.ext.bdd b1 _ hb1) hta
    obtain ⟨rfl, rfl⟩ := truebranch_branch (hretf.ext.bdd b2 _ hb2) htb
    refine (combine_pair hm hrec h hk1 hf1 hf2 ht1 ht2 (fun hc b hb => ?_) hnf hnt hr).congr
      fun w => ?_
    · rcases hb with rfl | rfl | rfl | rfl
      · exact (habove1 hc).2
      · exact (habove2 hc).2
      · exact (habove1 hc).1
      · exact (habove2 hc).1
    · exact (hm.choice _ _ _ _ _).symm.trans
        (hm.congr (h.holds_node hb1 w).symm (h.holds_node hb2 w).symm)

theorem combineOrdered_combines (hm : Means c op den) (hrec : Combines c den rec) (h : Inv c s)
    {b1 b2 k1 k2 t1 t2 f1 f2 r : ℕ} (hb1 : s.bdd b1 = some (.branch k1 t1 f1))
    (hb2 : s.bdd b2 = some (.branch k2 t2 f2))
    (hr : (combineOrdered op rec b1 b2).run s = some (r, s')) :
    Returns c s s' r fun w => den (Holds s.bdd w b1) (Holds s.bdd w b2) := by
  have hv1 : s.bdd b1 ≠ none := by rw [hb1]; exact Option.some_ne_none _
  have hv2 : s.bdd b2 ≠ none := by rw [hb2]; exact Option.some_ne_none _
  rw [combineOrdered, Op.get_bind] at hr
  cases hmem : op.table s b1 b2 with
  | some result =>
    rw [hmem] at hr
    obtain ⟨rfl, rfl⟩ := Op.pure_eq_some.mp hr
    obtain ⟨hv, hw⟩ := hm.table s h b1 b2 _ hmem
    exact ⟨h, Extends.refl _, hv, hw⟩
  | none =>
    rw [hmem] at hr
    simp only [Op.bind_eq_some] at hr
    obtain ⟨r', s1, hr', u, s2, hstore, hpure⟩ := hr
    have hret := combineNodes_combines hm hrec h hb1 hb2 hr'
    obtain ⟨hinv, hext, hbdd⟩ := hm.store _ _ _ _ _ _ hret.inv (hret.ext.valid hv1)
      (hret.ext.valid hv2) hret.valid (fun w => (hret.holds w).trans
        (hm.congr (hret.ext.holds h hv1 w).symm (hret.ext.holds h hv2 w).symm)) hstore
    obtain ⟨rfl, rfl⟩ := Op.pure_eq_some.mp hpure
    exact ⟨hinv, hret.ext.trans hext, hext.valid hret.valid, fun w =>
      (hext.holds hret.inv hret.valid w).trans (hret.holds w)⟩

theorem combine_combines (before : ℕ → ℕ → Bool) (hm : Means c op den) (n : ℕ) :
    Combines c den (combine before op n) := by
  induction n with
  | zero =>
    intro s b b' r s' _ _ _ hr
    exact absurd hr Op.failure_eq_some
  | succ n ih =>
    intro s b1 b2 r s' h hb1 hb2 hr
    have hbranch : ∀ {b}, s.bdd b ≠ none → b ≠ op.zero → b ≠ op.one →
        ∃ k t f, s.bdd b = some (.branch k t f) := by
      intro b hb hz ho
      obtain hl | hl | hn := h.leaf_or_branch hb
      · exact ((hm.leaf b (Or.inl hl)).elim hz ho).elim
      · exact ((hm.leaf b (Or.inr hl)).elim hz ho).elim
      · exact hn
    rw [combine] at hr
    split_ifs at hr with h1 h2 h3 h4 h5
    · obtain ⟨rfl, rfl⟩ := Op.pure_eq_some.mp hr
      obtain ⟨hv, hz⟩ := hm.zero s h
      refine ⟨h, Extends.refl _, hv, fun w => ?_⟩
      rcases h1 with rfl | rfl
      · exact (hz w _).symm
      · exact ((hm.comm _ _).trans (hz w _)).symm
    · obtain ⟨rfl, rfl⟩ := Op.pure_eq_some.mp hr
      subst h2
      exact ⟨h, Extends.refl _, hb2, fun w => (hm.one s h w _).symm⟩
    · obtain ⟨rfl, rfl⟩ := Op.pure_eq_some.mp hr
      subst h3
      exact ⟨h, Extends.refl _, hb1, fun w => ((hm.comm _ _).trans (hm.one s h w _)).symm⟩
    · obtain ⟨rfl, rfl⟩ := Op.pure_eq_some.mp hr
      subst h4
      exact ⟨h, Extends.refl _, hb1, fun w => (hm.self _).symm⟩
    all_goals
      rw [not_or] at h1
      obtain ⟨k1, t1, f1, hn1⟩ := hbranch hb1 h1.1 h2
      obtain ⟨k2, t2, f2, hn2⟩ := hbranch hb2 h1.2 h3
    · exact (combineOrdered_combines hm ih h hn2 hn1 hr).congr fun w => hm.comm _ _
    · exact combineOrdered_combines hm ih h hn1 hn2 hr

theorem conjunctive_means : Means c (conjunctive : Connective A S) And where
  comm _ _ := and_comm
  self _ := and_self_iff
  choice x p q p' q' := by unfold Choice; tauto
  congr := and_congr
  zero s h := ⟨h.false_valid,
    fun w p => by simp [conjunctive, h.not_holds_false w]⟩
  one s h w p := by simp [conjunctive, h.holds_true w]
  leaf b hb := hb.symm
  table s h b b' r hr := (h.conjunctions b b' r hr).2.2
  store s s' b b' r u h hb hb' hr hw hs := by
    obtain rfl := Op.modify_eq_some.mp hs
    refine ⟨{ h with
      conjunctions := fun x y z hz => ?_
      sorted := fun hc =>
        ⟨(h.sorted hc).ordered, (h.sorted hc).reduced, (h.sorted hc).hashed⟩ },
      (Extends.refl s).same rfl rfl rfl, rfl⟩
    rcases Table.of_insert2 hz with ⟨rfl, rfl, rfl⟩ | hz
    · exact ⟨hb, hb', hr, hw⟩
    · exact h.conjunctions x y z hz

theorem disjunctive_means : Means c (disjunctive : Connective A S) Or where
  comm _ _ := or_comm
  self _ := or_self_iff
  choice x p q p' q' := by unfold Choice; tauto
  congr := or_congr
  zero s h := ⟨h.true_valid,
    fun w p => by simp [disjunctive, h.holds_true w]⟩
  one s h w p := by simp [disjunctive, h.not_holds_false w]
  leaf b hb := hb
  table s h b b' r hr := (h.disjunctions b b' r hr).2.2
  store s s' b b' r u h hb hb' hr hw hs := by
    obtain rfl := Op.modify_eq_some.mp hs
    refine ⟨{ h with
      disjunctions := fun x y z hz => ?_
      sorted := fun hc =>
        ⟨(h.sorted hc).ordered, (h.sorted hc).reduced, (h.sorted hc).hashed⟩ },
      (Extends.refl s).same rfl rfl rfl, rfl⟩
    rcases Table.of_insert2 hz with ⟨rfl, rfl, rfl⟩ | hz
    · exact ⟨hb, hb', hr, hw⟩
    · exact h.disjunctions x y z hz

theorem conjunction_combines (before : ℕ → ℕ → Bool) (n : ℕ) :
    Combines c And (conjunction before n : ℕ → ℕ → Op A S ℕ) :=
  combine_combines before conjunctive_means n

theorem disjunction_combines (before : ℕ → ℕ → Bool) (n : ℕ) :
    Combines c Or (disjunction before n : ℕ → ℕ → Op A S ℕ) :=
  combine_combines before disjunctive_means n

end Connective

section IfThenElse

def Chooses (c : Prop) (op : ℕ → ℕ → ℕ → Op A S ℕ) : Prop :=
  ∀ s k t f r s', Inv c s → s.order k ≠ none → s.bdd t ≠ none → s.bdd f ≠ none →
    (op k t f).run s = some (r, s') →
    Returns c s s' r fun w => Choice (truth w k) (Holds s.bdd w t) (Holds s.bdd w f)

variable {rec : ℕ → ℕ → ℕ → Op A S ℕ} {k t f : ℕ}

-- both recursive calls, the one for the true branch first, and the node over their results
theorem choose_pair (hrec : Chooses c rec) (h : Inv c s) {k' t1 f1 t2 f2 nt nf r : ℕ}
    {s1 s2 s3 : FOBDDManager A S} (hk : s.order k ≠ none) (hk' : s.order k' ≠ none)
    (ht1 : s.bdd t1 ≠ none) (hf1 : s.bdd f1 ≠ none) (ht2 : s.bdd t2 ≠ none) (hf2 : s.bdd f2 ≠ none)
    (hlt : s.lt k' k)
    (hl : c → ∀ b, b = t1 ∨ b = f1 ∨ b = t2 ∨ b = f2 → Above s.lt s.bdd k' b)
    (hnt : (rec k t1 f1).run s = some (nt, s1)) (hnf : (rec k t2 f2).run s1 = some (nf, s2))
    (hr : (getBDD k' nt nf).run s2 = some (r, s3)) :
    Returns c s s3 r fun w => Choice (truth w k')
      (Choice (truth w k) (Holds s.bdd w t1) (Holds s.bdd w f1))
      (Choice (truth w k) (Holds s.bdd w t2) (Holds s.bdd w f2)) := by
  have hrett := hrec _ _ _ _ _ _ h hk ht1 hf1 hnt
  have hretf := (hrec _ _ _ _ _ _ hrett.inv (hrett.ext.order_ne hk) (hrett.ext.valid ht2)
    (hrett.ext.valid hf2) hnf).congr fun w =>
      choice_congr (hrett.ext.holds h ht2 w) (hrett.ext.holds h hf2 w)
  have hloc : ∀ hc b, b = t1 ∨ b = f1 ∨ b = t2 ∨ b = f2 → Local s k' fun w => Holds s.bdd w b :=
    fun hc b hb => h.local_of_above hc (hl hc b hb)
  exact getBDD_trueFirst hrett hretf hk' (fun hc =>
    ⟨(hloc hc t1 (by simp)).choice (hloc hc f1 (by simp)) hlt,
      (hloc hc t2 (by simp)).choice (hloc hc f2 (by simp)) hlt⟩) hr

theorem choice_choice_left (x y p q r : Prop) :
    Choice y (Choice x p r) (Choice x q r) ↔ Choice x (Choice y p q) r := by
  unfold Choice
  tauto

theorem choice_choice_right (x y p q r : Prop) :
    Choice y (Choice x r p) (Choice x r q) ↔ Choice x r (Choice y p q) := by
  unfold Choice
  tauto

theorem choice_choice_both (x y p q p' q' : Prop) :
    Choice y (Choice x p p') (Choice x q q') ↔ Choice x (Choice y p q) (Choice y p' q') := by
  unfold Choice
  tauto

theorem choice_same_left (x p q r : Prop) : Choice x (Choice x p q) r ↔ Choice x p r := by
  unfold Choice
  tauto

theorem choice_same_right (x p q r : Prop) : Choice x p (Choice x q r) ↔ Choice x p r := by
  unfold Choice
  tauto

theorem splitFalse_chooses (hrec : Chooses c rec) (h : Inv c s) {k' t' f' r : ℕ}
    (hk : s.order k ≠ none) (ht : s.bdd t ≠ none) (hf : s.bdd f = some (.branch k' t' f'))
    (hlt : s.lt k' k) (hl : c → Above s.lt s.bdd k' t)
    (hr : (splitFalse rec k t f k').run s = some (r, s')) :
    Returns c s s' r fun w => Choice (truth w k) (Holds s.bdd w t) (Holds s.bdd w f) := by
  obtain ⟨ht', hf', hk'⟩ := h.children hf
  rw [splitFalse] at hr
  simp only [Op.bind_eq_some] at hr
  obtain ⟨t1, s1, ht1, nt, s2, hnt, f1, s3, hf1, nf, s4, hnf, hr⟩ := hr
  obtain ⟨rfl, rfl⟩ := truebranch_branch hf ht1
  have hrett := hrec _ _ _ _ _ _ h hk ht ht' hnt
  obtain ⟨rfl, rfl⟩ := falsebranch_branch (hrett.ext.bdd f _ hf) hf1
  refine (choose_pair hrec h hk hk' ht ht' ht hf' hlt (fun hc b hb => ?_) hnt hnf hr).congr
    fun w => ?_
  · rcases hb with rfl | rfl | rfl | rfl
    · exact hl hc
    · exact ((h.sorted hc).ordered _ _ _ _ hf).1
    · exact hl hc
    · exact ((h.sorted hc).ordered _ _ _ _ hf).2
  · exact (choice_choice_right _ _ _ _ _).trans (choice_congr Iff.rfl (h.holds_node hf w).symm)

theorem splitTrue_chooses (hrec : Chooses c rec) (h : Inv c s) {k' t' f' r : ℕ}
    (hk : s.order k ≠ none) (ht : s.bdd t = some (.branch k' t' f')) (hf : s.bdd f ≠ none)
    (hlt : s.lt k' k) (hl : c → Above s.lt s.bdd k' f)
    (hr : (splitTrue rec k t f k').run s = some (r, s')) :
    Returns c s s' r fun w => Choice (truth w k) (Holds s.bdd w t) (Holds s.bdd w f) := by
  obtain ⟨ht', hf', hk'⟩ := h.children ht
  rw [splitTrue] at hr
  simp only [Op.bind_eq_some] at hr
  obtain ⟨t1, s1, ht1, nt, s2, hnt, f1, s3, hf1, nf, s4, hnf, hr⟩ := hr
  obtain ⟨rfl, rfl⟩ := truebranch_branch ht ht1
  have hrett := hrec _ _ _ _ _ _ h hk ht' hf hnt
  obtain ⟨rfl, rfl⟩ := falsebranch_branch (hrett.ext.bdd t _ ht) hf1
  refine (choose_pair hrec h hk hk' ht' hf hf' hf hlt (fun hc b hb => ?_) hnt hnf hr).congr
    fun w => ?_
  · rcases hb with rfl | rfl | rfl | rfl
    · exact ((h.sorted hc).ordered _ _ _ _ ht).1
    · exact hl hc
    · exact ((h.sorted hc).ordered _ _ _ _ ht).2
    · exact hl hc
  · exact (choice_choice_left _ _ _ _ _).trans (choice_congr (h.holds_node ht w).symm Iff.rfl)

theorem splitBoth_chooses (hrec : Chooses c rec) (h : Inv c s) {k' t' f' t'' f'' r : ℕ}
    (hk : s.order k ≠ none) (ht : s.bdd t = some (.branch k' t' f'))
    (hf : s.bdd f = some (.branch k' t'' f'')) (hlt : s.lt k' k)
    (hr : (splitBoth rec k t f k').run s = some (r, s')) :
    Returns c s s' r fun w => Choice (truth w k) (Holds s.bdd w t) (Holds s.bdd w f) := by
  obtain ⟨ht', hf', hk'⟩ := h.children ht
  obtain ⟨ht'', hf'', -⟩ := h.children hf
  rw [splitBoth] at hr
  simp only [Op.bind_eq_some] at hr
  obtain ⟨t1, s1, ht1, t2, s2, ht2, nt, s3, hnt, f1, s4, hf1, f2, s5, hf2, nf, s6, hnf, hr⟩ := hr
  obtain ⟨rfl, rfl⟩ := truebranch_branch ht ht1
  obtain ⟨rfl, rfl⟩ := truebranch_branch hf ht2
  have hrett := hrec _ _ _ _ _ _ h hk ht' ht'' hnt
  obtain ⟨rfl, rfl⟩ := falsebranch_branch (hrett.ext.bdd t _ ht) hf1
  obtain ⟨rfl, rfl⟩ := falsebranch_branch (hrett.ext.bdd f _ hf) hf2
  refine (choose_pair hrec h hk hk' ht' ht'' hf' hf'' hlt (fun hc b hb => ?_) hnt hnf hr).congr
    fun w => ?_
  · rcases hb with rfl | rfl | rfl | rfl
    · exact ((h.sorted hc).ordered _ _ _ _ ht).1
    · exact ((h.sorted hc).ordered _ _ _ _ hf).1
    · exact ((h.sorted hc).ordered _ _ _ _ ht).2
    · exact ((h.sorted hc).ordered _ _ _ _ hf).2
  · exact (choice_choice_both _ _ _ _ _ _).trans
      (choice_congr (h.holds_node ht w).symm (h.holds_node hf w).symm)

theorem kernelLess_iff {k' : ℕ} {v : Bool} (hv : (kernelLess k k').run s = some (v, s')) :
    s = s' ∧ (v = true ↔ s.lt k k') := by
  obtain ⟨o, o', ho, ho', rfl, rfl⟩ := kernelLess_eq_some.mp hv
  refine ⟨rfl, fun hlt => ⟨o, o', ho, ho', hlt⟩, ?_⟩
  rintro ⟨o1, o1', h1, h1', hlt⟩
  rw [ho] at h1
  rw [ho'] at h1'
  cases h1
  cases h1'
  exact hlt

theorem Inv.root_cases (h : Inv c s) {o : KernelOrder} (ho : s.order k = some o)
    (hcat : o.category ≠ .trueFalse) {b k' : ℕ} (hk' : (kernelOf b).run s = some (k', s')) :
    s = s' ∧ ((s.lt k k' ∧ Above s.lt s.bdd k b) ∨
      (k = k' ∧ ∃ t f, s.bdd b = some (.branch k' t f)) ∨
      (s.lt k' k ∧ ∃ t f, s.bdd b = some (.branch k' t f))) := by
  obtain ⟨hs, ⟨v, hb, hkv⟩ | ⟨t, f, hb⟩⟩ := kernelOf_eq_some hk'
  · refine ⟨hs, Or.inl ⟨?_, above_of_leaf hb k⟩⟩
    have hless : ∀ n, o.less ⟨.trueFalse, n⟩ = true := by
      intro n
      obtain ⟨cat, m⟩ := o
      cases cat with
      | trueFalse => exact absurd rfl hcat
      | standard => rfl
      | deBruijn => rfl
    cases v with
    | true => exact hkv ▸ ⟨o, _, ho, h.constants.1, hless 0⟩
    | false => exact hkv ▸ ⟨o, _, ho, h.constants.2, hless 1⟩
  · refine ⟨hs, ?_⟩
    obtain ⟨o', ho', -⟩ := h.labelled b k' t f hb
    rcases o.less_trichotomous o' with hlt | rfl | hlt
    · have hlt : s.lt k k' := ⟨o, o', ho, ho', hlt⟩
      exact Or.inl ⟨hlt, above_of_branch hb hlt⟩
    · exact Or.inr (Or.inl ⟨h.injective k k' o ho ho', t, f, hb⟩)
    · exact Or.inr (Or.inr ⟨⟨o', o, ho', ho, hlt⟩, t, f, hb⟩)

theorem placeKernel_chooses (hrec : Chooses c rec) (h : Inv c s) {o : KernelOrder} {r : ℕ}
    (ho : s.order k = some o) (hcat : o.category ≠ .trueFalse) (ht : s.bdd t ≠ none)
    (hf : s.bdd f ≠ none) (hr : (placeKernel rec k t f).run s = some (r, s')) :
    Returns c s s' r fun w => Choice (truth w k) (Holds s.bdd w t) (Holds s.bdd w f) := by
  have hk : s.order k ≠ none := by rw [ho]; exact Option.some_ne_none o
  have hirr : ¬ s.lt k k := irrefl_of s.lt k
  rw [placeKernel] at hr
  simp only [Op.bind_eq_some] at hr
  obtain ⟨tk, s1, htk, fk, s2, hfk, v, s3, hv, hr⟩ := hr
  obtain ⟨rfl, htcases⟩ := h.root_cases ho hcat htk
  obtain ⟨rfl, hfcases⟩ := h.root_cases ho hcat hfk
  obtain ⟨rfl, hvlt⟩ := kernelLess_iff hv
  rcases htcases with ⟨htlt, htab⟩ | ⟨rfl, t', f', htn⟩ | ⟨htgt, t', f', htn⟩
  · -- above the true branch
    rw [if_pos (hvlt.mpr htlt)] at hr
    simp only [Op.bind_eq_some] at hr
    obtain ⟨v', s4, hv', hr⟩ := hr
    obtain ⟨rfl, hvlt'⟩ := kernelLess_iff hv'
    rcases hfcases with ⟨hflt, hfab⟩ | ⟨rfl, t', f', hfn⟩ | ⟨hfgt, t', f', hfn⟩
    · rw [if_pos (hvlt'.mpr hflt)] at hr
      exact getBDD_returns h hk ht hf (fun _ _ _ => ⟨htab, hfab⟩) hr
    · rw [if_neg (fun hx => hirr (hvlt'.mp hx)), if_pos rfl] at hr
      simp only [Op.bind_eq_some] at hr
      obtain ⟨f1, s5, hf1, hr⟩ := hr
      obtain ⟨rfl, rfl⟩ := falsebranch_branch hfn hf1
      refine (getBDD_returns h hk ht (h.children hfn).2.1
        (fun hc _ _ => ⟨htab, ((h.sorted hc).ordered _ _ _ _ hfn).2⟩) hr).congr fun w => ?_
      exact (choice_same_right _ _ _ _).symm.trans (choice_congr Iff.rfl (h.holds_node hfn w).symm)
    · have hne : k ≠ fk := by
        rintro rfl
        exact hirr hfgt
      rw [if_neg (fun hx => hirr (trans_of s.lt (hvlt'.mp hx) hfgt)), if_neg hne] at hr
      exact splitFalse_chooses hrec h hk ht hfn hfgt (fun _ => htab.trans hfgt) hr
  · -- at the root of the true branch
    rw [if_neg (fun hx => hirr (hvlt.mp hx)), if_pos rfl] at hr
    simp only [Op.bind_eq_some] at hr
    obtain ⟨v', s4, hv', hr⟩ := hr
    obtain ⟨rfl, hvlt'⟩ := kernelLess_iff hv'
    have hleft : ∀ w p, Choice (truth w k) (Holds s.bdd w t') p ↔
        Choice (truth w k) (Holds s.bdd w t) p := fun w p =>
      (choice_same_left _ _ _ _).symm.trans (choice_congr (h.holds_node htn w).symm Iff.rfl)
    rcases hfcases with ⟨hflt, hfab⟩ | ⟨rfl, t2, f2, hfn⟩ | ⟨hfgt, t2, f2, hfn⟩
    · rw [if_pos (hvlt'.mpr hflt)] at hr
      simp only [Op.bind_eq_some] at hr
      obtain ⟨t1, s5, ht1, hr⟩ := hr
      obtain ⟨rfl, rfl⟩ := truebranch_branch htn ht1
      exact (getBDD_returns h hk (h.children htn).1 hf
        (fun hc _ _ => ⟨((h.sorted hc).ordered _ _ _ _ htn).1, hfab⟩) hr).congr fun w => hleft w _
    · rw [if_neg (fun hx => hirr (hvlt'.mp hx)), if_pos rfl] at hr
      simp only [Op.bind_eq_some] at hr
      obtain ⟨t1, s5, ht1, f1, s6, hf1, hr⟩ := hr
      obtain ⟨rfl, rfl⟩ := truebranch_branch htn ht1
      obtain ⟨rfl, rfl⟩ := falsebranch_branch hfn hf1
      refine (getBDD_returns h hk (h.children htn).1 (h.children hfn).2.1
        (fun hc _ _ => ⟨((h.sorted hc).ordered _ _ _ _ htn).1,
          ((h.sorted hc).ordered _ _ _ _ hfn).2⟩) hr).congr fun w => ?_
      exact (hleft w _).trans ((choice_same_right _ _ _ _).symm.trans
        (choice_congr Iff.rfl (h.holds_node hfn w).symm))
    · have hne : k ≠ fk := by
        rintro rfl
        exact hirr hfgt
      rw [if_neg (fun hx => hirr (trans_of s.lt (hvlt'.mp hx) hfgt)), if_neg hne] at hr
      exact splitFalse_chooses hrec h hk ht hfn hfgt (fun _ => above_of_branch htn hfgt) hr
  · -- below the root of the true branch
    have hne : k ≠ tk := by
      rintro rfl
      exact hirr htgt
    rw [if_neg (fun hx => hirr (trans_of s.lt (hvlt.mp hx) htgt)), if_neg hne] at hr
    simp only [Op.bind_eq_some] at hr
    obtain ⟨v1, s4, hv1, v2, s5, hv2, hr⟩ := hr
    obtain ⟨rfl, hlt1⟩ := kernelLess_iff hv1
    obtain ⟨rfl, hlt2⟩ := kernelLess_iff hv2
    rcases hfcases with ⟨hflt, hfab⟩ | ⟨rfl, t2, f2, hfn⟩ | ⟨hfgt, t2, f2, hfn⟩
    · rw [if_pos (Or.inl (hlt1.mpr hflt))] at hr
      exact splitTrue_chooses hrec h hk htn hf htgt (fun _ => hfab.trans htgt) hr
    · rw [if_pos (Or.inr (Or.inl rfl))] at hr
      exact splitTrue_chooses hrec h hk htn hf htgt (fun _ => above_of_branch hfn htgt) hr
    · obtain ⟨o1, ho1, -⟩ := h.labelled _ _ _ _ htn
      obtain ⟨o2, ho2, -⟩ := h.labelled _ _ _ _ hfn
      split_ifs at hr with hif heq
      · have hlt : s.lt tk fk := by
          rcases hif with hx | rfl | hx
          · exact absurd (trans_of s.lt (hlt1.mp hx) hfgt) hirr
          · exact absurd hfgt hirr
          · exact hlt2.mp hx
        exact splitTrue_chooses hrec h hk htn hf htgt (fun _ => above_of_branch hfn hlt) hr
      · subst heq
        exact splitBoth_chooses hrec h hk htn hfn htgt hr
      · have hlt : s.lt fk tk := by
          rcases o1.less_trichotomous o2 with hx | rfl | hx
          · exact absurd (Or.inr (Or.inr (hlt2.mpr ⟨o1, o2, ho1, ho2, hx⟩))) hif
          · exact absurd (h.injective tk fk o1 ho1 ho2) heq
          · exact ⟨o2, o1, ho2, ho1, hx⟩
        exact splitFalse_chooses hrec h hk ht hfn hfgt (fun _ => above_of_branch htn hlt) hr

theorem Inv.storeIfthenelse (h : Inv c s) {r : ℕ} (ht : s.bdd t ≠ none) (hf : s.bdd f ≠ none)
    (hr : s.bdd r ≠ none)
    (hw : ∀ w, Holds s.bdd w r ↔ Choice (truth w k) (Holds s.bdd w t) (Holds s.bdd w f)) :
    Inv c { s with ifthenelsetable := Table.insert3 s.ifthenelsetable k t f r } :=
  { h with
    ifthenelses := fun k' t' f' r' hr' => by
      rcases Table.of_insert3 hr' with ⟨rfl, rfl, rfl, rfl⟩ | hr'
      · exact ⟨ht, hf, hr, hw⟩
      · exact h.ifthenelses k' t' f' r' hr'
    sorted := fun hc => ⟨(h.sorted hc).ordered, (h.sorted hc).reduced, (h.sorted hc).hashed⟩ }

theorem ifthenelse_chooses (n : ℕ) : Chooses c (ifthenelse n : ℕ → ℕ → ℕ → Op A S ℕ) := by
  induction n with
  | zero =>
    intro s k t f r s' _ _ _ _ hr
    exact absurd hr Op.failure_eq_some
  | succ n ih =>
    intro s k t f r s' h hk ht hf hr
    rw [ifthenelse, lookupKernel, Op.get_bind] at hr
    cases hm : s.ifthenelsetable k t f with
    | some result =>
      rw [hm] at hr
      obtain ⟨rfl, rfl⟩ := Op.pure_eq_some.mp hr
      exact ⟨h, Extends.refl _, (h.ifthenelses k t f _ hm).2.2.1, (h.ifthenelses k t f _ hm).2.2.2⟩
    | none =>
      rw [hm] at hr
      simp only [mergeKernel] at hr
      split_ifs at hr with h1 h2 h3
      · obtain ⟨rfl, rfl⟩ := Op.pure_eq_some.mp hr
        exact ⟨h, Extends.refl _, ht, fun w => (choice_true (by simp [truth, h1])).symm⟩
      · obtain ⟨rfl, rfl⟩ := Op.pure_eq_some.mp hr
        exact ⟨h, Extends.refl _, hf, fun w => (choice_false (by simp [truth, h2])).symm⟩
      · obtain ⟨rfl, rfl⟩ := Op.pure_eq_some.mp hr
        subst h3
        exact ⟨h, Extends.refl _, ht, fun w => (choice_self _ _).symm⟩
      · simp only [Op.bind_eq_some] at hr
        obtain ⟨r', s1, hr', _, s2, hstore, hpure⟩ := hr
        obtain ⟨o, ho⟩ := Option.ne_none_iff_exists'.mp hk
        have hret := placeKernel_chooses ih h ho
          (fun hcat => (h.constant k o ho hcat).elim h1 h2) ht hf hr'
        obtain rfl := Op.modify_eq_some.mp hstore
        obtain ⟨rfl, rfl⟩ := Op.pure_eq_some.mp hpure
        refine ⟨hret.inv.storeIfthenelse (hret.ext.valid ht) (hret.ext.valid hf) hret.valid
          fun w => ?_, hret.ext.same rfl rfl rfl, hret.valid, hret.holds⟩
        rw [hret.holds, hret.ext.holds h ht, hret.ext.holds h hf]

end IfThenElse

end FOBDDManager

end FoBdd
