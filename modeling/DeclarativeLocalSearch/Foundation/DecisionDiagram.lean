import Mathlib.Order.WellFounded

namespace DecisionDiagram

variable {K B : Type}

inductive Node (K B : Type) where
  | leaf (value : Bool)
  | branch (kernel : K) (high low : B)
  deriving DecidableEq

-- a heap of nodes: what no pointer leads to has no node
abbrev Diagram (K B : Type) := B → Option (Node K B)

def Choice (c p q : Prop) : Prop := (c ∧ p) ∨ (¬ c ∧ q)

theorem choice_true {c p q : Prop} (h : c) : Choice c p q ↔ p := by simp [Choice, h]

theorem choice_false {c p q : Prop} (h : ¬ c) : Choice c p q ↔ q := by simp [Choice, h]

theorem choice_self (c p : Prop) : Choice c p p ↔ p := by
  unfold Choice
  tauto

theorem choice_congr {c p q p' q' : Prop} (hp : p ↔ p') (hq : q ↔ q') :
    Choice c p q ↔ Choice c p' q' := by
  unfold Choice
  rw [hp, hq]

-- the truth of a diagram when w says which kernels are true
inductive Holds (D : Diagram K B) (w : K → Prop) : B → Prop where
  | leaf {b : B} : D b = some (.leaf true) → Holds D w b
  | high {b hi lo : B} {k : K} : D b = some (.branch k hi lo) → w k → Holds D w hi → Holds D w b
  | low {b hi lo : B} {k : K} : D b = some (.branch k hi lo) → ¬ w k → Holds D w lo → Holds D w b

section Meaning

variable {D : Diagram K B} {w : K → Prop}

theorem holds_leaf {b : B} {v : Bool} (h : D b = some (.leaf v)) : Holds D w b ↔ v = true := by
  constructor
  · intro hb
    cases hb with
    | leaf h' =>
      rw [h] at h'
      cases h'
      rfl
    | high h' => rw [h] at h'; cases h'
    | low h' => rw [h] at h'; cases h'
  · rintro rfl
    exact Holds.leaf h

theorem holds_branch {b hi lo : B} {k : K} (h : D b = some (.branch k hi lo)) :
    Holds D w b ↔ Choice (w k) (Holds D w hi) (Holds D w lo) := by
  constructor
  · intro hb
    cases hb with
    | leaf h' => rw [h] at h'; cases h'
    | high h' hw hh =>
      rw [h] at h'
      cases h'
      exact Or.inl ⟨hw, hh⟩
    | low h' hw hl =>
      rw [h] at h'
      cases h'
      exact Or.inr ⟨hw, hl⟩
  · rintro (⟨hw, hh⟩ | ⟨hw, hl⟩)
    · exact Holds.high h hw hh
    · exact Holds.low h hw hl

def Child (D : Diagram K B) (c b : B) : Prop :=
  ∃ k hi lo, D b = some (.branch k hi lo) ∧ (c = hi ∨ c = lo)

def Acyclic (D : Diagram K B) : Prop := WellFounded (Child D)

theorem child_high {b hi lo : B} {k : K} (h : D b = some (.branch k hi lo)) : Child D hi b :=
  ⟨k, hi, lo, h, Or.inl rfl⟩

theorem child_low {b hi lo : B} {k : K} (h : D b = some (.branch k hi lo)) : Child D lo b :=
  ⟨k, hi, lo, h, Or.inr rfl⟩

def Closed (D : Diagram K B) : Prop :=
  ∀ b k hi lo, D b = some (.branch k hi lo) → D hi ≠ none ∧ D lo ≠ none

theorem acyclic_of_weight {W : B → ℕ}
    (h : ∀ b k hi lo, D b = some (.branch k hi lo) → W hi < W b ∧ W lo < W b) : Acyclic D := by
  refine Subrelation.wf ?_ (measure W).wf
  rintro c b ⟨k, hi, lo, hb, rfl | rfl⟩
  · exact (h b k c lo hb).1
  · exact (h b k hi c hb).2

-- the meaning of an acyclic diagram is the only solution of its equations
theorem holds_of_equations (ha : Acyclic D) (hc : Closed D) {P : B → Prop}
    (hleaf : ∀ b v, D b = some (.leaf v) → (P b ↔ v = true))
    (hbranch : ∀ b k hi lo, D b = some (.branch k hi lo) → (P b ↔ Choice (w k) (P hi) (P lo)))
    {b : B} (hb : D b ≠ none) : Holds D w b ↔ P b := by
  induction b using ha.induction with
  | _ b ih =>
    cases hn : D b with
    | none => exact absurd hn hb
    | some n =>
      cases n with
      | leaf v => rw [holds_leaf hn, hleaf b v hn]
      | branch k hi lo =>
        obtain ⟨hhi, hlo⟩ := hc b k hi lo hn
        rw [holds_branch hn, hbranch b k hi lo hn]
        exact choice_congr (ih hi (child_high hn) hhi) (ih lo (child_low hn) hlo)

theorem exists_size (ha : Acyclic D) :
    ∃ W : B → ℕ, ∀ b k hi lo, D b = some (.branch k hi lo) → W b = W hi + W lo + 1 := by
  classical
  have hwf : WellFounded (Child D) := ha
  refine ⟨hwf.fix fun b W => if h : ∃ p : K × B × B, D b = some (.branch p.1 p.2.1 p.2.2) then
    W h.choose.2.1 (child_high h.choose_spec) + W h.choose.2.2 (child_low h.choose_spec) + 1 else 0, ?_⟩
  intro b k hi lo h
  have hbranch : ∃ p : K × B × B, D b = some (.branch p.1 p.2.1 p.2.2) := ⟨(k, hi, lo), h⟩
  have hchosen := h.symm.trans hbranch.choose_spec
  injection hchosen with hchosen
  injection hchosen with _ hhi hlo
  rw [WellFounded.fix_eq, dif_pos hbranch]
  dsimp only
  rw [← hhi, ← hlo]

-- how many branchings a diagram unfolds to
inductive Branchings (D : Diagram K B) : B → ℕ → Prop
  | leaf {b : B} {v : Bool} : D b = some (.leaf v) → Branchings D b 0
  | branch {b hi lo : B} {k : K} {m n : ℕ} : D b = some (.branch k hi lo) → Branchings D hi m →
      Branchings D lo n → Branchings D b (m + n + 1)

theorem exists_branchings (ha : Acyclic D) (hc : Closed D) {b : B} (hb : D b ≠ none) :
    ∃ m, Branchings D b m := by
  induction b using ha.induction with
  | _ b ih =>
    obtain ⟨x, hn⟩ := Option.ne_none_iff_exists'.mp hb
    cases x with
    | leaf v => exact ⟨0, .leaf hn⟩
    | branch k hi lo =>
      obtain ⟨hhi, hlo⟩ := hc b k hi lo hn
      obtain ⟨m, hm⟩ := ih hi (child_high hn) hhi
      obtain ⟨n, hn'⟩ := ih lo (child_low hn) hlo
      exact ⟨m + n + 1, .branch hn hm hn'⟩

theorem Branchings.of_extends {D' : Diagram K B} (he : ∀ b n, D b = some n → D' b = some n) {b : B} {m : ℕ}
    (h : Branchings D b m) : Branchings D' b m := by
  induction h with
  | leaf hb => exact .leaf (he _ _ hb)
  | branch hb _ _ ihm ihn => exact .branch (he _ _ hb) ihm ihn

theorem holds_of_extends {D' : Diagram K B} (hc : Closed D)
    (he : ∀ b n, D b = some n → D' b = some n) {b : B} (hb : D b ≠ none) :
    Holds D' w b ↔ Holds D w b := by
  constructor
  · intro h
    induction h with
    | @leaf b h =>
      obtain ⟨n, hn⟩ := Option.ne_none_iff_exists'.mp hb
      rw [he b n hn] at h
      exact Holds.leaf (hn.trans h)
    | @high b hi lo k h hw _ ih =>
      obtain ⟨n, hn⟩ := Option.ne_none_iff_exists'.mp hb
      rw [he b n hn] at h
      have hn := hn.trans h
      exact Holds.high hn hw (ih (hc _ _ _ _ hn).1)
    | @low b hi lo k h hw _ ih =>
      obtain ⟨n, hn⟩ := Option.ne_none_iff_exists'.mp hb
      rw [he b n hn] at h
      have hn := hn.trans h
      exact Holds.low hn hw (ih (hc _ _ _ _ hn).2)
  · intro h
    induction h with
    | leaf h => exact Holds.leaf (he _ _ h)
    | high h hw _ ih => exact Holds.high (he _ _ h) hw (ih (hc _ _ _ _ h).1)
    | low h hw _ ih => exact Holds.low (he _ _ h) hw (ih (hc _ _ _ _ h).2)

theorem acyclic_update [DecidableEq B] (ha : Acyclic D) (hc : Closed D) {b hi lo : B} {k : K}
    (hb : D b = none) (hhi : D hi ≠ none) (hlo : D lo ≠ none) :
    Acyclic (Function.update D b (some (.branch k hi lo))) := by
  obtain ⟨W, hW⟩ := exists_size ha
  have hne : ∀ c, D c ≠ none → c ≠ b := fun c hcn hcb => hcn (hcb ▸ hb)
  refine acyclic_of_weight (W := Function.update W b (W hi + W lo + 1)) ?_
  intro c k' hi' lo' h
  by_cases hcb : c = b
  · subst hcb
    rw [Function.update_self] at h
    cases h
    rw [Function.update_self, Function.update_of_ne (hne hi hhi), Function.update_of_ne (hne lo hlo)]
    omega
  · rw [Function.update_of_ne hcb] at h
    obtain ⟨hhi', hlo'⟩ := hc c k' hi' lo' h
    rw [Function.update_of_ne hcb, Function.update_of_ne (hne hi' hhi'),
      Function.update_of_ne (hne lo' hlo'), hW c k' hi' lo' h]
    omega

end Meaning

section Order

variable (lt : K → K → Prop) (D : Diagram K B)

def Above (k : K) (b : B) : Prop := ∀ k' hi lo, D b = some (.branch k' hi lo) → lt k k'

structure Canonical : Prop where
  closed : Closed D
  ordered : ∀ b k hi lo, D b = some (.branch k hi lo) → Above lt D k hi ∧ Above lt D k lo
  reduced : ∀ b k hi lo, D b = some (.branch k hi lo) → hi ≠ lo
  unique : ∀ b b' n, D b = some n → D b' = some n → b = b'
  total : ∀ b b' k k' hi hi' lo lo', D b = some (.branch k hi lo) →
    D b' = some (.branch k' hi' lo') → lt k k' ∨ k = k' ∨ lt k' k

variable {lt D}

theorem above_of_leaf {b : B} {v : Bool} (h : D b = some (.leaf v)) (k : K) : Above lt D k b := by
  intro k' hi lo h'
  rw [h] at h'
  cases h'

theorem above_of_branch {b hi lo : B} {k k' : K} (h : D b = some (.branch k' hi lo))
    (hlt : lt k k') : Above lt D k b := by
  intro j hi' lo' h'
  rw [h] at h'
  cases h'
  exact hlt

theorem acc_of_not_branch {b : B} (h : ∀ k hi lo, D b ≠ some (.branch k hi lo)) :
    Acc (Child D) b :=
  Acc.intro b fun _ ⟨k, hi, lo, hn, _⟩ => absurd hn (h k hi lo)

theorem acyclic_of_ordered (hwf : WellFounded fun k k' => lt k' k)
    (ho : ∀ b k hi lo, D b = some (.branch k hi lo) → Above lt D k hi ∧ Above lt D k lo) :
    Acyclic D := by
  have key : ∀ k b hi lo, D b = some (.branch k hi lo) → Acc (Child D) b := by
    intro k
    induction k using hwf.induction with
    | _ k ih =>
      intro b hi lo hb
      refine Acc.intro b ?_
      rintro c ⟨k', hi', lo', hn, hc⟩
      rw [hb] at hn
      cases hn
      have habove : Above lt D k c := by
        rcases hc with rfl | rfl
        · exact (ho b k c lo hb).1
        · exact (ho b k hi c hb).2
      by_cases hnc : ∃ k' hi' lo', D c = some (.branch k' hi' lo')
      · obtain ⟨k', hi', lo', hnc⟩ := hnc
        exact ih k' (habove k' hi' lo' hnc) c hi' lo' hnc
      · exact acc_of_not_branch fun k' hi' lo' h => hnc ⟨k', hi', lo', h⟩
  refine ⟨fun b => ?_⟩
  by_cases hn : ∃ k hi lo, D b = some (.branch k hi lo)
  · obtain ⟨k, hi, lo, hn⟩ := hn
    exact key k b hi lo hn
  · exact acc_of_not_branch fun k hi lo h => hn ⟨k, hi, lo, h⟩

variable [IsStrictOrder K lt]

theorem Above.trans {k k' : K} {b : B} (h : lt k k') (hb : Above lt D k' b) : Above lt D k b :=
  fun k'' hi lo hn => trans_of lt h (hb k'' hi lo hn)

theorem holds_of_agree (hc : Canonical lt D) {w w' : K → Prop} {b : B} (hb : Holds D w b) {k : K}
    (hk : Above lt D k b) (hw : ∀ x, lt k x → (w x ↔ w' x)) : Holds D w' b := by
  induction hb with
  | leaf h => exact Holds.leaf h
  | high h hx _ ih =>
    have hlt := hk _ _ _ h
    exact Holds.high h ((hw _ hlt).mp hx) (ih ((hc.ordered _ _ _ _ h).1.trans hlt))
  | low h hx _ ih =>
    have hlt := hk _ _ _ h
    exact Holds.low h (fun hx' => hx ((hw _ hlt).mpr hx')) (ih ((hc.ordered _ _ _ _ h).2.trans hlt))

theorem holds_agree (hc : Canonical lt D) {w w' : K → Prop} {b : B} {k : K}
    (hk : Above lt D k b) (hw : ∀ x, lt k x → (w x ↔ w' x)) : Holds D w b ↔ Holds D w' b :=
  ⟨fun h => holds_of_agree hc h hk hw, fun h => holds_of_agree hc h hk fun x hx => (hw x hx).symm⟩

theorem holds_irrelevant [DecidableEq K] (hc : Canonical lt D) {w : K → Prop} {b : B} {k : K}
    (hk : Above lt D k b) (p : Prop) : Holds D (Function.update w k p) b ↔ Holds D w b := by
  refine holds_agree hc hk fun x hx => ?_
  rw [Function.update_of_ne]
  rintro rfl
  exact irrefl_of lt x hx

theorem holds_high_iff [DecidableEq K] (hc : Canonical lt D) {w : K → Prop} {b hi lo : B} {k : K}
    (h : D b = some (.branch k hi lo)) :
    Holds D (Function.update w k True) b ↔ Holds D w hi := by
  rw [holds_branch h, choice_true (by simp), holds_irrelevant hc (hc.ordered b k hi lo h).1]

theorem holds_low_iff [DecidableEq K] (hc : Canonical lt D) {w : K → Prop} {b hi lo : B} {k : K}
    (h : D b = some (.branch k hi lo)) :
    Holds D (Function.update w k False) b ↔ Holds D w lo := by
  rw [holds_branch h, choice_false (by simp), holds_irrelevant hc (hc.ordered b k hi lo h).2]

def Agree (D : Diagram K B) (b b' : B) : Prop := ∀ w, Holds D w b ↔ Holds D w b'

theorem agree_high [DecidableEq K] (hc : Canonical lt D) {b b' hi lo hi' lo' : B} {k : K}
    (h : D b = some (.branch k hi lo)) (h' : D b' = some (.branch k hi' lo')) (ha : Agree D b b') :
    Agree D hi hi' := by
  intro w
  rw [← holds_high_iff hc h, ← holds_high_iff hc h', ha]

theorem agree_low [DecidableEq K] (hc : Canonical lt D) {b b' hi lo hi' lo' : B} {k : K}
    (h : D b = some (.branch k hi lo)) (h' : D b' = some (.branch k hi' lo')) (ha : Agree D b b') :
    Agree D lo lo' := by
  intro w
  rw [← holds_low_iff hc h, ← holds_low_iff hc h', ha]

theorem agree_of_above [DecidableEq K] (hc : Canonical lt D) {b b' hi lo : B} {k : K}
    (h : D b = some (.branch k hi lo)) (hk : Above lt D k b') (ha : Agree D b b') :
    Agree D hi b' ∧ Agree D lo b' := by
  refine ⟨fun w => ?_, fun w => ?_⟩
  · rw [← holds_high_iff hc h, ha, holds_irrelevant hc hk]
  · rw [← holds_low_iff hc h, ha, holds_irrelevant hc hk]

-- two diagrams with the same truth under every assignment are the same pointer
theorem Canonical.eq_of_agree (hwf : WellFounded fun k k' => lt k' k) (hc : Canonical lt D)
    {b b' : B} (hb : D b ≠ none) (hb' : D b' ≠ none) (ha : Agree D b b') : b = b' := by
  classical
  have hacyclic := acyclic_of_ordered hwf hc.ordered
  induction b using hacyclic.induction generalizing b' with
  | _ b ih =>
    induction b' using hacyclic.induction with
    | _ b' ih' =>
      have below : ∀ {k hi lo}, D b = some (.branch k hi lo) → ¬ Above lt D k b' := by
        intro k hi lo h hk
        obtain ⟨hhi, hlo⟩ := hc.closed b k hi lo h
        obtain ⟨h1, h2⟩ := agree_of_above hc h hk ha
        exact hc.reduced b k hi lo h ((ih hi (child_high h) hhi hb' h1).trans
          (ih lo (child_low h) hlo hb' h2).symm)
      have below' : ∀ {k hi lo}, D b' = some (.branch k hi lo) → ¬ Above lt D k b := by
        intro k hi lo h hk
        obtain ⟨hhi, hlo⟩ := hc.closed b' k hi lo h
        obtain ⟨h1, h2⟩ := agree_of_above hc h hk fun w => (ha w).symm
        exact hc.reduced b' k hi lo h ((ih' hi (child_high h) hhi fun w => (h1 w).symm).symm.trans
          (ih' lo (child_low h) hlo fun w => (h2 w).symm))
      cases hn : D b with
      | none => exact absurd hn hb
      | some n =>
        cases hn' : D b' with
        | none => exact absurd hn' hb'
        | some n' =>
          cases n with
          | leaf v =>
            cases n' with
            | leaf v' =>
              have hv := ha fun _ => True
              rw [holds_leaf hn, holds_leaf hn', Bool.eq_iff_iff.symm] at hv
              exact hc.unique b b' _ hn (hv ▸ hn')
            | branch k hi lo => exact absurd (above_of_leaf hn k) (below' hn')
          | branch k hi lo =>
            cases n' with
            | leaf v' => exact absurd (above_of_leaf hn' k) (below hn)
            | branch k' hi' lo' =>
              rcases hc.total b b' k k' hi hi' lo lo' hn hn' with hlt | rfl | hlt
              · exact absurd (above_of_branch hn' hlt) (below hn)
              · obtain ⟨hhi, hlo⟩ := hc.closed b k hi lo hn
                obtain ⟨hhi', hlo'⟩ := hc.closed b' k hi' lo' hn'
                obtain rfl := ih hi (child_high hn) hhi hhi' (agree_high hc hn hn' ha)
                obtain rfl := ih lo (child_low hn) hlo hlo' (agree_low hc hn hn' ha)
                exact hc.unique b b' _ hn hn'
              · exact absurd (above_of_branch hn hlt) (below' hn')

-- a diagram whose truth depends only on kernels below k has its root below k
theorem Canonical.above_of_local (hwf : WellFounded fun k k' => lt k' k) (hc : Canonical lt D)
    {b : B} {k : K} (h : ∀ w w' : K → Prop, (∀ x, lt k x → (w x ↔ w' x)) →
      (Holds D w b ↔ Holds D w' b)) : Above lt D k b := by
  classical
  intro k' hi lo hn
  by_contra hk
  obtain ⟨hhi, hlo⟩ := hc.closed b k' hi lo hn
  refine hc.reduced b k' hi lo hn (hc.eq_of_agree hwf hhi hlo fun w => ?_)
  rw [← holds_high_iff hc hn, ← holds_low_iff hc hn]
  refine h _ _ fun x hx => ?_
  rw [Function.update_of_ne, Function.update_of_ne] <;>
  · rintro rfl
    exact hk hx

end Order

end DecisionDiagram

namespace Table

variable {α β γ δ : Type} [DecidableEq α] [DecidableEq β] [DecidableEq γ]

def insert (m : α → Option δ) (a : α) (v : δ) : α → Option δ := Function.update m a (some v)

def insert2 (m : α → β → Option δ) (a : α) (b : β) (v : δ) : α → β → Option δ :=
  Function.update m a (insert (m a) b v)

def insert3 (m : α → β → γ → Option δ) (a : α) (b : β) (c : γ) (v : δ) : α → β → γ → Option δ :=
  Function.update m a (insert2 (m a) b c v)

def erase3 (m : α → β → γ → Option δ) (a : α) (b : β) (c : γ) : α → β → γ → Option δ :=
  Function.update m a (Function.update (m a) b (Function.update (m a b) c none))

theorem insert_apply (m : α → Option δ) (a a' : α) (v : δ) :
    insert m a v a' = if a' = a then some v else m a' := by
  rw [insert, Function.update_apply]

theorem insert2_apply (m : α → β → Option δ) (a a' : α) (b b' : β) (v : δ) :
    insert2 m a b v a' b' = if a' = a ∧ b' = b then some v else m a' b' := by
  by_cases ha : a' = a
  · subst ha
    simp [insert2, insert_apply]
  · simp [insert2, ha]

theorem insert3_apply (m : α → β → γ → Option δ) (a a' : α) (b b' : β) (c c' : γ) (v : δ) :
    insert3 m a b c v a' b' c' = if a' = a ∧ b' = b ∧ c' = c then some v else m a' b' c' := by
  by_cases ha : a' = a
  · subst ha
    simp [insert3, insert2_apply]
  · simp [insert3, ha]

theorem erase3_apply (m : α → β → γ → Option δ) (a a' : α) (b b' : β) (c c' : γ) :
    erase3 m a b c a' b' c' = if a' = a ∧ b' = b ∧ c' = c then none else m a' b' c' := by
  by_cases ha : a' = a
  · subst ha
    by_cases hb : b' = b
    · subst hb
      simp [erase3, Function.update_apply]
    · simp [erase3, hb]
  · simp [erase3, ha]

theorem of_insert {m : α → Option δ} {a a' : α} {v x : δ} (h : insert m a v a' = some x) :
    (a' = a ∧ x = v) ∨ m a' = some x := by
  rw [insert_apply] at h
  split_ifs at h with ha
  · exact Or.inl ⟨ha, (Option.some.inj h).symm⟩
  · exact Or.inr h

theorem of_insert2 {m : α → β → Option δ} {a a' : α} {b b' : β} {v x : δ}
    (h : insert2 m a b v a' b' = some x) : (a' = a ∧ b' = b ∧ x = v) ∨ m a' b' = some x := by
  rw [insert2_apply] at h
  split_ifs at h with ha
  · exact Or.inl ⟨ha.1, ha.2, (Option.some.inj h).symm⟩
  · exact Or.inr h

theorem of_insert3 {m : α → β → γ → Option δ} {a a' : α} {b b' : β} {c c' : γ} {v x : δ}
    (h : insert3 m a b c v a' b' c' = some x) :
    (a' = a ∧ b' = b ∧ c' = c ∧ x = v) ∨ m a' b' c' = some x := by
  rw [insert3_apply] at h
  split_ifs at h with ha
  · exact Or.inl ⟨ha.1, ha.2.1, ha.2.2, (Option.some.inj h).symm⟩
  · exact Or.inr h

end Table
