import DeclarativeLocalSearch.FoBdd.Manager

namespace FoBdd

open DecisionDiagram

variable {A S : Type}

-- the truth of a kernel: w decides all but the two constant ones
def truth (w : ℕ → Prop) (k : ℕ) : Prop :=
  if k = truekernel then True else if k = falsekernel then False else w k

namespace FOBDDManager

def lt (s : FOBDDManager A S) (k k' : ℕ) : Prop :=
  ∃ o o', s.order k = some o ∧ s.order k' = some o' ∧ o.less o' = true

instance (s : FOBDDManager A S) : IsStrictOrder ℕ s.lt where
  irrefl k := by
    rintro ⟨o, o', h, h', hlt⟩
    rw [h] at h'
    cases h'
    exact o.less_irrefl hlt
  trans k k' k'' := by
    rintro ⟨o, o', h, h', hlt⟩ ⟨o1, o'', h1, h'', hlt'⟩
    rw [h'] at h1
    cases h1
    exact ⟨o, o'', h, h'', KernelOrder.less_trans hlt hlt'⟩

theorem lt_wf (s : FOBDDManager A S) : WellFounded fun k k' => s.lt k' k := by
  refine Subrelation.wf ?_ (InvImage.wf (fun k => (s.order k).getD ⟨.trueFalse, 0⟩)
    KernelOrder.below_wf)
  rintro k k' ⟨o, o', h, h', hlt⟩
  simp only [InvImage, h, h', Option.getD_some]
  exact hlt

-- what holds of every manager that no kernel was moved in, and of the others as far as the order
-- has not been broken
structure Sorted (s : FOBDDManager A S) : Prop where
  ordered : ∀ b k hi lo, s.bdd b = some (.branch k hi lo) →
    Above s.lt s.bdd k hi ∧ Above s.lt s.bdd k lo
  reduced : ∀ b k hi lo, s.bdd b = some (.branch k hi lo) → hi ≠ lo
  hashed : ∀ b k hi lo, s.bdd b = some (.branch k hi lo) → s.bddtable k lo hi = some b

structure Inv (c : Prop) (s : FOBDDManager A S) : Prop where
  leafTrue : s.bdd truebdd = some (.leaf true)
  leafFalse : s.bdd falsebdd = some (.leaf false)
  leaves : ∀ b v, s.bdd b = some (.leaf v) → b = if v then truebdd else falsebdd
  closed : Closed s.bdd
  acyclic : Acyclic s.bdd
  freshbdd : ∀ b, s.nextbdd ≤ b → s.bdd b = none
  freshkernel : ∀ k, s.nextkernel ≤ k → s.order k = none ∧ s.content k = none
  constants : s.order truekernel = some ⟨.trueFalse, 0⟩ ∧ s.order falsekernel = some ⟨.trueFalse, 1⟩
  constant : ∀ k o, s.order k = some o → o.category = .trueFalse → k = truekernel ∨ k = falsekernel
  labelled : ∀ b k hi lo, s.bdd b = some (.branch k hi lo) →
    ∃ o, s.order k = some o ∧ o.category ≠ .trueFalse
  injective : ∀ k k' o, s.order k = some o → s.order k' = some o → k = k'
  kernels : ∀ cat n k, s.kernels cat n = some k ↔ s.order k = some ⟨cat, n⟩ ∧ cat ≠ .trueFalse
  numbers : ∀ k o, s.order k = some o → o.number < s.nextorder o.category
  quants : ∀ k sort b, s.content k = some (.quant sort b) → s.bdd b ≠ none
  atoms : ∀ k terms sets, s.content k = some (.atom terms sets) → ∀ b ∈ sets, s.bdd b ≠ none
  aggs : ∀ k left right sets, s.content k = some (.agg left right sets) →
    ∀ b ∈ sets, s.bdd b ≠ none
  kerneltable : ∀ x k, s.kerneltable x = some k → s.content k = some x ∧ s.order k ≠ none
  bddtable : ∀ k f t b, s.bddtable k f t = some b → s.bdd b = some (.branch k t f)
  negations : ∀ b r, s.negationtable b = some r → s.bdd b ≠ none ∧ s.bdd r ≠ none ∧
    ∀ w, Holds s.bdd w r ↔ ¬ Holds s.bdd w b
  conjunctions : ∀ b b' r, s.conjunctiontable b b' = some r → s.bdd b ≠ none ∧ s.bdd b' ≠ none ∧
    s.bdd r ≠ none ∧ ∀ w, Holds s.bdd w r ↔ Holds s.bdd w b ∧ Holds s.bdd w b'
  disjunctions : ∀ b b' r, s.disjunctiontable b b' = some r → s.bdd b ≠ none ∧ s.bdd b' ≠ none ∧
    s.bdd r ≠ none ∧ ∀ w, Holds s.bdd w r ↔ Holds s.bdd w b ∨ Holds s.bdd w b'
  ifthenelses : ∀ k t f r, s.ifthenelsetable k t f = some r → s.bdd t ≠ none ∧ s.bdd f ≠ none ∧
    s.bdd r ≠ none ∧ ∀ w, Holds s.bdd w r ↔ Choice (truth w k) (Holds s.bdd w t) (Holds s.bdd w f)
  quantifieds : ∀ sort b r, s.quanttable sort b = some r → s.bdd b ≠ none ∧ s.bdd r ≠ none
  sorted : c → s.Sorted

structure Extends (s s' : FOBDDManager A S) : Prop where
  bdd : ∀ b n, s.bdd b = some n → s'.bdd b = some n
  order : ∀ k o, s.order k = some o → s'.order k = some o
  content : ∀ k x, s.content k = some x → s'.content k = some x

theorem Extends.refl (s : FOBDDManager A S) : Extends s s :=
  ⟨fun _ _ h => h, fun _ _ h => h, fun _ _ h => h⟩

theorem Extends.trans {s s' s'' : FOBDDManager A S} (h : Extends s s') (h' : Extends s' s'') :
    Extends s s'' :=
  ⟨fun b n hb => h'.bdd b n (h.bdd b n hb), fun k o hk => h'.order k o (h.order k o hk),
    fun k x hk => h'.content k x (h.content k x hk)⟩

theorem Extends.valid {s s' : FOBDDManager A S} (h : Extends s s') {b : ℕ}
    (hb : s.bdd b ≠ none) : s'.bdd b ≠ none := by
  obtain ⟨n, hn⟩ := Option.ne_none_iff_exists'.mp hb
  rw [h.bdd b n hn]
  exact Option.some_ne_none n

theorem Extends.holds {c : Prop} {s s' : FOBDDManager A S} (h : Extends s s') (hi : Inv c s)
    {b : ℕ} (hb : s.bdd b ≠ none) (w : ℕ → Prop) : Holds s'.bdd w b ↔ Holds s.bdd w b :=
  holds_of_extends hi.closed h.bdd hb

theorem Extends.lt {s s' : FOBDDManager A S} (h : Extends s s') {k k' : ℕ} (hk : s.lt k k') :
    s'.lt k k' := by
  obtain ⟨o, o', ho, ho', hlt⟩ := hk
  exact ⟨o, o', h.order k o ho, h.order k' o' ho', hlt⟩

theorem Extends.above {s s' : FOBDDManager A S} (h : Extends s s') {k b : ℕ}
    (hb : s.bdd b ≠ none) (hk : Above s.lt s.bdd k b) : Above s'.lt s'.bdd k b := by
  obtain ⟨n, hn⟩ := Option.ne_none_iff_exists'.mp hb
  intro k' hi lo h'
  rw [h.bdd b n hn] at h'
  exact h.lt (hk k' hi lo (hn.trans h'))

theorem Inv.canonical {s : FOBDDManager A S} {c : Prop} (h : Inv c s) (hc : c) :
    Canonical s.lt s.bdd where
  closed := h.closed
  ordered := (h.sorted hc).ordered
  reduced := (h.sorted hc).reduced
  unique b b' n hb hb' := by
    cases n with
    | leaf v => rw [h.leaves b v hb, h.leaves b' v hb']
    | branch k hi lo =>
      have := (h.sorted hc).hashed b k hi lo hb
      rw [(h.sorted hc).hashed b' k hi lo hb'] at this
      exact (Option.some.inj this).symm
  total b b' k k' hi hi' lo lo' hb hb' := by
    obtain ⟨o, ho, -⟩ := h.labelled b k hi lo hb
    obtain ⟨o', ho', -⟩ := h.labelled b' k' hi' lo' hb'
    rcases o.less_trichotomous o' with hlt | rfl | hlt
    · exact Or.inl ⟨o, o', ho, ho', hlt⟩
    · exact Or.inr (Or.inl (h.injective k k' o ho ho'))
    · exact Or.inr (Or.inr ⟨o', o, ho', ho, hlt⟩)

theorem Inv.weaken {s : FOBDDManager A S} {c c' : Prop} (h : Inv c s) (hc : c' → c) : Inv c' s :=
  { h with sorted := fun h' => h.sorted (hc h') }

theorem Inv.truth_iff {s : FOBDDManager A S} {c : Prop} (h : Inv c s) {b k hi lo : ℕ}
    (hb : s.bdd b = some (.branch k hi lo)) (w : ℕ → Prop) : truth w k ↔ w k := by
  obtain ⟨o, ho, hcat⟩ := h.labelled b k hi lo hb
  have h1 : k ≠ truekernel := by
    rintro rfl
    rw [h.constants.1] at ho
    cases ho
    exact hcat rfl
  have h2 : k ≠ falsekernel := by
    rintro rfl
    rw [h.constants.2] at ho
    cases ho
    exact hcat rfl
  simp [truth, h1, h2]

-- an operation has returned r in the state s', and r means P
structure Returns (c : Prop) (s s' : FOBDDManager A S) (r : ℕ) (P : (ℕ → Prop) → Prop) : Prop where
  inv : Inv c s'
  ext : Extends s s'
  valid : s'.bdd r ≠ none
  holds : ∀ w, Holds s'.bdd w r ↔ P w

end FOBDDManager

end FoBdd

namespace FoBdd

open DecisionDiagram

-- what the terms and the sorts stand for, in an environment for the variables and the indices
structure Interpretation (A S : Type) where
  Env : Type
  atom : A → List (Env → Prop) → Env → Prop
  agg : A → A → List (Env → Prop) → Env → Prop
  quant : S → (Env → Prop) → Env → Prop

namespace Interpretation

variable {A S : Type} (I : Interpretation A S)

def content (bdd : ℕ → I.Env → Prop) : KernelContent A S → I.Env → Prop
  | .trueKernel, _ => True
  | .falseKernel, _ => False
  | .atom terms sets, e => I.atom terms (sets.map bdd) e
  | .quant sort b, e => I.quant sort (bdd b) e
  | .agg left right sets, e => I.agg left right (sets.map bdd) e

-- the meaning of a diagram, once that of the kernels is known
def meaning (s : FOBDDManager A S) (v : ℕ → I.Env → Prop) (b : ℕ) (e : I.Env) : Prop :=
  Holds s.bdd (fun k => v k e) b

def Coherent (s : FOBDDManager A S) (v : ℕ → I.Env → Prop) : Prop :=
  ∀ k x, s.content k = some x → v k = I.content (I.meaning s v) x

theorem content_congr {den den' : ℕ → I.Env → Prop} {x : KernelContent A S}
    (h : ∀ b ∈ x.bdds, den b = den' b) : I.content den x = I.content den' x := by
  funext e
  cases x with
  | trueKernel => rfl
  | falseKernel => rfl
  | atom terms sets =>
    have hmap : sets.map den = sets.map den' := List.map_congr_left h
    rw [content, content, hmap]
  | quant sort b => rw [content, content, h b (List.mem_singleton.mpr rfl)]
  | agg left right sets =>
    have hmap : sets.map den = sets.map den' := List.map_congr_left h
    rw [content, content, hmap]

end Interpretation

end FoBdd
