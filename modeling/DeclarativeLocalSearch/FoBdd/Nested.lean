import DeclarativeLocalSearch.FoBdd.MakeMore
import DeclarativeLocalSearch.FoBdd.Terminates

namespace FoBdd

open DecisionDiagram

variable {V A S P : Type}

namespace FOBDDManager

open Op

variable {s s' : FOBDDManager A S} {c : Prop}

section Nested

-- a diagram whose kernels are older than k
inductive Older (s : FOBDDManager A S) (k : ℕ) : ℕ → Prop
  | leaf {b : ℕ} {v : Bool} (hb : s.bdd b = some (.leaf v)) : Older s k b
  | branch {b k' t f : ℕ} (hb : s.bdd b = some (.branch k' t f)) (hk : k' < k) (ht : Older s k t)
      (hf : Older s k f) : Older s k b

-- a kernel is about diagrams of older kernels
structure Nested (s : FOBDDManager A S) : Prop where
  content : ∀ k, s.order k ≠ none → s.content k ≠ none
  older : ∀ k x, s.content k = some x → ∀ b ∈ x.bdds, Older s k b

theorem Older.of_extends {k b : ℕ} (h : Older s k b) (he : Extends s s') : Older s' k b := by
  induction h with
  | leaf hb => exact .leaf (he.bdd _ _ hb)
  | branch hb hk _ _ iht ihf => exact .branch (he.bdd _ _ hb) hk iht ihf

theorem Inv.older_next (h : Inv c s) {b : ℕ} (hb : s.bdd b ≠ none) : Older s s.nextkernel b := by
  have hwf : WellFounded (Child s.bdd) := h.acyclic
  induction b using hwf.induction with
  | _ b ih =>
    obtain ⟨n, hn⟩ := Option.ne_none_iff_exists'.mp hb
    cases n with
    | leaf v => exact .leaf hn
    | branch k t f =>
      obtain ⟨ht, hf, hk⟩ := h.children hn
      refine .branch hn ?_ (ih t (child_high hn) ht) (ih f (child_low hn) hf)
      by_contra hge
      exact hk (h.freshkernel k (Nat.le_of_not_lt hge)).1

theorem Nested.of_content (h : Nested s) (he : Extends s s') (ho : s'.order = s.order)
    (hc : s'.content = s.content) : Nested s' where
  content k hk := by
    rw [hc]
    exact h.content k (ho ▸ hk)
  older k x hx b hb := (h.older k x (hc ▸ hx) b hb).of_extends he

theorem Nested.branch (h : Nested s) (hs : Inv c s) {b k t f : ℕ} (hb : s.bdd b = some (.branch k t f)) :
    ∃ x, s.content k = some x :=
  Option.ne_none_iff_exists'.mp (h.content k (hs.children hb).2.2)

end Nested

section Occurs

variable [DecidableEq P] (symbols : A → Finset P)

def contentSymbols : KernelContent A S → Finset P
  | .atom terms _ => symbols terms
  | .agg left right _ => symbols left ∪ symbols right
  | _ => ∅

-- a symbol in the kernels of a diagram, or in those of the diagrams that its kernels are about
inductive Occurs (s : FOBDDManager A S) (p : P) : ℕ → Prop
  | kernel {b k t f : ℕ} {x : KernelContent A S} (hb : s.bdd b = some (.branch k t f))
      (hx : s.content k = some x) (hp : p ∈ contentSymbols symbols x) : Occurs s p b
  | nested {b k t f b' : ℕ} {x : KernelContent A S} (hb : s.bdd b = some (.branch k t f))
      (hx : s.content k = some x) (hb' : b' ∈ x.bdds) (h : Occurs s p b') : Occurs s p b
  | high {b k t f : ℕ} (hb : s.bdd b = some (.branch k t f)) (h : Occurs s p t) : Occurs s p b
  | low {b k t f : ℕ} (hb : s.bdd b = some (.branch k t f)) (h : Occurs s p f) : Occurs s p b

def OccursIn (s : FOBDDManager A S) (p : P) (x : KernelContent A S) : Prop :=
  p ∈ contentSymbols symbols x ∨ ∃ b ∈ x.bdds, Occurs symbols s p b

variable {symbols} {p : P}

theorem not_occurs_leaf {b : ℕ} {v : Bool} (hb : s.bdd b = some (.leaf v)) : ¬ Occurs symbols s p b := by
  intro h
  cases h with
  | kernel hb' => rw [hb] at hb'; cases hb'
  | nested hb' => rw [hb] at hb'; cases hb'
  | high hb' => rw [hb] at hb'; cases hb'
  | low hb' => rw [hb] at hb'; cases hb'

theorem occurs_branch {b k t f : ℕ} {x : KernelContent A S} (hb : s.bdd b = some (.branch k t f))
    (hx : s.content k = some x) :
    Occurs symbols s p b ↔ OccursIn symbols s p x ∨ Occurs symbols s p t ∨ Occurs symbols s p f := by
  constructor
  · intro h
    cases h with
    | kernel hb' hx' hp =>
      rw [hb] at hb'
      cases hb'
      rw [hx] at hx'
      cases hx'
      exact Or.inl (Or.inl hp)
    | nested hb' hx' hin h =>
      rw [hb] at hb'
      cases hb'
      rw [hx] at hx'
      cases hx'
      exact Or.inl (Or.inr ⟨_, hin, h⟩)
    | high hb' h =>
      rw [hb] at hb'
      cases hb'
      exact Or.inr (Or.inl h)
    | low hb' h =>
      rw [hb] at hb'
      cases hb'
      exact Or.inr (Or.inr h)
  · rintro ((hp | ⟨b', hb', h⟩) | h | h)
    · exact .kernel hb hx hp
    · exact .nested hb hx hb' h
    · exact .high hb h
    · exact .low hb h

theorem Nested.occurs_of_extends (hn : Nested s) (hs : Inv c s) (he : Extends s s') {b : ℕ}
    (h : Occurs symbols s' p b) (hb : s.bdd b ≠ none) : Occurs symbols s p b := by
  have hold : ∀ {b k t f}, s'.bdd b = some (.branch k t f) → s.bdd b ≠ none →
      s.bdd b = some (.branch k t f) := by
    intro b k t f hb' hv
    obtain ⟨n, hn⟩ := Option.ne_none_iff_exists'.mp hv
    rw [he.bdd b n hn] at hb'
    rw [hn, hb']
  induction h with
  | kernel hb' hx hp =>
    have hb' := hold hb' hb
    obtain ⟨y, hy⟩ := hn.branch hs hb'
    rw [he.content _ y hy] at hx
    cases hx
    exact .kernel hb' hy hp
  | nested hb' hx hin _ ih =>
    have hb' := hold hb' hb
    obtain ⟨y, hy⟩ := hn.branch hs hb'
    rw [he.content _ y hy] at hx
    cases hx
    exact .nested hb' hy hin (ih (hs.content_valid hy _ hin))
  | high hb' _ ih =>
    have hb' := hold hb' hb
    exact .high hb' (ih (hs.children hb').1)
  | low hb' _ ih =>
    have hb' := hold hb' hb
    exact .low hb' (ih (hs.children hb').2.1)

end Occurs

section Collector

variable [DecidableEq P] {symbols : A → Finset P}

-- a visit with enough fuel finds the symbols that occur, in every manager that extends the one at hand
def Finds (symbols : A → Finset P) (s : FOBDDManager A S) (rec : ℕ → Op A S (Finset P)) (b : ℕ) : Prop :=
  ∀ s', Extends s s' → Succeeds (rec b) s' fun X s'' => s' = s'' ∧ ∀ p, p ∈ X ↔ Occurs symbols s' p b

def FindsContent (symbols : A → Finset P) (s : FOBDDManager A S) (rec : ℕ → Op A S (Finset P))
    (x : KernelContent A S) : Prop :=
  ∀ s', Extends s s' → Succeeds (visitKernel symbols rec x) s' fun X s'' => s' = s'' ∧
    ∀ p, p ∈ X ↔ OccursIn symbols s' p x

theorem visitSets_visits {rec : ℕ → Op A S (Finset P)} {sets : List ℕ}
    (h : ∀ b ∈ sets, Finds symbols s rec b) (he : Extends s s') :
    Succeeds (visitSets rec sets) s' fun X s'' => s' = s'' ∧
      ∀ p, p ∈ X ↔ ∃ b ∈ sets, Occurs symbols s' p b := by
  induction sets with
  | nil => exact Succeeds.pure ⟨rfl, fun p => by simp⟩
  | cons b sets ih =>
    refine Succeeds.bind ((h b List.mem_cons_self s' he).mono ?_)
    rintro X _ ⟨rfl, hX⟩
    refine Succeeds.bind ((ih fun b' hb' => h b' (List.mem_cons_of_mem b hb')).mono ?_)
    rintro Y _ ⟨rfl, hY⟩
    exact Succeeds.pure ⟨rfl, fun p => by
      rw [Finset.mem_union, hX, hY, List.exists_mem_cons_iff]⟩

theorem visitKernel_visits {rec : ℕ → Op A S (Finset P)} {x : KernelContent A S}
    (h : ∀ b ∈ x.bdds, Finds symbols s rec b) : FindsContent symbols s rec x := by
  intro s' he
  cases x with
  | trueKernel => exact Succeeds.pure ⟨rfl, fun p => by simp [OccursIn, contentSymbols, KernelContent.bdds]⟩
  | falseKernel => exact Succeeds.pure ⟨rfl, fun p => by simp [OccursIn, contentSymbols, KernelContent.bdds]⟩
  | atom terms sets =>
    refine Succeeds.bind ((visitSets_visits h he).mono ?_)
    rintro X _ ⟨rfl, hX⟩
    exact Succeeds.pure ⟨rfl, fun p => by
      rw [Finset.mem_union, hX, OccursIn, contentSymbols, KernelContent.bdds]⟩
  | quant sort b =>
    refine (h b (List.mem_singleton.mpr rfl) s' he).mono ?_
    rintro X _ ⟨rfl, hX⟩
    exact ⟨rfl, fun p => by simp [OccursIn, contentSymbols, KernelContent.bdds, hX]⟩
  | agg left right sets =>
    refine Succeeds.bind ((visitSets_visits h he).mono ?_)
    rintro X _ ⟨rfl, hX⟩
    exact Succeeds.pure ⟨rfl, fun p => by
      rw [Finset.mem_union, hX, OccursIn, contentSymbols, KernelContent.bdds]⟩

theorem visitBDD_leaf (hs : Inv c s) {b : ℕ} (hb : b = truebdd ∨ b = falsebdd) (n : ℕ) :
    Finds symbols s (visitBDD symbols (n + 1)) b := by
  intro s' he
  have hleaf : ∃ v, s'.bdd b = some (.leaf v) := by
    rcases hb with rfl | rfl
    · exact ⟨true, he.bdd _ _ hs.leafTrue⟩
    · exact ⟨false, he.bdd _ _ hs.leafFalse⟩
  obtain ⟨v, hv⟩ := hleaf
  rw [visitBDD, if_pos hb]
  exact Succeeds.pure ⟨rfl, fun p => iff_of_false (Finset.notMem_empty p) (not_occurs_leaf hv)⟩

theorem visitBDD_branch (hs : Inv c s) {b k t f n : ℕ} {x : KernelContent A S}
    (hb : s.bdd b = some (.branch k t f)) (hx : s.content k = some x)
    (hkernel : FindsContent symbols s (visitBDD symbols n) x) (ht : Finds symbols s (visitBDD symbols n) t)
    (hf : Finds symbols s (visitBDD symbols n) f) : Finds symbols s (visitBDD symbols (n + 1)) b := by
  intro s' he
  have hne : ¬ (b = truebdd ∨ b = falsebdd) := by
    rintro (rfl | rfl)
    · rw [hs.leafTrue] at hb
      cases hb
    · rw [hs.leafFalse] at hb
      cases hb
  have hb' := he.bdd b _ hb
  have hx' := he.content k x hx
  rw [visitBDD, if_neg hne]
  refine Succeeds.bind ((kernelOf_succeeds hb').mono ?_)
  rintro _ _ ⟨rfl, rfl⟩
  refine Succeeds.bind ((getContent_succeeds hx').mono ?_)
  rintro _ _ ⟨rfl, rfl⟩
  refine Succeeds.bind ((hkernel _ he).mono ?_)
  rintro X _ ⟨rfl, hX⟩
  refine Succeeds.bind ((truebranch_succeeds hb').mono ?_)
  rintro _ _ ⟨rfl, rfl⟩
  refine Succeeds.bind ((ht _ he).mono ?_)
  rintro Y _ ⟨rfl, hY⟩
  refine Succeeds.bind ((falsebranch_succeeds hb').mono ?_)
  rintro _ _ ⟨rfl, rfl⟩
  refine Succeeds.bind ((hf _ he).mono ?_)
  rintro Z _ ⟨rfl, hZ⟩
  exact Succeeds.pure ⟨rfl, fun p => by
    rw [Finset.mem_union, Finset.mem_union, hX, hY, hZ, occurs_branch hb' hx', or_assoc]⟩

-- enough fuel for one is enough for all of finitely many
theorem exists_forall_of_forall_exists {ι : Type} {l : List ι} {p : ι → ℕ → Prop}
    (h : ∀ i ∈ l, ∃ N, ∀ n, N ≤ n → p i n) : ∃ N, ∀ n, N ≤ n → ∀ i ∈ l, p i n := by
  induction l with
  | nil => exact ⟨0, fun n _ i hi => absurd hi List.not_mem_nil⟩
  | cons j l ih =>
    obtain ⟨N, hN⟩ := h j List.mem_cons_self
    obtain ⟨M, hM⟩ := ih fun i hi => h i (List.mem_cons_of_mem j hi)
    refine ⟨max N M, fun n hn i hi => ?_⟩
    rcases List.mem_cons.mp hi with rfl | hi
    · exact hN n (le_of_max_le_left hn)
    · exact hM n (le_of_max_le_right hn) i hi

-- by induction on the age of the kernel, and for the diagrams it is about on their branches
theorem Nested.visits_content (hn : Nested s) (hs : Inv c s) (k : ℕ) {x : KernelContent A S}
    (hx : s.content k = some x) :
    ∃ N, ∀ n, N ≤ n → FindsContent symbols s (visitBDD symbols n) x := by
  induction k using Nat.strong_induction_on generalizing x with
  | _ k ih =>
    have hbdd : ∀ {b}, Older s k b → ∃ N, ∀ n, N ≤ n → Finds symbols s (visitBDD symbols n) b := by
      intro b hb
      induction hb with
      | @leaf b v hb =>
        refine ⟨1, fun n hn => ?_⟩
        obtain ⟨m, rfl⟩ := Nat.exists_eq_add_of_le' hn
        refine visitBDD_leaf hs ?_ m
        have := hs.leaves b v hb
        cases v
        · exact Or.inr this
        · exact Or.inl this
      | branch hb hk _ _ iht ihf =>
        obtain ⟨y, hy⟩ := hn.branch hs hb
        obtain ⟨N1, h1⟩ := ih _ hk hy
        obtain ⟨N2, h2⟩ := iht
        obtain ⟨N3, h3⟩ := ihf
        refine ⟨max N1 (max N2 N3) + 1, fun n hn => ?_⟩
        obtain ⟨m, rfl⟩ := Nat.exists_eq_add_of_le' (Nat.le_of_add_left_le hn)
        have hm : max N1 (max N2 N3) ≤ m := Nat.le_of_add_le_add_right hn
        exact visitBDD_branch hs hb hy (h1 m (by omega)) (h2 m (by omega)) (h3 m (by omega))
    obtain ⟨N, hN⟩ := exists_forall_of_forall_exists fun b hb => hbdd (hn.older k x hx b hb)
    exact ⟨N, fun n hle => visitKernel_visits (hN n hle)⟩

-- what collectSymbols finds in the kernel
def Collects (symbols : A → Finset P) (s : FOBDDManager A S) (n k : ℕ) : Prop :=
  ∀ x, s.content k = some x → ∀ s', Extends s s' →
    Succeeds (collectSymbols symbols n k) s' fun X s'' => s' = s'' ∧ ∀ p, p ∈ X ↔ OccursIn symbols s' p x

theorem Nested.collects (hn : Nested s) (hs : Inv c s) :
    ∃ N, ∀ n, N ≤ n → ∀ k, s.order k ≠ none → Collects symbols s n k := by
  have hone : ∀ k ∈ List.range s.nextkernel, ∃ N, ∀ n, N ≤ n → Collects symbols s n k := by
    intro k _
    rcases hx : s.content k with _ | x
    · exact ⟨0, fun n _ x hx' => absurd (hx.symm.trans hx') (by simp)⟩
    · obtain ⟨N, hN⟩ : ∃ N, ∀ n, N ≤ n → FindsContent symbols s (visitBDD symbols n) x :=
        hn.visits_content hs k hx
      refine ⟨N, fun n hle y hy s' he => ?_⟩
      rw [hx] at hy
      cases hy
      refine Succeeds.bind ((getContent_succeeds (he.content k x hx)).mono ?_)
      rintro _ _ ⟨rfl, rfl⟩
      exact hN n hle _ he
  obtain ⟨N, hN⟩ := exists_forall_of_forall_exists hone
  refine ⟨N, fun n hle k hk => hN n hle k (List.mem_range.mpr ?_)⟩
  by_contra hge
  exact hk (hs.freshkernel k (Nat.le_of_not_lt hge)).1

end Collector

end FOBDDManager

end FoBdd
