import DeclarativeLocalSearch.Generators.TreeInstGenerator
import DeclarativeLocalSearch.Generators.UnionGenerator
import DeclarativeLocalSearch.Generators.SortGenAndChecker

namespace Generators

open Set

section Combinations

variable {V D : Type} {R₁ W₁ T₁ R₂ W₂ T₂ : Set V} {generator : InstGenerator V D}
  {S₁ : (V → D) → Set (W₁ → D)} {S₂ : (V → D) → Set (W₂ → D)}

theorem treeGenerator_enumerates {B : Branches V D} {L : (V → D) → List (W₂ → D)}
    {Below : List (W₂ → D) → B.State → (V → D) → Prop} (hG : Enumerates generator R₁ W₁ T₁ S₁)
    (hB : B.Lists R₂ W₂ T₂ L Below) (hL : ∀ v, (L v).Nodup ∧ ∀ y, y ∈ L v ↔ y ∈ S₂ v)
    (hd : Disjoint (R₁ ∪ W₁ ∪ T₁) (W₂ ∪ T₂)) (hT : Disjoint R₂ T₁) :
    Enumerates (treeGenerator generator B) (R₁ ∪ R₂ \ W₁) (W₁ ∪ W₂) (T₁ ∪ T₂) (Product S₁ S₂) := by
  obtain ⟨L₁, hL₁, hS₁⟩ := hG
  have hW : Disjoint W₁ W₂ := hd.mono (by grind) subset_union_left
  refine ⟨_, treeGenerator_lists hL₁ hB hd hT, fun v => ⟨?_, fun z => ?_⟩⟩
  · exact pairs_nodup hW (hS₁ v).1 fun v => (hL v).1
  · rw [mem_pairs hW, (hS₁ v).2, (hL _).2]
    exact Iff.rfl

variable {Rₖ Tₖ : Set V} {child child' : InstGenerator V D} {checker : InstChecker V D} {P : (V → D) → Prop}
  {S₂' : (V → D) → Set (W₂ → D)}

theorem oneChildGenerator_enumerates (hG : Enumerates generator R₁ W₁ T₁ S₁) (hC : Enumerates child R₂ W₂ T₂ S₂)
    (hd : Disjoint (R₁ ∪ W₁ ∪ T₁) (W₂ ∪ T₂)) (hT : Disjoint R₂ T₁) :
    Enumerates (OneChildGenerator generator child) (R₁ ∪ R₂ \ W₁) (W₁ ∪ W₂) (T₁ ∪ T₂) (Product S₁ S₂) := by
  obtain ⟨L, hL, hS⟩ := hC
  exact treeGenerator_enumerates hG (onlyChild_lists hL) hS hd hT

theorem twoChildGenerator_enumerates (hG : Enumerates generator R₁ W₁ T₁ S₁) (hK : Checks checker Rₖ Tₖ P)
    (hC : Enumerates child R₂ W₂ T₂ S₂) (hC' : Enumerates child' R₂ W₂ T₂ S₂')
    (hd : Disjoint (R₁ ∪ W₁ ∪ T₁) (W₂ ∪ (Tₖ ∪ T₂))) (hT : Disjoint (Rₖ ∪ R₂) T₁)
    (hRₖ : Disjoint Rₖ (W₂ ∪ (Tₖ ∪ T₂))) (hTₖ : Disjoint (R₂ ∪ W₂ ∪ T₂) Tₖ) :
    Enumerates (TwoChildGenerator checker generator child child') (R₁ ∪ (Rₖ ∪ R₂) \ W₁) (W₁ ∪ W₂) (T₁ ∪ (Tₖ ∪ T₂))
      (Product S₁ fun v => {y | P v ∧ y ∈ S₂' v ∨ ¬P v ∧ y ∈ S₂ v}) := by
  obtain ⟨L, hL, hS⟩ := hC
  obtain ⟨L', hL', hS'⟩ := hC'
  refine treeGenerator_enumerates hG (checkedChild_lists hK hL hL' hRₖ hTₖ) (fun v => ?_) hd hT
  by_cases h : P v
  · simpa only [h, if_true, true_and, not_true_eq_false, false_and, or_false, mem_ofPred_eq] using hS' v
  · simpa only [h, if_false, true_and, not_false_eq_true, false_and, false_or, mem_ofPred_eq] using hS v

theorem unionGenerator_enumerates {m : ℕ} {generators : Fin m → InstGenerator V D}
    {checkers : Fin m → InstChecker V D} {R W T : Set V} {S : Fin m → (V → D) → Set (W → D)}
    (hG : ∀ i, Enumerates (generators i) R W T (S i))
    (hK : ∀ i, Checks (checkers i) (R ∪ W) Tₖ fun v => W.domRestrict v ∈ S i v)
    (hd : Disjoint R (W ∪ (Tₖ ∪ T))) (hT : Disjoint (R ∪ W ∪ T) Tₖ) :
    Enumerates (UnionGenerator generators checkers) R W (Tₖ ∪ T) fun v => ⋃ i, S i v := by
  choose L hL hS using hG
  have hK' : ∀ i, Checks (checkers i) (R ∪ W) Tₖ fun v => W.domRestrict v ∈ L i v := by
    intro i
    simpa only [(hS i _).2] using hK i
  have hwrite : ∀ i x v, L i (write W x v) = L i v := fun i x v =>
    (hL i).input _ _ (off eqOn_write (hd.mono_right subset_union_left))
  refine ⟨_, unionGenerator_lists hd hL hK' hT, fun v => ⟨unseen_nodup hwrite fun i => (hS i v).1, fun x => ?_⟩⟩
  rw [mem_unseen hwrite, mem_iUnion]
  exact exists_congr fun i => (hS i v).2 x

-- No component writes what another one is still to read: the variables that the parts of a tree write differ, and a
-- checker writes at most variables of its own.
theorem combinations_enumerate {m : ℕ} {generators : Fin m → InstGenerator V D} {checkers : Fin m → InstChecker V D}
    {R W T Tᵤ : Set V} {S : Fin m → (V → D) → Set (W → D)} (hgenerator : Enumerates generator R₁ W₁ T₁ S₁)
    (hchecker : Checks checker Rₖ Tₖ P) (hchild : Enumerates child R₂ W₂ T₂ S₂)
    (hchild' : Enumerates child' R₂ W₂ T₂ S₂') (hgenerators : ∀ i, Enumerates (generators i) R W T (S i))
    (hcheckers : ∀ i, Checks (checkers i) (R ∪ W) Tᵤ fun v => W.domRestrict v ∈ S i v)
    (h₁ : Disjoint (R₁ ∪ W₁ ∪ T₁) (W₂ ∪ (Tₖ ∪ T₂))) (hT₁ : Disjoint (Rₖ ∪ R₂) T₁)
    (hRₖ : Disjoint Rₖ (W₂ ∪ (Tₖ ∪ T₂))) (hTₖ : Disjoint (R₂ ∪ W₂ ∪ T₂) Tₖ) (hR : Disjoint R (W ∪ (Tᵤ ∪ T)))
    (hTᵤ : Disjoint (R ∪ W ∪ T) Tᵤ) :
    Enumerates (OneChildGenerator generator child) (R₁ ∪ R₂ \ W₁) (W₁ ∪ W₂) (T₁ ∪ T₂) (Product S₁ S₂) ∧
    Enumerates (TwoChildGenerator checker generator child child') (R₁ ∪ (Rₖ ∪ R₂) \ W₁) (W₁ ∪ W₂)
      (T₁ ∪ (Tₖ ∪ T₂)) (Product S₁ fun v => {y | P v ∧ y ∈ S₂' v ∨ ¬P v ∧ y ∈ S₂ v}) ∧
    Enumerates (UnionGenerator generators checkers) R W (Tᵤ ∪ T) fun v => ⋃ i, S i v := by
  refine ⟨?_, ?_, unionGenerator_enumerates hgenerators hcheckers hR hTᵤ⟩
  · have hd : Disjoint (R₁ ∪ W₁ ∪ T₁) (W₂ ∪ T₂) := h₁.mono_right (by grind)
    exact oneChildGenerator_enumerates hgenerator hchild hd (hT₁.mono_left subset_union_right)
  · exact twoChildGenerator_enumerates hgenerator hchecker hchild hchild' h₁ hT₁ hRₖ hTₖ

-- the values 1 and 2, with 2 and 3 below 1 and 0 below the others, and their union with 2 and 3
theorem combinations_sorts :
    Enumerates (OneChildGenerator (SortGenerator (enumeratedTable [1, 2]) false)
      (SortGenerator (enumeratedTable [0]) true)) (∅ ∪ ∅ \ {false}) ({false} ∪ {true}) (∅ ∪ ∅)
      (Product (fun _ => {x | x ⟨false, rfl⟩ ∈ [1, 2]}) fun _ => {y | y ⟨true, rfl⟩ ∈ [0]}) ∧
    Enumerates (TwoChildGenerator (SortChecker (enumeratedTable [1]) false).checker
      (SortGenerator (enumeratedTable [1, 2]) false) (SortGenerator (enumeratedTable [0]) true)
      (SortGenerator (enumeratedTable [2, 3]) true)) (∅ ∪ ({false} ∪ ∅) \ {false}) ({false} ∪ {true}) (∅ ∪ (∅ ∪ ∅))
      (Product (fun _ => {x | x ⟨false, rfl⟩ ∈ [1, 2]}) fun v =>
        {y | (enumeratedTable [1]).contains (v false) = true ∧ y ∈ {y | y ⟨true, rfl⟩ ∈ [2, 3]} ∨
          ¬(enumeratedTable [1]).contains (v false) = true ∧ y ∈ {y | y ⟨true, rfl⟩ ∈ [0]}}) ∧
    Enumerates (UnionGenerator (fun i : Fin 2 => SortGenerator (enumeratedTable [i.1 + 1, i.1 + 2]) false)
      fun i => (SortChecker (enumeratedTable [i.1 + 1, i.1 + 2]) false).checker) ∅ {false} (∅ ∪ ∅)
      fun _ => ⋃ i : Fin 2, {x | x ⟨false, rfl⟩ ∈ [i.1 + 1, i.1 + 2]} := by
  refine combinations_enumerate (sortGenerator_enumerates (fun _ => rfl) (by decide)) (sortChecker_checks _ _)
    (sortGenerator_enumerates (fun _ => rfl) (by decide)) (sortGenerator_enumerates (fun _ => rfl) (by decide))
    (fun i => sortGenerator_enumerates (fun _ => rfl) (by simp)) (fun i => ?_) ?_ ?_ ?_ ?_ ?_ ?_
  · rw [empty_union]
    simpa [enumeratedTable] using sortChecker_checks (enumeratedTable [i.1 + 1, i.1 + 2]) false
  all_goals simp

end Combinations

end Generators
