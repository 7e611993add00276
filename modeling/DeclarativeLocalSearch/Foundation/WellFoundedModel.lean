import Mathlib

-- what the rules of a definition derive, from what is true and what is possibly true
structure Approximator (α : Type) where
  derive : Set α → Set α → Set α
  mono : ∀ {X X' Y}, X ⊆ X' → derive X Y ⊆ derive X' Y
  anti : ∀ {X Y Y'}, Y ⊆ Y' → derive X Y' ⊆ derive X Y

namespace Approximator

section WellFoundedModel

variable {α : Type} (A : Approximator α)

def step (Y : Set α) : Set α →o Set α := ⟨fun X => A.derive X Y, fun _ _ h => A.mono h⟩

def stable (Y : Set α) : Set α := OrderHom.lfp (A.step Y)

theorem derive_stable (Y : Set α) : A.derive (A.stable Y) Y = A.stable Y := OrderHom.map_lfp (A.step Y)

theorem stable_subset {T Y : Set α} (h : A.derive T Y ⊆ T) : A.stable Y ⊆ T := OrderHom.lfp_le (A.step Y) h

theorem stable_anti {Y Y' : Set α} (h : Y ⊆ Y') : A.stable Y' ⊆ A.stable Y :=
  A.stable_subset ((A.anti h).trans (A.derive_stable Y).subset)

def twice : Set α →o Set α := ⟨fun Y => A.stable (A.stable Y), fun _ _ h => A.stable_anti (A.stable_anti h)⟩

-- the well-founded model: what is true in it, and what is not false
def certain : Set α := OrderHom.lfp A.twice

def possible : Set α := A.stable A.certain

theorem stable_possible : A.stable A.possible = A.certain := OrderHom.map_lfp A.twice

theorem certain_subset_possible : A.certain ⊆ A.possible := by
  refine OrderHom.lfp_le_fixed A.twice ?_
  change A.stable (A.stable A.possible) = A.possible
  rw [A.stable_possible]
  rfl

theorem derive_certain : A.derive A.certain A.possible = A.certain := by
  have h := A.derive_stable A.possible
  rwa [stable_possible] at h

-- a set that the rules do not leave, whatever is possible, has all that is true
theorem certain_subset {T : Set α} (h : ∀ Y, A.derive T Y ⊆ T) : A.certain ⊆ T := by
  rw [← A.stable_possible]
  exact A.stable_subset (h _)

end WellFoundedModel

section Splitting

variable {α : Type} {A B C : Approximator α} {M X X' Y Y' S S' : Set α}

def Agree (S X X' : Set α) : Prop := X ∩ S = X' ∩ S

theorem agree_iff : Agree S X X' ↔ ∀ x ∈ S, x ∈ X ↔ x ∈ X' := by
  rw [Agree, Set.ext_iff]
  exact forall_congr' fun x => and_congr_left_iff

theorem Agree.symm (h : Agree S X X') : Agree S X' X := Eq.symm h

theorem Agree.trans {X'' : Set α} (h : Agree S X X') (h' : Agree S X' X'') : Agree S X X'' := Eq.trans h h'

theorem Agree.mono (h : Agree S X X') (hS : S' ⊆ S) : Agree S' X X' :=
  agree_iff.mpr fun x hx => agree_iff.mp h x (hS hx)

-- a well-founded model that is two-valued is a fixpoint below what is certain
theorem certain_possible_iff : B.certain = M ∧ B.possible = M ↔ B.stable M = M ∧ M ⊆ B.certain := by
  constructor
  · rintro ⟨hcertain, hpossible⟩
    rw [possible, hcertain] at hpossible
    exact ⟨hpossible, hcertain.ge⟩
  · rintro ⟨hstable, hle⟩
    have hcertain : B.certain = M := by
      refine (OrderHom.lfp_le_fixed (B.twice) ?_).antisymm hle
      change B.stable (B.stable M) = M
      rw [hstable, hstable]
    rw [possible, hcertain]
    exact ⟨rfl, hstable⟩

theorem stable_subset_union (h : ∀ X X', Agree Sᶜ X X' → ∀ x ∈ B.derive X Y, x ∉ S → x ∈ C.derive X' Y') :
    B.stable Y ⊆ C.stable Y' ∪ S := by
  refine B.stable_subset fun x hx => or_iff_not_imp_right.mpr fun hnot => ?_
  rw [← C.derive_stable]
  exact h _ _ (agree_iff.mpr fun y hy => or_iff_left hy) x hx hnot

theorem stable_agree (h : ∀ X X', Agree Sᶜ X X' → Agree Sᶜ (B.derive X Y) (C.derive X' Y')) :
    Agree Sᶜ (B.stable Y) (C.stable Y') := by
  have hle := stable_subset_union (S := S) fun X X' hX x hx hnot => (agree_iff.mp (h X X' hX) x hnot).mp hx
  have hge := stable_subset_union (S := S) fun X X' hX x hx hnot => (agree_iff.mp (h X' X hX.symm) x hnot).mpr hx
  exact agree_iff.mpr fun x hx => ⟨fun hB => (hle hB).resolve_right hx, fun hC => (hge hC).resolve_right hx⟩

theorem certain_agree (h : ∀ Y Y', Agree Sᶜ Y Y' → Agree Sᶜ (B.stable Y) (C.stable Y')) :
    Agree Sᶜ B.certain C.certain := by
  have hsub : ∀ {B C : Approximator α}, (∀ Y Y', Agree Sᶜ Y Y' → Agree Sᶜ (B.stable Y) (C.stable Y')) →
      B.certain ⊆ C.certain ∪ S := by
    intro B C h
    refine OrderHom.lfp_le B.twice fun x hx => or_iff_not_imp_right.mpr fun hnot => ?_
    have hstart : Agree Sᶜ (C.certain ∪ S) C.certain := agree_iff.mpr fun y hy => or_iff_left hy
    rw [← C.stable_possible]
    exact (agree_iff.mp (h _ _ (h _ _ hstart)) x hnot).mp hx
  have hle := hsub h
  have hge := hsub fun Y Y' hY => (h Y' Y hY.symm).symm
  exact agree_iff.mpr fun x hx => ⟨fun hB => (hle hB).resolve_right hx, fun hC => (hge hC).resolve_right hx⟩

section Restrict

variable (A M) {Δ Δ' : Set α}

-- the rules for some of the atoms, where the others are as in a structure
def restrict (Δ : Set α) : Approximator α where
  derive X Y := M \ Δ ∪ A.derive X Y ∩ Δ
  mono h := Set.union_subset_union_right _ (Set.inter_subset_inter_left _ (A.mono h))
  anti h := Set.union_subset_union_right _ (Set.inter_subset_inter_left _ (A.anti h))

-- the structure is the well-founded model of the rules for the atoms, given the others
def IsModel (Δ : Set α) : Prop := (A.restrict M Δ).certain = M ∧ (A.restrict M Δ).possible = M

variable {A M} in
theorem isModel_congr {B : Approximator α} (h : ∀ X Y, Agree Δ (A.derive X Y) (B.derive X Y)) :
    A.IsModel M Δ ↔ B.IsModel M Δ := by
  have hrestrict : A.restrict M Δ = B.restrict M Δ := by
    rw [restrict, mk.injEq]
    exact funext₂ fun X Y => congrArg (M \ Δ ∪ ·) (h X Y)
  rw [IsModel, hrestrict, IsModel]

def DependsOn (Δ S : Set α) : Prop :=
  ∀ X X' Y Y', Agree S X X' → Agree S Y Y' → Agree Δ (A.derive X Y) (A.derive X' Y')

variable {A M}

theorem DependsOn.mono (h : A.DependsOn Δ S) (hS : S ⊆ S') : A.DependsOn Δ S' :=
  fun X X' Y Y' hX hY => h X X' Y Y' (hX.mono hS) (hY.mono hS)

theorem restrict_stable_agree (Y : Set α) : Agree Δᶜ ((A.restrict M Δ).stable Y) M := by
  refine agree_iff.mpr fun x hx => ?_
  rw [← derive_stable]
  exact ⟨fun h => h.elim And.left fun h => absurd h.2 hx, fun h => Or.inl ⟨h, hx⟩⟩

theorem restrict_certain_agree : Agree Δᶜ (A.restrict M Δ).certain M := by
  rw [← stable_possible]
  exact restrict_stable_agree _

theorem restrict_union_derive (hdep : A.DependsOn Δ Δ'ᶜ) (hX : Agree Δ'ᶜ X X') (hY : Agree Δ'ᶜ Y Y') :
    Agree Δ'ᶜ ((A.restrict M (Δ ∪ Δ')).derive X Y) ((A.restrict M Δ).derive X' Y') := by
  refine agree_iff.mpr fun x hx => ?_
  have hderive := agree_iff.mp (hdep X X' Y Y' hX hY) x
  have hx : x ∉ Δ' := hx
  by_cases hmem : x ∈ Δ
  · simp [restrict, hmem, hderive hmem]
  · simp [restrict, hmem, hx]

theorem restrict_union_stable (hdep : A.DependsOn Δ Δ'ᶜ) (hY : Agree Δ'ᶜ Y Y') :
    Agree Δ'ᶜ ((A.restrict M (Δ ∪ Δ')).stable Y) ((A.restrict M Δ).stable Y') :=
  stable_agree fun _ _ hX => restrict_union_derive hdep hX hY

-- where the first part is as in the structure, the rules of both parts are those of the second
theorem restrict_union_stable_eq (hdisj : Disjoint Δ Δ') (hdep : A.DependsOn Δ Δ'ᶜ)
    (hM : (A.restrict M Δ).stable M = M) (hY : Agree Δ'ᶜ Y M) :
    (A.restrict M (Δ ∪ Δ')).stable Y = (A.restrict M Δ').stable Y := by
  refine (stable_subset _ fun x hx => ?_).antisymm (stable_subset _ fun x hx => ?_)
  · rw [← derive_stable]
    rcases hx with ⟨hx, hnot⟩ | ⟨hx, hmem | hmem⟩
    · exact Or.inl ⟨hx, fun hmem => hnot (Or.inr hmem)⟩
    · have hMx := (agree_iff.mp (hdep _ _ _ _ (restrict_stable_agree Y) hY) x hmem).mp hx
      rw [← hM, ← derive_stable, hM]
      exact Or.inl ⟨Or.inr ⟨hMx, hmem⟩, fun hmem' => Set.disjoint_left.mp hdisj hmem hmem'⟩
    · exact Or.inr ⟨hx, hmem⟩
  · rcases hx with ⟨hx, hnot⟩ | ⟨hx, hmem⟩
    · rw [← hM] at hx
      exact (agree_iff.mp (restrict_union_stable hdep hY) x hnot).mpr hx
    · rw [← derive_stable]
      exact Or.inr ⟨hx, Or.inr hmem⟩

theorem isModel_union (hdisj : Disjoint Δ Δ') (hdep : A.DependsOn Δ Δ'ᶜ) :
    A.IsModel M (Δ ∪ Δ') ↔ A.IsModel M Δ ∧ A.IsModel M Δ' := by
  have hfirst := certain_agree fun Y Y' => @restrict_union_stable _ _ M Y Y' _ _ hdep
  rw [IsModel, IsModel, IsModel, certain_possible_iff, certain_possible_iff, certain_possible_iff]
  constructor
  · rintro ⟨hstable, hcertain⟩
    have hoff : ∀ x ∈ Δ', x ∈ Δᶜ := fun x hx hmem => Set.disjoint_left.mp hdisj hmem hx
    have hstable₁ : (A.restrict M Δ).stable M = M := by
      have hagree := restrict_union_stable hdep (M := M) (Y := M) rfl
      rw [hstable] at hagree
      ext x
      by_cases hx : x ∈ Δ'
      · exact agree_iff.mp (restrict_stable_agree M) x (hoff x hx)
      · exact (agree_iff.mp hagree x hx).symm
    have hsecond := fun Y => restrict_union_stable_eq (Y := Y) hdisj hdep hstable₁
    refine ⟨⟨hstable₁, fun x hx => ?_⟩, (hsecond M rfl).symm.trans hstable, hcertain.trans ?_⟩
    · by_cases hmem : x ∈ Δ'
      · exact (agree_iff.mp restrict_certain_agree x (hoff x hmem)).mpr hx
      · exact (agree_iff.mp hfirst x hmem).mp (hcertain hx)
    · refine OrderHom.lfp_le (A.restrict M (Δ ∪ Δ')).twice ?_
      change stable _ (stable _ _) ⊆ _
      rw [hsecond _ restrict_certain_agree, hsecond _ (restrict_stable_agree _)]
      exact (stable_possible _).subset
  · rintro ⟨⟨hstable₁, hcertain₁⟩, hstable₂, hcertain₂⟩
    have hsecond := fun Y => restrict_union_stable_eq (Y := Y) hdisj hdep hstable₁
    refine ⟨(hsecond M rfl).trans hstable₂, hcertain₂.trans (OrderHom.lfp_le (A.restrict M Δ').twice ?_)⟩
    have hM : (A.restrict M Δ).certain = M := (certain_possible_iff.mpr ⟨hstable₁, hcertain₁⟩).1
    have hagree : Agree Δ'ᶜ (A.restrict M (Δ ∪ Δ')).certain M :=
      hfirst.trans (congrArg (· ∩ Δ'ᶜ) hM)
    have hagree' : Agree Δ'ᶜ ((A.restrict M (Δ ∪ Δ')).stable (A.restrict M (Δ ∪ Δ')).certain) M := by
      have h := restrict_union_stable (M := M) hdep hagree
      rwa [hstable₁] at h
    change stable _ (stable _ _) ⊆ _
    rw [← hsecond _ hagree, ← hsecond _ hagree']
    exact (stable_possible _).subset

end Restrict

section Blocks

variable {ι : Type} {block reads : ι → Set α}

theorem isModel_empty : A.IsModel M ∅ := by
  have hderive : ∀ X Y, (A.restrict M ∅).derive X Y = M := fun X Y => by simp [restrict]
  have hstable : ∀ Y, (A.restrict M ∅).stable Y = M := fun Y => by rw [← derive_stable, hderive]
  refine certain_possible_iff.mpr ⟨hstable M, ?_⟩
  rw [← stable_possible, hstable]

def blocks (block : ι → Set α) (l : List ι) : Set α := {x | ∃ i ∈ l, x ∈ block i}

theorem isModel_blocks (hreads : ∀ i, A.DependsOn (block i) (reads i)) {l : List ι}
    (hdisj : l.Pairwise fun i j => Disjoint (block i) (block j))
    (horder : l.Pairwise fun i j => Disjoint (reads i) (block j)) :
    A.IsModel M (blocks block l) ↔ ∀ i ∈ l, A.IsModel M (block i) := by
  induction l with
  | nil =>
    have hempty : blocks block ([] : List ι) = ∅ := by simp [blocks]
    exact iff_of_true (hempty ▸ isModel_empty) nofun
  | cons i l ih =>
    obtain ⟨hdisj, hdisjs⟩ := List.pairwise_cons.mp hdisj
    obtain ⟨horder, horders⟩ := List.pairwise_cons.mp horder
    have hcons : blocks block (i :: l) = block i ∪ blocks block l := by
      ext x
      simp [blocks]
    have hrest : ∀ {s : Set α}, (∀ j ∈ l, Disjoint s (block j)) → Disjoint s (blocks block l) := by
      intro s hs
      refine Set.disjoint_left.mpr fun x hx hx' => ?_
      obtain ⟨j, hj, hmem⟩ := hx'
      exact Set.disjoint_left.mp (hs j hj) hx hmem
    have hdep : A.DependsOn (block i) (blocks block l)ᶜ := (hreads i).mono (hrest horder).subset_compl_right
    rw [hcons, isModel_union (hrest hdisj) hdep, ih hdisjs horders, List.forall_mem_cons]

theorem isModel_blocks_of_rank (hreads : ∀ i, A.DependsOn (block i) (reads i)) (rank : ι → ℕ) {l : List ι}
    (hdisj : l.Pairwise fun i j => Disjoint (block i) (block j))
    (hrank : ∀ i ∈ l, ∀ j ∈ l, Disjoint (block i) (block j) → ¬ Disjoint (reads i) (block j) → rank j < rank i) :
    A.IsModel M (blocks block l) ↔ ∀ i ∈ l, A.IsModel M (block i) := by
  classical
  let l' := l.insertionSort fun i j => rank i ≤ rank j
  have hperm : l'.Perm l := List.perm_insertionSort _ l
  have hdisj' : l'.Pairwise fun i j => Disjoint (block i) (block j) :=
    (hperm.pairwise_iff fun h => h.symm).mpr hdisj
  have : Std.Total fun i j => rank i ≤ rank j := ⟨fun i j => le_total _ _⟩
  have : IsTrans ι fun i j => rank i ≤ rank j := ⟨fun i j k => le_trans⟩
  have hsorted : l'.Pairwise fun i j => rank i ≤ rank j := List.pairwise_insertionSort _ l
  have horder : l'.Pairwise fun i j => Disjoint (reads i) (block j) := by
    refine (hsorted.and hdisj').imp_of_mem fun hi hj h => ?_
    by_contra hnot
    exact absurd (hrank _ (hperm.mem_iff.mp hi) _ (hperm.mem_iff.mp hj) h.2 hnot) (not_lt.mpr h.1)
  have hblocks : blocks block l' = blocks block l := by
    ext x
    simp [blocks, hperm.mem_iff]
  rw [← hblocks, isModel_blocks hreads hdisj' horder]
  simp [hperm.mem_iff]

end Blocks

end Splitting

end Approximator
