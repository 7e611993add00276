import Mathlib

namespace Counting

variable {α β : Type}

-- as many places as the number says
abbrev Places (c : ℕ∞) : Type := {n : ℕ // (n : ℕ∞) < c}

-- how much there is in all, when each value is there so often
noncomputable def total (occurrences : β → ℕ∞) : ℕ∞ := ENat.card (Σ b, Places (occurrences b))

theorem le_card_iff {n : ℕ} : (n : ℕ∞) ≤ ENat.card α ↔ ∃ g : Fin n → α, Function.Injective g := by
  rw [ENat.card, Cardinal.natCast_le_toENat, ← Cardinal.mk_fin, Cardinal.le_def]
  exact ⟨fun ⟨g⟩ => ⟨g, g.injective⟩, fun ⟨g, hg⟩ => ⟨⟨g, hg⟩⟩⟩

def placesEquiv (n : ℕ) : Places n ≃ Fin n where
  toFun m := ⟨m.1, Nat.cast_lt.mp m.2⟩
  invFun m := ⟨m.1, Nat.cast_lt.mpr m.2⟩
  left_inv _ := rfl
  right_inv _ := rfl

theorem infinite_places : Infinite (Places ⊤) :=
  Infinite.of_injective (fun n : ℕ => ⟨n, ENat.natCast_lt_top n⟩) fun _ _ h => congrArg Subtype.val h

theorem total_card (value : α → β) : total (fun b => ENat.card {a // value a = b}) = ENat.card α := by
  by_cases h : ∀ b, Finite {a // value a = b}
  · have hplaces : ∀ b, Nonempty (Places (ENat.card {a // value a = b}) ≃ {a // value a = b}) := fun b => by
      have := Fintype.ofFinite {a // value a = b}
      rw [ENat.card_eq_coe_fintype_card]
      exact ⟨(placesEquiv _).trans (Fintype.equivFin _).symm⟩
    exact ENat.card_congr
      ((Equiv.sigmaCongrRight fun b => (hplaces b).some).trans (Equiv.sigmaFiberEquiv value))
  · obtain ⟨b, hb⟩ := not_forall.mp h
    have hinfinite : Infinite {a // value a = b} := not_finite_iff_infinite.mp hb
    have hα : Infinite α :=
      Infinite.of_injective (Subtype.val : {a // value a = b} → α) Subtype.val_injective
    have hplaces : Infinite (Places (ENat.card {a // value a = b})) := by
      rw [ENat.card_eq_top_of_infinite]
      exact infinite_places
    have : Infinite (Σ b, Places (ENat.card {a // value a = b})) :=
      Infinite.of_injective (fun n => ⟨b, n⟩) fun m n h => eq_of_heq (Sigma.mk.inj h).2
    rw [total, ENat.card_eq_top_of_infinite, ENat.card_eq_top_of_infinite]

end Counting

namespace Tuples

variable {α β : Type}

-- the lists with one element from each of the sets
def tuples : List (Finset α) → Multiset (List α)
  | [] => {[]}
  | s :: ss => s.val.bind fun a => (tuples ss).map (a :: ·)

theorem mem_tuples {ss : List (Finset α)} : ∀ {l : List α}, l ∈ tuples ss ↔ List.Forall₂ (· ∈ ·) l ss := by
  induction ss with
  | nil => simp [tuples]
  | cons s ss ih =>
    intro l
    cases l with
    | nil => simp [tuples]
    | cons a l => simp [tuples, ih]

theorem nodup_tuples (ss : List (Finset α)) : (tuples ss).Nodup := by
  induction ss with
  | nil => exact Multiset.nodup_singleton _
  | cons s ss ih =>
    refine Multiset.nodup_bind.mpr ⟨fun a _ => ih.map List.cons_injective, ?_⟩
    refine s.nodup.pairwise fun a _ b _ hab => ?_
    rw [Function.onFun, Multiset.disjoint_left]
    intro l hla hlb
    obtain ⟨l', -, rfl⟩ := Multiset.mem_map.mp hla
    obtain ⟨l'', -, hl⟩ := Multiset.mem_map.mp hlb
    exact hab (List.cons.inj hl).1.symm

end Tuples
