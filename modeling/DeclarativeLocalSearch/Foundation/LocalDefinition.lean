import Mathlib.Data.Set.Basic

-- equations for the points of a set, each of which looks at few points
structure LocalDefinition (α : Type) where
  points : Set α
  deps : α → Set α
  equation : (α → Prop) → α → Prop
  agree : ∀ t ∈ points, ∀ ν ν', (∀ a ∈ deps t, (ν a ↔ ν' a)) → (equation ν t ↔ equation ν' t)

namespace LocalDefinition

variable {α : Type} (E : LocalDefinition α)

def Below (u t : α) : Prop := u ∈ E.points ∧ t ∈ E.points ∧ u ∈ E.deps t

open Classical in
theorem exists_solution (h : ∀ t ∈ E.points, Acc E.Below t) (σ : α → Prop) :
    ∃ τ, (∀ a ∉ E.points, (τ a ↔ σ a)) ∧ ∀ t ∈ E.points, (τ t ↔ E.equation τ t) := by
  have hacc : ∀ t, Acc E.Below t := fun t => by
    by_cases ht : t ∈ E.points
    · exact h t ht
    · exact Acc.intro t fun u hu => absurd hu.2.1 ht
  let step (t : α) (rec : ∀ u, E.Below u t → Prop) : Prop :=
    if t ∈ E.points then E.equation (fun a => if ha : E.Below a t then rec a ha else σ a) t else σ t
  let τ : α → Prop := WellFounded.fix ⟨hacc⟩ step
  have hτ : ∀ t, τ t = step t fun u _ => τ u := fun t => WellFounded.fix_eq _ _ t
  have hother : ∀ a ∉ E.points, (τ a ↔ σ a) := fun a ha => by
    rw [hτ]
    exact iff_of_eq (if_neg ha)
  refine ⟨τ, hother, fun t ht => ?_⟩
  rw [hτ]
  refine (iff_of_eq (if_pos ht)).trans (E.agree t ht _ _ fun a ha => ?_)
  by_cases hbelow : E.Below a t
  · rw [dif_pos hbelow]
  · rw [dif_neg hbelow]
    exact (hother a fun hpoint => hbelow ⟨hpoint, ht, ha⟩).symm

end LocalDefinition
