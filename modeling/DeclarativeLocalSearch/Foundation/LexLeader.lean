import Mathlib.Data.Set.Finite.List
import Mathlib.Order.Preorder.Finite

namespace LexLeader

variable {α : Type} {x y : α → Bool}

theorem cons_le_cons {a b : Bool} {l m : List Bool} :
    a :: l ≤ b :: m ↔ (a = true → b = true) ∧ (a = b → l ≤ m) := by
  rw [le_iff_eq_or_lt, le_iff_eq_or_lt, List.cons_lt_cons_iff, List.cons.injEq]
  cases a <;> cases b <;> simp

theorem map_le_map_filter {order : List α} {keep : α → Bool}
    (h : ∀ l a r, order = l ++ a :: r → keep a = false → (∀ b ∈ l, x b = y b) → x a = y a) :
    (order.filter keep).map x ≤ (order.filter keep).map y ↔ order.map x ≤ order.map y := by
  induction order with
  | nil => exact Iff.rfl
  | cons a order ih =>
    have hrest : x a = y a →
        ((order.filter keep).map x ≤ (order.filter keep).map y ↔ order.map x ≤ order.map y) := by
      intro ha
      refine ih fun l b r horder hb hl => h (a :: l) b r (by rw [horder, List.cons_append]) hb ?_
      exact List.forall_mem_cons.mpr ⟨ha, hl⟩
    rw [List.map_cons, List.map_cons, cons_le_cons]
    cases hkeep : keep a with
    | true =>
      rw [List.filter_cons_of_pos hkeep, List.map_cons, List.map_cons, cons_le_cons]
      exact and_congr_right fun _ => forall_congr' hrest
    | false =>
      have ha : x a = y a := h [] a order rfl hkeep fun b hb => absurd hb List.not_mem_nil
      rw [List.filter_cons_of_neg (by simp [hkeep]), hrest ha]
      exact ⟨fun hle => ⟨fun hx => ha ▸ hx, fun _ => hle⟩, fun hle => hle.2 ha⟩

theorem exists_leader (f : α → α) (order : List α) (x : α → Bool) :
    ∃ k, order.map (fun a => x (f^[k] a)) ≤ order.map fun a => x (f^[k] (f a)) := by
  let orbit : Set (List Bool) := Set.range fun k => order.map fun a => x (f^[k] a)
  have hfinite : orbit.Finite := (List.finite_length_eq Bool order.length).subset (by
    rintro l ⟨k, rfl⟩
    exact List.length_map _)
  obtain ⟨l, ⟨⟨k, rfl⟩, hmin⟩⟩ := hfinite.exists_minimal ⟨_, 0, rfl⟩
  refine ⟨k, ?_⟩
  have hnext : (order.map fun a => x (f^[k] (f a))) ∈ orbit := ⟨k + 1, rfl⟩
  exact (le_total _ _).elim id fun hle => hmin hnext hle

end LexLeader
