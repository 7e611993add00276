import Mathlib.Data.List.Basic

namespace Window

variable {α : Type}

-- an element enters at the end, or the oldest one is taken out
inductive Event (α : Type) where
  | push (x : α)
  | drop (x : α)

def Event.element : Event α → α
  | .push x => x
  | .drop x => x

-- a full window loses its oldest element when another one enters
inductive Step (k : ℕ) : Event α → List α → List α → Prop where
  | push {l : List α} {x : α} : l.length < k → Step k (.push x) l (l ++ [x])
  | evict {l : List α} {x y : α} : k ≤ (y :: l).length → Step k (.push x) (y :: l) (l ++ [x])
  | drop {l : List α} {x : α} : Step k (.drop x) (x :: l) l

inductive Run (k : ℕ) : List (Event α) → List α → List α → Prop where
  | nil {l : List α} : Run k [] l l
  | cons {e : Event α} {es : List (Event α)} {l l' l'' : List α} :
      Step k e l l' → Run k es l' l'' → Run k (e :: es) l l''

variable {k : ℕ} {e : Event α} {es : List (Event α)} {l l' : List α} {x : α}

theorem Step.length_le (h : Step k e l l') (hl : l.length ≤ k) : l'.length ≤ k := by
  cases h with
  | push hlt =>
    rw [List.length_append]
    exact hlt
  | evict _ =>
    rw [List.length_append]
    exact hl
  | drop => exact Nat.le_of_succ_le hl

theorem Run.length_le (h : Run k es l l') (hl : l.length ≤ k) : l'.length ≤ k := by
  induction h with
  | nil => exact hl
  | cons hstep _ ih => exact ih (hstep.length_le hl)

theorem Run.stays (h : Run k es l l') {pre post : List α} (hl : l = pre ++ x :: post)
    (hfew : post.length + es.length < k) : x ∈ l' ∨ .drop x ∈ es := by
  induction h generalizing pre post with
  | nil => exact Or.inl (hl ▸ List.mem_append_right pre List.mem_cons_self)
  | @cons e es l l₁ l₂ hstep hrun ih =>
    have hlater : ∀ {pre' post' : List α}, l₁ = pre' ++ x :: post' → post'.length + es.length < k →
        x ∈ l₂ ∨ .drop x ∈ e :: es := fun hl₁ hlt => (ih hl₁ hlt).imp_right (List.mem_cons_of_mem e)
    rw [List.length_cons] at hfew
    cases hstep with
    | @push _ y _ =>
      refine @hlater pre (post ++ [y]) (by rw [hl]; simp) ?_
      rw [List.length_append, List.length_singleton]
      omega
    | @evict rest y z hfull =>
      cases pre with
      | nil =>
        obtain ⟨rfl, rfl⟩ := List.cons.inj hl
        rw [List.length_cons] at hfull
        omega
      | cons w pre =>
        obtain ⟨rfl, rfl⟩ := List.cons.inj hl
        refine @hlater pre (post ++ [y]) (by simp) ?_
        rw [List.length_append, List.length_singleton]
        omega
    | drop =>
      cases pre with
      | nil =>
        obtain ⟨rfl, -⟩ := List.cons.inj hl
        exact Or.inr List.mem_cons_self
      | cons w pre =>
        obtain ⟨rfl, rfl⟩ := List.cons.inj hl
        exact hlater rfl (by omega)

theorem Run.append {es' : List (Event α)} (h : Run k (es ++ es') l l') : ∃ m, Run k es l m ∧ Run k es' m l' := by
  induction es generalizing l with
  | nil => exact ⟨l, .nil, h⟩
  | cons e es ih =>
    cases h with
    | cons hstep hrun =>
      obtain ⟨m, hm, hm'⟩ := ih hrun
      exact ⟨m, .cons hstep hm, hm'⟩

-- the elements of the last k events are there, but for those that were taken out
theorem Run.recent {es' : List (Event α)} (h : Run k (es ++ e :: es') l l') (hlt : es'.length < k) :
    e.element ∈ l' ∨ .drop e.element ∈ e :: es' := by
  obtain ⟨m, -, hrun⟩ := h.append
  cases hrun with
  | cons hstep hrun =>
    cases hstep with
    | push _ => exact (hrun.stays rfl (by simpa using hlt)).imp_right (List.mem_cons_of_mem _)
    | evict _ => exact (hrun.stays rfl (by simpa using hlt)).imp_right (List.mem_cons_of_mem _)
    | drop => exact Or.inr List.mem_cons_self

end Window
