import Mathlib

-- values are looked up one after the other in a sorted list, of which each look-up drops the part below the value
namespace SortedWalk

variable {α β : Type} [LinearOrder α] (key : β → α)

def walk : List α → List β → List (α × Bool)
  | [], _ => []
  | d :: ds, l =>
    let l := l.dropWhile fun t => key t < d
    (d, l.head?.map key = some d) :: walk ds l

-- an earlier value is greater
def passed (ds : List α) (d : α) : Bool := (ds.takeWhile (· ≠ d)).any fun d' => d < d'

def present (l : List β) (d : α) : Bool := l.any fun t => key t = d

variable {key} {l : List β} {ds before : List α} {d : α}

theorem present_iff : present key l d = true ↔ ∃ t ∈ l, key t = d := by simp [present]

theorem dropWhile_eq_filter (h : l.Pairwise fun t t' => key t ≤ key t') (d : α) :
    l.dropWhile (fun t => key t < d) = l.filter fun t => !decide (key t < d) := by
  induction l with
  | nil => rfl
  | cons t l ih =>
    obtain ⟨hle, htail⟩ := List.pairwise_cons.mp h
    by_cases ht : key t < d
    · simp [ht, ih htail]
    · have hall : ∀ t' ∈ l, ¬ key t' < d := fun t' ht' hlt => ht (lt_of_le_of_lt (hle t' ht') hlt)
      have hfilter : l.filter (fun t => !decide (key t < d)) = l :=
        List.filter_eq_self.mpr fun t' ht' => by simpa using hall t' ht'
      simp [ht, hfilter]

theorem head?_eq_some_iff (h : l.Pairwise fun t t' => key t ≤ key t') (hge : ∀ t ∈ l, ¬ key t < d) :
    l.head?.map key = some d ↔ ∃ t ∈ l, key t = d := by
  cases l with
  | nil => simp
  | cons t l =>
    simp only [List.head?_cons, Option.map_some, Option.some.injEq]
    constructor
    · exact fun heq => ⟨t, List.mem_cons_self, heq⟩
    · rintro ⟨t', ht', rfl⟩
      rcases List.mem_cons.mp ht' with rfl | ht'
      · rfl
      · exact le_antisymm ((List.pairwise_cons.mp h).1 t' ht') (not_lt.mp (hge t List.mem_cons_self))

def remaining (key : β → α) (before : List α) (l : List β) : List β :=
  l.filter fun t => before.all fun d => !decide (key t < d)

theorem pairwise_remaining (h : l.Pairwise fun t t' => key t ≤ key t') :
    (remaining key before l).Pairwise fun t t' => key t ≤ key t' := h.sublist List.filter_sublist

theorem dropWhile_remaining (h : l.Pairwise fun t t' => key t ≤ key t') :
    (remaining key before l).dropWhile (fun t => key t < d) = remaining key (d :: before) l := by
  rw [dropWhile_eq_filter (pairwise_remaining h), remaining, List.filter_filter, remaining]
  rfl

theorem head?_remaining (h : l.Pairwise fun t t' => key t ≤ key t') :
    decide ((remaining key (d :: before) l).head?.map key = some d) =
      (present key l d && before.all fun d' => !decide (d < d')) := by
  have hge : ∀ t ∈ remaining key (d :: before) l, ¬ key t < d := by
    intro t ht
    simp only [remaining, List.mem_filter, List.all_cons, Bool.and_eq_true] at ht
    simpa using ht.2.1
  rw [Bool.eq_iff_iff, decide_eq_true_iff, head?_eq_some_iff (pairwise_remaining h) hge, Bool.and_eq_true,
    present_iff]
  constructor
  · rintro ⟨t, ht, rfl⟩
    simp only [remaining, List.mem_filter, List.all_cons, Bool.and_eq_true] at ht
    exact ⟨⟨t, ht.1, rfl⟩, ht.2.2⟩
  · rintro ⟨⟨t, ht, rfl⟩, hbefore⟩
    exact ⟨t, by simp [remaining, ht] at hbefore ⊢; exact hbefore, rfl⟩

theorem mem_walk_remaining (h : l.Pairwise fun t t' => key t ≤ key t') (hds : ds.Nodup) (b : Bool) :
    (d, b) ∈ walk key ds (remaining key before l) ↔
      d ∈ ds ∧ b = (present key l d && (before ++ ds.takeWhile (· ≠ d)).all fun d' => !decide (d < d')) := by
  induction ds generalizing before with
  | nil => simp [walk]
  | cons e ds ih =>
    obtain ⟨he, hds⟩ := List.nodup_cons.mp hds
    rw [walk, dropWhile_remaining h, head?_remaining h, List.mem_cons, ih hds]
    by_cases hde : d = e
    · subst hde
      simp [he]
    · have htake : (e :: ds).takeWhile (· ≠ d) = e :: ds.takeWhile (· ≠ d) := by
        simp [Ne.symm hde]
      rw [htake, List.mem_cons]
      simp only [Prod.mk.injEq, hde, false_and, false_or, List.all_append, List.all_cons]
      rw [Bool.and_left_comm (before.all _), ← Bool.and_assoc (!decide (d < e))]

theorem mem_walk (h : l.Pairwise fun t t' => key t ≤ key t') (hds : ds.Nodup) (b : Bool) :
    (d, b) ∈ walk key ds l ↔ d ∈ ds ∧ b = (present key l d && !passed ds d) := by
  have hall : remaining key [] l = l := List.filter_eq_self.mpr fun _ _ => rfl
  have hwalk := @mem_walk_remaining _ _ _ _ _ _ [] d h hds b
  rwa [hall, List.nil_append, ← List.not_any_eq_all_not] at hwalk

end SortedWalk
