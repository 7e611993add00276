import Mathlib.Data.List.Shortlex

namespace Structure

-- the elements of D are the domain elements, ordered by their operator<
variable {D : Type} [LinearOrder D]

namespace Compare

def lessElements : List D → List D → Bool
  | d1 :: t1, d2 :: t2 =>
    if d1 < d2 then true
    else if d1 > d2 then false
    else lessElements t1 t2
  | _, _ => false

def less (t1 t2 : List D) : Bool :=
  if t1.length < t2.length then true
  else if t1.length > t2.length then false
  else lessElements t1 t2

theorem lessElements_iff {t1 t2 : List D} (h : t1.length = t2.length) :
    lessElements t1 t2 = true ↔ List.Lex (· < ·) t1 t2 := by
  induction t1 generalizing t2 with
  | nil =>
    rw [List.eq_nil_of_length_eq_zero h.symm]
    simp [lessElements]
  | cons d1 t1 ih =>
    cases t2 with
    | nil => cases h
    | cons d2 t2 =>
      have ih := ih (Nat.succ.inj h)
      rw [lessElements]
      rcases lt_trichotomy d1 d2 with hlt | rfl | hgt
      · simp [hlt, List.Lex.rel]
      · simpa [List.lex_cons_iff] using ih
      · have hnot : ¬ List.Lex (· < ·) (d1 :: t1) (d2 :: t2) := by
          intro hlex
          cases hlex with
          | rel h => exact lt_asymm h hgt
          | cons h => exact lt_irrefl _ hgt
        simp [hgt, hgt.not_gt, hnot]

theorem less_iff (t1 t2 : List D) : less t1 t2 = true ↔ List.Shortlex (· < ·) t1 t2 := by
  rw [less, List.shortlex_def]
  rcases lt_trichotomy t1.length t2.length with hlt | heq | hgt
  · simp [hlt]
  · simp [heq, lessElements_iff heq]
  · simp [hgt, hgt.not_gt, hgt.ne']

theorem less_irrefl (t : List D) : ¬ less t t = true := by
  rw [less_iff]
  exact fun h => asymm_of (List.Shortlex (· < ·)) h h

theorem less_trans {t1 t2 t3 : List D} (h1 : less t1 t2 = true) (h2 : less t2 t3 = true) :
    less t1 t3 = true := by
  rw [less_iff, List.shortlex_def] at h1 h2 ⊢
  rcases h1 with h1 | ⟨h1, l1⟩ <;> rcases h2 with h2 | ⟨h2, l2⟩
  · exact Or.inl (h1.trans h2)
  · exact Or.inl (h2 ▸ h1)
  · exact Or.inl (h1 ▸ h2)
  · exact Or.inr ⟨h1.trans h2, lt_trans (List.lex_lt.mp l1) (List.lex_lt.mp l2)⟩

theorem less_trichotomous {t1 t2 : List D} (h1 : ¬ less t1 t2 = true) (h2 : ¬ less t2 t1 = true) :
    t1 = t2 := by
  rw [less_iff] at h1 h2
  exact Std.Trichotomous.trichotomous (r := List.Shortlex (· < ·)) t1 t2 h1 h2

end Compare

structure Tuple (D : Type) where
  elements : List D
  deriving DecidableEq

namespace Tuple

def Less (t1 t2 : Tuple D) : Prop := Compare.less t1.elements t2.elements = true

instance : DecidableRel (Less (D := D)) := fun _ _ => inferInstanceAs (Decidable (_ = true))

instance : IsStrictTotalOrder (Tuple D) Less where
  irrefl t := Compare.less_irrefl t.elements
  trans _ _ _ := Compare.less_trans
  trichotomous _ _ h1 h2 := congrArg Tuple.mk (Compare.less_trichotomous h1 h2)

instance : LinearOrder (Tuple D) := linearOrderOfSTO Less

end Tuple

end Structure
