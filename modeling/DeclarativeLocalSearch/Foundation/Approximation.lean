import Mathlib.Logic.Basic

namespace Approximation

-- m stands for w, from above or from below, and is w where it is exact
structure Approximates (exact : Prop) (above : Bool) (m w : Prop) : Prop where
  bound : if above then w → m else m → w
  equal : exact → (m ↔ w)

variable {exact : Prop} {above : Bool} {m w m' w' : Prop}

theorem Approximates.of_iff (h : m ↔ w) : Approximates exact above m w := by
  refine ⟨?_, fun _ => h⟩
  cases above
  · exact h.mp
  · exact h.mpr

theorem Approximates.of_not_exact (he : ¬ exact) : Approximates exact above (above = true) w := by
  refine ⟨?_, fun h => absurd h he⟩
  cases above
  · exact fun h => absurd h Bool.false_ne_true
  · exact fun _ => rfl

theorem Approximates.congr (h : Approximates exact above m w) (hm : m' ↔ m) (hw : w' ↔ w) :
    Approximates exact above m' w' := by
  rw [hm, hw]
  exact h

theorem Approximates.mono (h : Approximates exact above m w) {exact' : Prop} (he : exact' → exact) :
    Approximates exact' above m w := ⟨h.bound, fun h' => h.equal (he h')⟩

theorem Approximates.below (h : Approximates exact false m w) (hm : m) : w := h.bound hm

theorem Approximates.over (h : Approximates exact true m w) (hw : w) : m := h.bound hw

theorem Approximates.trans {u : Prop} (h : Approximates exact above m w) (h' : Approximates exact above w u) :
    Approximates exact above m u := by
  refine ⟨?_, fun he => (h.equal he).trans (h'.equal he)⟩
  cases above
  · exact fun hm => h'.below (h.below hm)
  · exact fun hu => h.over (h'.over hu)

theorem Approximates.not (h : Approximates exact above m w) : Approximates exact (!above) (¬ m) (¬ w) := by
  refine ⟨?_, fun he => not_congr (h.equal he)⟩
  cases above
  · exact fun hw hm => hw (h.below hm)
  · exact fun hm hw => hm (h.over hw)

theorem Approximates.and (h : Approximates exact above m w) (h' : Approximates exact above m' w') :
    Approximates exact above (m ∧ m') (w ∧ w') := by
  refine ⟨?_, fun he => and_congr (h.equal he) (h'.equal he)⟩
  cases above
  · exact And.imp h.below h'.below
  · exact And.imp h.over h'.over

theorem Approximates.or (h : Approximates exact above m w) (h' : Approximates exact above m' w') :
    Approximates exact above (m ∨ m') (w ∨ w') := by
  refine ⟨?_, fun he => or_congr (h.equal he) (h'.equal he)⟩
  cases above
  · exact Or.imp h.below h'.below
  · exact Or.imp h.over h'.over

theorem Approximates.forall {α : Type} {X p q : α → Prop} (h : ∀ a, X a → Approximates exact above (p a) (q a)) :
    Approximates exact above (∀ a, X a → p a) (∀ a, X a → q a) := by
  refine ⟨?_, fun he => forall₂_congr fun a ha => (h a ha).equal he⟩
  cases above
  · exact fun hp a ha => (h a ha).below (hp a ha)
  · exact fun hq a ha => (h a ha).over (hq a ha)

theorem Approximates.exists {α : Type} {X p q : α → Prop} (h : ∀ a, X a → Approximates exact above (p a) (q a)) :
    Approximates exact above (∃ a, X a ∧ p a) (∃ a, X a ∧ q a) := by
  refine ⟨?_, fun he => exists_congr fun a => and_congr_right fun ha => (h a ha).equal he⟩
  cases above
  · exact Exists.imp fun a ha => ⟨ha.1, (h a ha.1).below ha.2⟩
  · exact Exists.imp fun a ha => ⟨ha.1, (h a ha.1).over ha.2⟩

end Approximation
