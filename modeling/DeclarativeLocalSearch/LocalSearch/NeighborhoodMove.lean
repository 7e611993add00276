import DeclarativeLocalSearch.LocalSearch.MoveModelling

namespace LocalSearch

namespace NeighborhoodMove

open Structure

-- no result: the second element is read by a member of the union that is not the one stored
def elemsAreEqual : DomainElement → DomainElement → Option Bool
  | .int a, .int b => some (a == b)
  | .double a, .double b => some (a == b)
  | .string a, .string b => some (a == b)
  | .compound _ _, _ => some true
  | _, _ => none

-- no result: the second move is read past its end
def movesAreEqual : ElementTuple → ElementTuple → Option Bool
  | [], _ => some true
  | _ :: _, [] => none
  | d :: move1, e :: move2 =>
    (elemsAreEqual d e).bind fun b => if b then movesAreEqual move1 move2 else some false

def IsCompound : DomainElement → Prop
  | .compound _ _ => True
  | _ => False

-- both are integers, doubles or strings
def SameType : DomainElement → DomainElement → Prop
  | .int _, .int _ => True
  | .double _, .double _ => True
  | .string _, .string _ => True
  | _, _ => False

-- two elements of one type that is not compound differ, and before them no element of another type than the first
-- one, unless that is compound, is read
inductive Differs : ElementTuple → ElementTuple → Prop
  | here {d e move1 move2} : SameType d e → d ≠ e → Differs (d :: move1) (e :: move2)
  | later {d e move1 move2} : IsCompound d ∨ SameType d e → Differs move1 move2 → Differs (d :: move1) (e :: move2)

theorem elemsAreEqual_compound {d : DomainElement} (h : IsCompound d) (e : DomainElement) :
    elemsAreEqual d e = some true := by
  cases d with
  | compound f args => rfl
  | int a => exact h.elim
  | double a => exact h.elim
  | string a => exact h.elim

theorem elemsAreEqual_sameType {d e : DomainElement} (h : SameType d e) : elemsAreEqual d e = some (decide (d = e)) := by
  cases d <;> cases e <;> first | exact h.elim | simp [elemsAreEqual, beq_eq_decide]

theorem elemsAreEqual_none {d e : DomainElement} (h : ¬ IsCompound d) (h' : ¬ SameType d e) : elemsAreEqual d e = none := by
  cases d <;> cases e <;> first | rfl | exact absurd trivial h | exact absurd trivial h'

theorem Differs.ne {move1 move2 : ElementTuple} (h : Differs move1 move2) : move1 ≠ move2 := by
  induction h with
  | here _ hne => exact fun heq => hne (List.cons.inj heq).1
  | later _ _ ih => exact fun heq => ih (List.cons.inj heq).2

theorem movesAreEqual_self (move : ElementTuple) : movesAreEqual move move = some true := by
  induction move with
  | nil => rfl
  | cons d move ih =>
    have hd : elemsAreEqual d d = some true := by cases d <;> simp [elemsAreEqual]
    rw [movesAreEqual, hd]
    exact ih

theorem movesAreEqual_false_iff (move1 : ElementTuple) : ∀ move2 : ElementTuple,
    movesAreEqual move1 move2 = some false ↔ Differs move1 move2 := by
  induction move1 with
  | nil => exact fun move2 => iff_of_false nofun nofun
  | cons d move1 ih =>
    intro move2
    cases move2 with
    | nil => exact iff_of_false nofun nofun
    | cons e move2 =>
      rw [movesAreEqual]
      by_cases hcompound : IsCompound d
      · rw [elemsAreEqual_compound hcompound]
        refine (ih move2).trans ⟨.later (Or.inl hcompound), fun h => ?_⟩
        cases h with
        | here hsame _ => cases d with
          | compound f args => cases e <;> exact hsame.elim
          | int a => exact hcompound.elim
          | double a => exact hcompound.elim
          | string a => exact hcompound.elim
        | later _ h => exact h
      · by_cases hsame : SameType d e
        · rw [elemsAreEqual_sameType hsame]
          by_cases heq : d = e
          · simp only [heq, decide_true, Option.bind_some, if_true]
            refine (ih move2).trans ⟨.later (Or.inr (heq ▸ hsame)), fun h => ?_⟩
            cases h with
            | here _ hne => exact absurd rfl hne
            | later _ h => exact h
          · simp only [heq, decide_false, Option.bind_some, Bool.false_eq_true, if_false, true_iff]
            exact .here hsame heq
        · rw [elemsAreEqual_none hcompound hsame]
          refine iff_of_false nofun fun h => ?_
          cases h with
          | here h _ => exact hsame h
          | later h _ => exact h.elim hcompound hsame

-- the tabu search compares the moves of one query, which have the same length and types
theorem movesAreEqual_tabu {move1 : ElementTuple} {b : Bool} : ∀ {move2 : ElementTuple},
    movesAreEqual move1 move2 = some b → TabuSearch.movesAreEqual move1 move2 = b := by
  induction move1 with
  | nil => exact fun h => Option.some.inj h
  | cons d move1 ih =>
    intro move2 h
    cases move2 with
    | nil => exact absurd h nofun
    | cons e move2 =>
      obtain ⟨c, hc, hb⟩ := Option.bind_eq_some_iff.mp h
      have hd : TabuSearch.elemsAreEqual d e = c := by
        cases d <;> cases e <;> first | exact Option.some.inj hc | cases hc
      rw [TabuSearch.movesAreEqual, List.zip_cons_cons, List.all_cons]
      dsimp only
      rw [hd]
      cases c with
      | true => exact ih hb
      | false => exact Option.some.inj hb

end NeighborhoodMove

end LocalSearch
