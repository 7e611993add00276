import DeclarativeLocalSearch.Foundation.CheckedInt
import Mathlib.Algebra.Order.Ring.Cast
import Mathlib.Algebra.Order.Ring.Rat
import Mathlib.Data.Int.Cast.Lemmas
import Mathlib.Data.List.Lex
import Mathlib.Data.Sum.Order
import Mathlib.Order.Fin.Basic

namespace SortTables

open CheckedInt

def minInt : ℤ := -2147483648

def maxInt : ℤ := 2147483647

abbrev IntValue := Value minInt maxInt

abbrev Byte := Fin 256

def maxDouble : ℚ := (2 ^ 53 - 1) * 2 ^ 971

-- the factory makes an int of a double that is one
abbrev DoubleValue := {x : ℚ // |x| ≤ maxDouble ∧ ∀ n : IntValue, (n.1 : ℚ) ≠ x}

inductive DomainElement (C : Type) where
  | int (value : IntValue)
  | double (value : DoubleValue)
  | string (value : List Byte)
  | compound (value : C)

namespace DomainElement

variable {C : Type}

def key : DomainElement C → ℚ ⊕ₗ (List Byte ⊕ₗ C)
  | .int n => Sum.inlₗ (n.1 : ℚ)
  | .double x => Sum.inlₗ x.1
  | .string s => Sum.inrₗ (Sum.inlₗ s)
  | .compound c => Sum.inrₗ (Sum.inrₗ c)

theorem key_injective : Function.Injective (key : DomainElement C → _) := by
  intro d e h
  cases d with
  | int m =>
    cases e with
    | int n => exact congrArg int (Subtype.ext (Int.cast_injective (Sum.inl.inj (toLex.injective h))))
    | double x => exact absurd (Sum.inl.inj (toLex.injective h)) (x.2.2 m)
    | string s => cases toLex.injective h
    | compound c => cases toLex.injective h
  | double x =>
    cases e with
    | int n => exact absurd (Sum.inl.inj (toLex.injective h)).symm (x.2.2 n)
    | double y => exact congrArg double (Subtype.ext (Sum.inl.inj (toLex.injective h)))
    | string s => cases toLex.injective h
    | compound c => cases toLex.injective h
  | string s =>
    cases e with
    | int n => cases toLex.injective h
    | double y => cases toLex.injective h
    | string s' =>
      exact congrArg string (Sum.inl.inj (toLex.injective (Sum.inr.inj (toLex.injective h))))
    | compound c => cases toLex.injective (Sum.inr.inj (toLex.injective h))
  | compound c =>
    cases e with
    | int n => cases toLex.injective h
    | double y => cases toLex.injective h
    | string s => cases toLex.injective (Sum.inr.inj (toLex.injective h))
    | compound c' =>
      exact congrArg compound (Sum.inr.inj (toLex.injective (Sum.inr.inj (toLex.injective h))))

variable [LinearOrder C]

-- numbers by value, then strings, then compounds
instance : LinearOrder (DomainElement C) := LinearOrder.lift' key key_injective

theorem le_iff_key {d e : DomainElement C} : d ≤ e ↔ d.key ≤ e.key := Iff.rfl

theorem int_le_int {m n : IntValue} : (int m : DomainElement C) ≤ int n ↔ m ≤ n := by
  rw [le_iff_key, key, key, Sum.Lex.inl_le_inl_iff, Int.cast_le, Subtype.coe_le_coe]

theorem int_lt_string (m : IntValue) (s : List Byte) : (int m : DomainElement C) < string s :=
  Sum.Lex.inl_lt_inr _ _

theorem string_lt_string {s s' : List Byte} :
    (string s : DomainElement C) < string s' ↔ s < s' := by
  refine lt_iff_lt_of_le_iff_le ?_
  rw [le_iff_key, key, key, Sum.Lex.inr_le_inr_iff, Sum.Lex.inl_le_inl_iff]

theorem compound_le_compound {c c' : C} : (compound c : DomainElement C) ≤ compound c' ↔ c ≤ c' := by
  rw [le_iff_key, key, key, Sum.Lex.inr_le_inr_iff, Sum.Lex.inr_le_inr_iff]

def intValue : DomainElement C → Option IntValue
  | .int n => some n
  | _ => none

end DomainElement

end SortTables
