import Mathlib.Data.Rat.Defs

namespace Structure

inductive DomainElement where
  | int (value : Int)
  | double (value : ℚ)
  | string (value : String)
  | compound (function : String) (args : List DomainElement)
  deriving Repr

mutual

def DomainElement.decEq : (d e : DomainElement) → Decidable (d = e)
  | .int m, .int n => decidable_of_iff (m = n) (by simp)
  | .double m, .double n => decidable_of_iff (m = n) (by simp)
  | .string m, .string n => decidable_of_iff (m = n) (by simp)
  | .compound f as, .compound g bs =>
    have := DomainElement.decEqList as bs
    decidable_of_iff (f = g ∧ as = bs) (by simp)
  | .int _, .double _ => isFalse nofun
  | .int _, .string _ => isFalse nofun
  | .int _, .compound _ _ => isFalse nofun
  | .double _, .int _ => isFalse nofun
  | .double _, .string _ => isFalse nofun
  | .double _, .compound _ _ => isFalse nofun
  | .string _, .int _ => isFalse nofun
  | .string _, .double _ => isFalse nofun
  | .string _, .compound _ _ => isFalse nofun
  | .compound _ _, .int _ => isFalse nofun
  | .compound _ _, .double _ => isFalse nofun
  | .compound _ _, .string _ => isFalse nofun

def DomainElement.decEqList : (ds es : List DomainElement) → Decidable (ds = es)
  | [], [] => isTrue rfl
  | [], _ :: _ => isFalse nofun
  | _ :: _, [] => isFalse nofun
  | d :: ds, e :: es =>
    have := DomainElement.decEq d e
    have := DomainElement.decEqList ds es
    decidable_of_iff (d = e ∧ ds = es) (by simp)

end

instance : DecidableEq DomainElement := DomainElement.decEq

abbrev ElementTuple := List DomainElement

end Structure
