import DeclarativeLocalSearch.Theory.Kinds
import DeclarativeLocalSearch.Theory.Sorts

set_option linter.unusedSectionVars false

namespace Theory

open Structure

variable {S P F D : Type}

-- what is certain about the symbols; the tables of the sorts, the builtin symbols and the symbols that are
-- two-valued, and the functions that every extension interprets alike
structure ThreeValued (S P F D : Type) where
  base : Structure S P F D
  fixed : F → Prop
  ct : PFSymbol S P F → List D → Prop
  cf : PFSymbol S P F → List D → Prop

mutual

-- no aggregate, and no function that was to be graphed
def fixedTerm (fixed : F → Prop) : Term S P F D → Prop
  | .var _ => True
  | .func f args => fixed f ∧ fixedTerms fixed args
  | .dom _ _ => True
  | .agg _ _ => False

def fixedTerms (fixed : F → Prop) : List (Term S P F D) → Prop
  | [] => True
  | t :: ts => fixedTerm fixed t ∧ fixedTerms fixed ts

end

section Fixed

variable {fixed : F → Prop}

theorem fixedTerms_iff {ts : List (Term S P F D)} : fixedTerms fixed ts ↔ ∀ t ∈ ts, fixedTerm fixed t := by
  induction ts with
  | nil => exact iff_of_true trivial nofun
  | cons t ts ih => rw [fixedTerms, List.forall_mem_cons, ih]

theorem fixed_value [DecidableEq S] {I J : Structure S P F D} (h : ∀ f, fixed f → I.function f = J.function f)
    (e : Variable S → D) : ∀ t : Term S P F D, fixedTerm fixed t → I.value t e = J.value t e := by
  refine (@Formula.induct S P F D _ (fun _ => True) (fun _ => True) ?_ ?_ ?_ ?_ ?_ ?_ ?_ ?_ ?_ ?_ ?_).1
  · exact fun v _ => rfl
  · intro f args ih ht
    have hargs : I.values args e = J.values args e := by
      rw [values_eq_map, values_eq_map]
      exact List.map_congr_left fun t hmem => ih t hmem (fixedTerms_iff.mp ht.2 t hmem)
    rw [value, value, hargs, h f ht.1]
  · exact fun s d _ => rfl
  · exact fun g sets _ ht => ht.elim
  all_goals intros; trivial

end Fixed

section Extensions

variable [DecidableEq S] (V : SortedVocabulary S P F) (arity : PFSymbol S P F → ℕ) (builtin : PFSymbol S P F → Bool)

-- a two-valued structure that agrees with all that is certain
structure ThreeValued.Extends (T : ThreeValued S P F D) (I : Structure S P F D) : Prop where
  sort : I.sort = T.base.sort
  less : I.less = T.base.less
  aggregate : I.aggregate = T.base.aggregate
  function : ∀ f, T.fixed f → I.function f = T.base.function f
  agrees : ∀ symbol, builtin symbol = true → ∀ ds, I.atom symbol ds ↔ T.base.atom symbol ds
  within : ∀ symbol, builtin symbol = false → ∀ ds, I.atom symbol ds → inUniverse V arity T.base symbol ds
  ct : ∀ symbol, builtin symbol = false → ∀ ds, inUniverse V arity T.base symbol ds → T.ct symbol ds → I.atom symbol ds
  cf : ∀ symbol, builtin symbol = false → ∀ ds, inUniverse V arity T.base symbol ds → T.cf symbol ds →
    ¬ I.atom symbol ds

variable {V arity builtin} {T : ThreeValued S P F D} {I : Structure S P F D}

theorem ThreeValued.Extends.values (hI : T.Extends V arity builtin I) {args : List (Term S P F D)}
    (hargs : ∀ t ∈ args, fixedTerm T.fixed t) (e : Variable S → D) : I.values args e = T.base.values args e := by
  rw [values_eq_map, values_eq_map]
  exact List.map_congr_left fun t ht => fixed_value hI.function e t (hargs t ht)

theorem ThreeValued.Extends.varies (hI : T.Extends V arity builtin I) (vars : List (Variable S))
    (e : Variable S → D) : Varies T.base vars e = Varies I vars e := by
  funext e'
  simp only [Varies, Sorted, hI.sort]

end Extensions

end Theory
