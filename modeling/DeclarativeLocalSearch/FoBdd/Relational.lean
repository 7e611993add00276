import DeclarativeLocalSearch.FoBdd.Runs

namespace FoBdd

open DecisionDiagram Relation

-- user-declared sorts and predicates without functions: no atom is simplified away
inductive Symbol where
  | predicate (p : ℕ)
  | sortPredicate (sort : ℕ)
  deriving DecidableEq

inductive Argument where
  | variable (v : ℕ)
  | deBruijnIndex (i : ℕ)
  deriving DecidableEq

structure Atom where
  symbol : Symbol
  args : List Argument
  deriving DecidableEq

namespace Argument

-- BumpIndices
def bump (v depth : ℕ) : Argument → Argument
  | .variable w => if w = v then .deBruijnIndex depth else .variable w
  | .deBruijnIndex i => if depth ≤ i then .deBruijnIndex (i + 1) else .deBruijnIndex i

end Argument

def relational (sort : ℕ → ℕ) : TermLanguage ℕ Atom ℕ where
  simplify a sets := .inr (a, sets)
  simplify_sets a sets a' sets' h := by
    cases h
    exact List.Subset.refl _
  contains a i := a.args.contains (.deBruijnIndex i)
  setvars _ _ := 0
  builtin _ := none
  sortAtom sort := ⟨.sortPredicate sort, [.deBruijnIndex 0]⟩
  sort := sort
  bump v depth a := ⟨a.symbol, a.args.map (Argument.bump v depth)⟩
  solves _ _ := false

namespace FOBDDManager

section Unordered

def stateAfter (m : Op Atom ℕ ℕ) (s : FOBDDManager Atom ℕ) : FOBDDManager Atom ℕ :=
  match m.run s with
  | some (_, s') => s'
  | none => s

abbrev vocabulary : TermLanguage ℕ Atom ℕ := relational fun _ => 0

abbrev pointerLess (b b' : ℕ) : Bool := b < b'

-- in turn: ?x: true, the kernel of p, p, ?x: p, (?x: true) & p
def sortQuantified : FOBDDManager Atom ℕ :=
  stateAfter (existsquantify vocabulary always 10 0 truebdd) createManager

def withAtom : FOBDDManager Atom ℕ :=
  stateAfter (getAtomKernel vocabulary 10 ⟨.predicate 0, []⟩ []) sortQuantified

def withAtomBDD : FOBDDManager Atom ℕ := stateAfter (ifthenelse 10 4 truebdd falsebdd) withAtom

def atomQuantified : FOBDDManager Atom ℕ :=
  stateAfter (existsquantify vocabulary always 10 0 4) withAtomBDD

def conjoined : FOBDDManager Atom ℕ :=
  stateAfter (conjunction pointerLess 10 3 4) atomQuantified

theorem withAtomBDD_reachable :
    ReflTransGen (Step vocabulary pointerLess rootBelow) createManager withAtomBDD := by
  have h1 : (existsquantify vocabulary rootBelow 10 0 truebdd).run createManager =
    some (3, sortQuantified) := rfl
  have h2 : (getAtomKernel vocabulary 10 ⟨.predicate 0, []⟩ []).run sortQuantified =
    some (4, withAtom) := rfl
  have h3 : (ifthenelse 10 4 truebdd falsebdd).run withAtom = some (4, withAtomBDD) := rfl
  have hrun : ReflTransGen (Step vocabulary pointerLess rootBelow) createManager sortQuantified :=
    .single (.existsquantify (by decide) h1)
  exact (hrun.tail (.atomKernel (fun _ hb => absurd hb List.not_mem_nil) h2)).tail
    (.ifthenelse (by decide) (by decide) (by decide) h3)

theorem conjoined_reachable :
    ReflTransGen (Step vocabulary pointerLess always) createManager conjoined := by
  have h1 : (existsquantify vocabulary always 10 0 4).run withAtomBDD =
    some (5, atomQuantified) := rfl
  have h2 : (conjunction pointerLess 10 3 4).run atomQuantified = some (6, conjoined) := rfl
  have hrun := run_of_rootBelow withAtomBDD_reachable
  exact (hrun.tail (.existsquantify (by decide) h1)).tail
    (.conjunction (by decide) (by decide) h2)

theorem reachable_unordered :
    ∃ s, ReflTransGen (Step vocabulary pointerLess always) createManager s ∧ ¬ Canonical s.lt s.bdd ∧
    ∃ b b', s.bdd b ≠ none ∧ s.bdd b' ≠ none ∧ Agree s.bdd b b' ∧ b ≠ b' := by
  have h3 : conjoined.bdd 3 = some (.branch 3 0 1) := rfl
  have h4 : conjoined.bdd 4 = some (.branch 4 0 1) := rfl
  have h5 : conjoined.bdd 5 = some (.branch 3 4 1) := rfl
  have h6 : conjoined.bdd 6 = some (.branch 4 3 1) := rfl
  refine ⟨conjoined, conjoined_reachable, fun hc => ?_, 5, 6, by decide, by decide, fun w => ?_,
    by decide⟩
  · obtain ⟨o, o', ho, ho', hlt⟩ := (hc.ordered _ _ _ _ h5).1 _ _ _ h4
    rw [show conjoined.order 3 = some ⟨.standard, 0⟩ from rfl] at ho
    rw [show conjoined.order 4 = some ⟨.standard, 1⟩ from rfl] at ho'
    cases ho
    cases ho'
    exact absurd hlt (by decide)
  · have htrue : Holds conjoined.bdd w 0 ↔ true = true := holds_leaf rfl
    have hfalse : Holds conjoined.bdd w 1 ↔ false = true := holds_leaf rfl
    rw [holds_branch h5, holds_branch h6, holds_branch h3, holds_branch h4, htrue, hfalse]
    simp only [Choice]
    tauto

theorem withAtomBDD_canonical : Canonical withAtomBDD.lt withAtomBDD.bdd ∧
    ∀ b b', withAtomBDD.bdd b ≠ none → withAtomBDD.bdd b' ≠ none → Agree withAtomBDD.bdd b b' →
      b = b' :=
  (reachable_canonical_iff (run_of_rootBelow withAtomBDD_reachable)).mpr
    withAtomBDD_reachable

end Unordered

end FOBDDManager

end FoBdd
