import DeclarativeLocalSearch.Theory.Binding
import DeclarativeLocalSearch.Theory.Semantics

namespace Theory

inductive STDSORT where
  | nat
  | int
  | float
  | string
  deriving DecidableEq, Repr

inductive STDFUNC where
  | unaryMinus
  | addition
  | substraction
  | product
  | division
  | abs
  | modulo
  | exponential
  | minElem
  | maxElem
  | successor
  | predecessor
  deriving DecidableEq, Repr

-- a sort is above its parents
structure SortedVocabulary (S P F : Type) where
  parents : S → List S
  height : S → ℕ
  height_lt : ∀ s, ∀ p ∈ parents s, height p < height s
  std : STDSORT → S
  outsort : F → S
  sort : PFSymbol S P F → ℕ → S
  stdFunction : F → Option STDFUNC

theorem height_lt_nil {S : Type} : ∀ _ : S, ∀ p ∈ ([] : List S), 0 < 0 := fun _ _ h => absurd h List.not_mem_nil

namespace SortedVocabulary

variable {S P F D : Type} [DecidableEq S] (V : SortedVocabulary S P F)

def reaches : ℕ → S → S → Bool
  | 0, a, b => decide (a = b)
  | n + 1, a, b => decide (a = b) || (V.parents a).any fun p => reaches n p b

-- the vocabulary, if there is one, by the sorts it contains
def isSubsort (voc : Option (S → Bool)) (a b : S) : Bool :=
  (match voc with
    | none => true
    | some contains => contains a && contains b) && V.reaches (V.height a) a b

theorem reaches_iff {n : ℕ} {a b : S} (hn : V.height a ≤ n) :
    V.reaches n a b = true ↔ Relation.ReflTransGen (fun s p => p ∈ V.parents s) a b := by
  induction n generalizing a with
  | zero =>
    have hroot : ∀ p, p ∉ V.parents a := fun p hp => absurd (V.height_lt a p hp) (by omega)
    rw [reaches, decide_eq_true_iff]
    refine ⟨fun h => h ▸ Relation.ReflTransGen.refl, fun h => ?_⟩
    rcases Relation.ReflTransGen.cases_head h with h | ⟨p, hp, -⟩
    · exact h
    · exact absurd hp (hroot p)
  | succ n ih =>
    have step : ∀ p ∈ V.parents a, (V.reaches n p b = true ↔
        Relation.ReflTransGen (fun s p => p ∈ V.parents s) p b) := fun p hp =>
      ih (Nat.le_of_lt_succ (Nat.lt_of_lt_of_le (V.height_lt a p hp) hn))
    rw [reaches, Bool.or_eq_true, decide_eq_true_iff, List.any_eq_true]
    constructor
    · rintro (h | ⟨p, hp, h⟩)
      · exact h ▸ Relation.ReflTransGen.refl
      · exact Relation.ReflTransGen.head hp ((step p hp).mp h)
    · intro h
      rcases Relation.ReflTransGen.cases_head h with h | ⟨p, hp, h⟩
      · exact Or.inl h
      · exact Or.inr ⟨p, hp, (step p hp).mpr h⟩

def ancestorsUpTo (voc : Option (S → Bool)) : ℕ → S → List S
  | 0, _ => []
  | n + 1, a => (V.parents a).flatMap fun p =>
    (if voc.elim true (· p) then [p] else []) ++ ancestorsUpTo voc n p

def ancestors (voc : Option (S → Bool)) (a : S) : List S := V.ancestorsUpTo voc (V.height a) a

-- the nearest common ancestor, if there is one only
def resolve (voc : Option (S → Bool)) (a b : S) : Option S :=
  let common := ((a :: V.ancestors voc a).filter (· ∈ b :: V.ancestors voc b)).dedup
  match common with
  | [] => none
  | [s] => some s
  | _ => match common.filter fun s => common.all fun t => decide (s ∉ V.ancestors voc t) with
    | [s] => some s
    | _ => none

mutual

def termSort : Term S P F D → Option S
  | .var v => some v.sort
  | .func f _ => some (V.outsort f)
  | .dom s _ => some s
  | .agg .card _ => some (V.std .nat)
  | .agg .min sets => setsSort sets none
  | .agg .max sets => setsSort sets none
  | .agg .sum sets => setsSort sets none >>= numeric
  | .agg .prod sets => setsSort sets none >>= numeric
where
  numeric (s : S) : Option S :=
    if V.isSubsort none s (V.std .nat) then some (V.std .nat)
    else if V.isSubsort none s (V.std .int) then some (V.std .int)
    else if V.isSubsort none s (V.std .float) then some (V.std .float)
    else none

def setSort : QuantSetExpr S P F D → Option S
  | .mk _ _ term => termSort term

def setsSort : List (QuantSetExpr S P F D) → Option S → Option S
  | [], currsort => currsort
  | s :: ss, currsort => do
    let sort ← setSort s
    let currsort ← currsort.elim (some sort) fun currsort => V.resolve none currsort sort
    setsSort ss (some currsort)

end

end SortedVocabulary

-- the tuples over the sorts of the symbol
def inUniverse {S P F D : Type} (V : SortedVocabulary S P F) (arity : PFSymbol S P F → ℕ) (I : Structure S P F D)
    (symbol : PFSymbol S P F) (ds : List D) : Prop :=
  ds.length = arity symbol ∧ ∀ i d, ds[i]? = some d → I.sort (V.sort symbol i) d

end Theory
