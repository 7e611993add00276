import DeclarativeLocalSearch.Theory.Rules

namespace Theory

variable {S P F D : Type}

inductive Context where
  | positive
  | negative
  | both
  deriving DecidableEq

def Context.negate : Context → Context
  | .positive => .negative
  | .negative => .positive
  | .both => .both

def Context.under (c : Context) : SIGN → Context
  | .pos => c
  | .neg => c.negate

mutual

def Term.collectSymbolOccurences (c : Context) : Term S P F D → List (PFSymbol S P F × Context)
  | .var _ => []
  | .func f args => (.function f, c) :: collectTermOccurences c args
  | .dom _ _ => []
  | .agg _ sets => collectSetOccurences c sets

def collectTermOccurences (c : Context) : List (Term S P F D) → List (PFSymbol S P F × Context)
  | [] => []
  | t :: ts => t.collectSymbolOccurences c ++ collectTermOccurences c ts

def QuantSetExpr.collectSymbolOccurences (c : Context) : QuantSetExpr S P F D → List (PFSymbol S P F × Context)
  | .mk _ condition term => term.collectSymbolOccurences c ++ condition.collectSymbolOccurences c

def collectSetOccurences (c : Context) : List (QuantSetExpr S P F D) → List (PFSymbol S P F × Context)
  | [] => []
  | s :: ss => s.collectSymbolOccurences c ++ collectSetOccurences c ss

-- the context of an aggregate term is that of its atom
def Formula.collectSymbolOccurences (c : Context) : Formula S P F D → List (PFSymbol S P F × Context)
  | .pred sign symbol args => (symbol, c.under sign) :: collectTermOccurences (c.under sign) args
  | .eqChain sign _ _ terms => collectTermOccurences (c.under sign) terms
  | .equiv _ l r => l.collectSymbolOccurences .both ++ r.collectSymbolOccurences .both
  | .bool sign _ subs => collectFormulaOccurences (c.under sign) subs
  | .quant sign _ _ f => f.collectSymbolOccurences (c.under sign)
  | .agg _ bound _ _ sets => bound.collectSymbolOccurences .both ++ collectSetOccurences .both sets

def collectFormulaOccurences (c : Context) : List (Formula S P F D) → List (PFSymbol S P F × Context)
  | [] => []
  | f :: fs => f.collectSymbolOccurences c ++ collectFormulaOccurences c fs

end

section Lists

attribute [local simp] Term.collectSymbolOccurences collectTermOccurences
  QuantSetExpr.collectSymbolOccurences collectSetOccurences Formula.collectSymbolOccurences
  collectFormulaOccurences

theorem collectTermOccurences_eq (c : Context) (ts : List (Term S P F D)) :
    collectTermOccurences c ts = ts.flatMap (Term.collectSymbolOccurences c) := by
  induction ts with
  | nil => rfl
  | cons t ts ih => rw [collectTermOccurences, ih, List.flatMap_cons]

theorem collectSetOccurences_eq (c : Context) (ss : List (QuantSetExpr S P F D)) :
    collectSetOccurences c ss = ss.flatMap (QuantSetExpr.collectSymbolOccurences c) := by
  induction ss with
  | nil => rfl
  | cons s ss ih => rw [collectSetOccurences, ih, List.flatMap_cons]

theorem collectFormulaOccurences_eq (c : Context) (fs : List (Formula S P F D)) :
    collectFormulaOccurences c fs = fs.flatMap (Formula.collectSymbolOccurences c) := by
  induction fs with
  | nil => rfl
  | cons f fs ih => rw [collectFormulaOccurences, ih, List.flatMap_cons]

end Lists

def Term.symbols (t : Term S P F D) : List (PFSymbol S P F) := (t.collectSymbolOccurences .both).map Prod.fst

def QuantSetExpr.symbols (s : QuantSetExpr S P F D) : List (PFSymbol S P F) :=
  (s.collectSymbolOccurences .both).map Prod.fst

def Formula.symbols (f : Formula S P F D) : List (PFSymbol S P F) := (f.collectSymbolOccurences .both).map Prod.fst

theorem Context.under_both (sign : SIGN) : Context.both.under sign = .both := by cases sign <;> rfl

theorem flatMap_symbols {α : Type} {l : List α} {collect : Context → α → List (PFSymbol S P F × Context)}
    {symbols : α → List (PFSymbol S P F)} (h : ∀ x ∈ l, ∀ c, (collect c x).map Prod.fst = symbols x) (c : Context) :
    (l.flatMap (collect c)).map Prod.fst = l.flatMap symbols := by
  rw [List.map_flatMap]
  exact List.flatMap_congr fun x hx => h x hx c

theorem collect_symbols : (∀ (t : Term S P F D) c, (t.collectSymbolOccurences c).map Prod.fst = t.symbols) ∧
    (∀ (s : QuantSetExpr S P F D) c, (s.collectSymbolOccurences c).map Prod.fst = s.symbols) ∧
    ∀ (f : Formula S P F D) c, (f.collectSymbolOccurences c).map Prod.fst = f.symbols := by
  refine Formula.induct ?_ ?_ ?_ ?_ ?_ ?_ ?_ ?_ ?_ ?_ ?_
  · exact fun _ _ => rfl
  · intro f args ih c
    simp only [Term.symbols, Term.collectSymbolOccurences, collectTermOccurences_eq, List.map_cons, flatMap_symbols ih]
  · exact fun _ _ _ => rfl
  · intro g sets ih c
    simp only [Term.symbols, Term.collectSymbolOccurences, collectSetOccurences_eq, flatMap_symbols ih]
  · intro vars f t ihf iht c
    simp only [QuantSetExpr.symbols, QuantSetExpr.collectSymbolOccurences, List.map_append, ihf, iht]
  · intro sign symbol args ih c
    simp only [Formula.symbols, Formula.collectSymbolOccurences, collectTermOccurences_eq, List.map_cons,
      flatMap_symbols ih]
  · intro sign conj comps terms ih c
    simp only [Formula.symbols, Formula.collectSymbolOccurences, collectTermOccurences_eq, flatMap_symbols ih]
  · exact fun _ _ _ _ _ _ => rfl
  · intro sign conj subs ih c
    simp only [Formula.symbols, Formula.collectSymbolOccurences, collectFormulaOccurences_eq, flatMap_symbols ih]
  · exact fun _ _ _ _ ih _ => (ih _).trans (ih _).symm
  · exact fun _ _ _ _ _ _ _ _ => rfl

section Symbols

variable {symbol : PFSymbol S P F}

theorem mem_symbols_func {f : F} {args : List (Term S P F D)} :
    symbol ∈ (Term.func f args).symbols ↔ symbol = .function f ∨ ∃ t ∈ args, symbol ∈ t.symbols := by
  rw [Term.symbols, Term.collectSymbolOccurences, collectTermOccurences_eq, List.map_cons, List.mem_cons,
    List.map_flatMap, List.mem_flatMap]
  rfl

theorem mem_symbols_agg {g : AggFunction} {sets : List (QuantSetExpr S P F D)} :
    symbol ∈ (Term.agg g sets).symbols ↔ ∃ s ∈ sets, symbol ∈ s.symbols := by
  rw [Term.symbols, Term.collectSymbolOccurences, collectSetOccurences_eq, List.map_flatMap, List.mem_flatMap]
  rfl

theorem mem_symbols_set {vars : List (Variable S)} {f : Formula S P F D} {t : Term S P F D} :
    symbol ∈ (QuantSetExpr.mk vars f t).symbols ↔ symbol ∈ t.symbols ∨ symbol ∈ f.symbols := by
  rw [QuantSetExpr.symbols, QuantSetExpr.collectSymbolOccurences, List.map_append, List.mem_append]
  rfl

theorem mem_symbols_pred {sign : SIGN} {s : PFSymbol S P F} {args : List (Term S P F D)} :
    symbol ∈ (Formula.pred sign s args).symbols ↔ symbol = s ∨ ∃ t ∈ args, symbol ∈ t.symbols := by
  rw [Formula.symbols, Formula.collectSymbolOccurences, Context.under_both, collectTermOccurences_eq, List.map_cons,
    List.mem_cons, List.map_flatMap, List.mem_flatMap]
  rfl

theorem mem_symbols_eqChain {sign : SIGN} {conj : Bool} {comps : List CompType} {terms : List (Term S P F D)} :
    symbol ∈ (Formula.eqChain sign conj comps terms).symbols ↔ ∃ t ∈ terms, symbol ∈ t.symbols := by
  rw [Formula.symbols, Formula.collectSymbolOccurences, Context.under_both, collectTermOccurences_eq,
    List.map_flatMap, List.mem_flatMap]
  rfl

theorem mem_symbols_equiv {sign : SIGN} {l r : Formula S P F D} :
    symbol ∈ (Formula.equiv sign l r).symbols ↔ symbol ∈ l.symbols ∨ symbol ∈ r.symbols := by
  rw [Formula.symbols, Formula.collectSymbolOccurences, List.map_append, List.mem_append]
  rfl

theorem mem_symbols_bool {sign : SIGN} {conj : Bool} {subs : List (Formula S P F D)} :
    symbol ∈ (Formula.bool sign conj subs).symbols ↔ ∃ f ∈ subs, symbol ∈ f.symbols := by
  rw [Formula.symbols, Formula.collectSymbolOccurences, Context.under_both, collectFormulaOccurences_eq,
    List.map_flatMap, List.mem_flatMap]
  rfl

theorem mem_symbols_quant {sign : SIGN} {q : QUANT} {vars : List (Variable S)} {f : Formula S P F D} :
    symbol ∈ (Formula.quant sign q vars f).symbols ↔ symbol ∈ f.symbols := by
  rw [Formula.symbols, Formula.collectSymbolOccurences, Context.under_both]
  rfl

theorem mem_symbols_aggForm {sign : SIGN} {bound : Term S P F D} {comp : CompType} {g : AggFunction}
    {sets : List (QuantSetExpr S P F D)} : symbol ∈ (Formula.agg sign bound comp g sets).symbols ↔
      symbol ∈ bound.symbols ∨ ∃ s ∈ sets, symbol ∈ s.symbols := by
  rw [Formula.symbols, Formula.collectSymbolOccurences, collectSetOccurences_eq, List.map_append, List.mem_append,
    List.map_flatMap, List.mem_flatMap]
  rfl

end Symbols

end Theory
