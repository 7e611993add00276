import DeclarativeLocalSearch.Definitions.RecursionOverNegation

set_option linter.unusedSectionVars false

open Theory (SIGN Variable PFSymbol Term QuantSetExpr Formula Rule SortedVocabulary Structure Context Atoms Refines)
open Theory (ThreeValuedSemantics defined)
open BootstrappingUtils SplitDefinitions
open Approximator (agree_iff)

variable {S P F D : Type} [DecidableEq S]

namespace DefinitionUtils

section ApproxTotal

variable [DecidableEq P] [DecidableEq F] (samedef : ℕ → ℕ → Bool) (splitDefs : Bool) (rules : List (Rule S P F D))

def approxRecurionsOverNegationSymbols : List (PFSymbol S P F) :=
  rules.flatMap fun r => ((r.body.collectSymbolOccurences .positive).filter fun occ =>
    decide (occ.2 ≠ .positive) && (heads rules).contains occ.1).map Prod.fst

def approxHasRecursionOverNegation : Bool := !(approxRecurionsOverNegationSymbols rules).isEmpty

def ruleAggSymbols (r : Rule S P F D) : List (PFSymbol S P F) := termsAggSymbols r.args ++ formulaAggSymbols r.body

-- the definition is split first
def approxContainsRecDefAggTerms : Bool :=
  (SplitDefinitions.execute samedef splitDefs ⟨[], [rules], []⟩).definitions.any fun d =>
    d.any fun r => (heads d).any fun s => (ruleAggSymbols r).contains s

def isPredicate : PFSymbol S P F → Bool
  | .function _ => false
  | _ => true

def approxTotal : Bool :=
  !approxHasRecursionOverNegation rules && !approxContainsRecDefAggTerms samedef splitDefs rules &&
    (heads rules).all isPredicate

end ApproxTotal

section Positive

open Theory.Kleene (Between always certainly under)

theorem collect_both : (∀ (t : Term S P F D) occ, occ ∈ t.collectSymbolOccurences .both → occ.2 = .both) ∧
    (∀ (s : QuantSetExpr S P F D) occ, occ ∈ s.collectSymbolOccurences .both → occ.2 = .both) ∧
    ∀ (f : Formula S P F D) occ, occ ∈ f.collectSymbolOccurences .both → occ.2 = .both := by
  have each : ∀ {α : Type} {collect : α → List (PFSymbol S P F × Context)} {l : List α},
      (∀ x ∈ l, ∀ occ ∈ collect x, occ.2 = .both) → ∀ occ ∈ l.flatMap collect, occ.2 = .both := by
    intro α collect l h occ hocc
    obtain ⟨x, hx, hocc⟩ := List.mem_flatMap.mp hocc
    exact h x hx occ hocc
  refine Formula.induct ?_ ?_ ?_ ?_ ?_ ?_ ?_ ?_ ?_ ?_ ?_
  · exact fun _ _ h => absurd h List.not_mem_nil
  · intro f args ih occ h
    rw [Term.collectSymbolOccurences, Theory.collectTermOccurences_eq, List.mem_cons] at h
    rcases h with rfl | h
    · rfl
    · exact each ih occ h
  · exact fun _ _ _ h => absurd h List.not_mem_nil
  · intro g sets ih occ h
    rw [Term.collectSymbolOccurences, Theory.collectSetOccurences_eq] at h
    exact each ih occ h
  · intro vars f t ihf iht occ h
    exact (List.mem_append.mp h).elim (iht occ) (ihf occ)
  · intro sign symbol args ih occ h
    rw [Formula.collectSymbolOccurences, Context.under_both, Theory.collectTermOccurences_eq, List.mem_cons] at h
    rcases h with rfl | h
    · rfl
    · exact each ih occ h
  · intro sign conj comps terms ih occ h
    rw [Formula.collectSymbolOccurences, Context.under_both, Theory.collectTermOccurences_eq] at h
    exact each ih occ h
  · exact fun _ _ _ ihl ihr occ h => (List.mem_append.mp h).elim (ihl occ) (ihr occ)
  · intro sign conj subs ih occ h
    rw [Formula.collectSymbolOccurences, Context.under_both, Theory.collectFormulaOccurences_eq] at h
    exact each ih occ h
  · intro sign q vars f ih occ h
    rw [Formula.collectSymbolOccurences, Context.under_both] at h
    exact ih occ h
  · intro sign bound comp g sets ihb ih occ h
    rw [Formula.collectSymbolOccurences, Theory.collectSetOccurences_eq] at h
    exact (List.mem_append.mp h).elim (ihb occ) (each ih occ)

theorem mem_termsAggSymbols {s : PFSymbol S P F} {ts : List (Term S P F D)} :
    s ∈ termsAggSymbols ts ↔ ∃ t ∈ ts, s ∈ aggSymbols t := by
  induction ts with
  | nil => exact iff_of_false List.not_mem_nil nofun
  | cons t ts ih => rw [termsAggSymbols, List.mem_append, ih, List.exists_mem_cons_iff]

theorem mem_formulasAggSymbols {s : PFSymbol S P F} {fs : List (Formula S P F D)} :
    s ∈ formulasAggSymbols fs ↔ ∃ f ∈ fs, s ∈ formulaAggSymbols f := by
  induction fs with
  | nil => exact iff_of_false List.not_mem_nil nofun
  | cons f fs ih => rw [formulasAggSymbols, List.mem_append, ih, List.exists_mem_cons_iff]

theorem mem_aggSymbols {q : P} (t : Term S P F D) : .predicate q ∈ t.symbols → .predicate q ∈ aggSymbols t := by
  refine (@Formula.induct S P F D (fun t => .predicate q ∈ t.symbols → .predicate q ∈ aggSymbols t)
    (fun _ => True) (fun _ => True) ?_ ?_ ?_ ?_ ?_ ?_ ?_ ?_ ?_ ?_ ?_).1 t
  · exact fun _ h => absurd h List.not_mem_nil
  · intro f args ih h
    obtain ⟨t, ht, hs⟩ := (Theory.mem_symbols_func.mp h).resolve_left nofun
    exact mem_termsAggSymbols.mpr ⟨t, ht, ih t ht hs⟩
  · exact fun _ _ h => absurd h List.not_mem_nil
  · exact fun g sets _ h => List.mem_flatMap.mpr (Theory.mem_symbols_agg.mp h)
  · exact fun _ _ _ _ _ => trivial
  · exact fun _ _ _ _ => trivial
  · exact fun _ _ _ _ _ => trivial
  · exact fun _ _ _ _ _ => trivial
  · exact fun _ _ _ _ => trivial
  · exact fun _ _ _ _ _ => trivial
  · exact fun _ _ _ _ _ _ _ => trivial

theorem exists_occurrence {f : Formula S P F D} {s : PFSymbol S P F} (c : Context) (h : s ∈ f.symbols) :
    ∃ c', (s, c') ∈ f.collectSymbolOccurences c := by
  rw [← Theory.collect_symbols.2.2 f c] at h
  obtain ⟨⟨s, c'⟩, hmem, rfl⟩ := List.mem_map.mp h
  exact ⟨c', hmem⟩

def contextOf : Bool → Context
  | true => .positive
  | false => .negative

theorem under_contextOf (v : Bool) (sign : SIGN) : (contextOf v).under sign = contextOf (under v sign) := by
  cases v <;> cases sign <;> rfl

theorem eq_true_of_contextOf {v : Bool} (h : contextOf v = .positive) : v = true := by
  cases v
  · exact nomatch h
  · rfl

-- where the formula has to get the truth value, the symbols of the block are only wanted true, and no aggregate term
-- has one
structure Positive (block : PFSymbol S P F → Prop) (v : Bool) (f : Formula S P F D) : Prop where
  occurrences : ∀ occ ∈ f.collectSymbolOccurences (contextOf v), block occ.1 → occ.2 = .positive
  aggTerms : ∀ s ∈ formulaAggSymbols f, ¬block s

variable {I : Structure S P F D} {X Y : Atoms S P F D} {block : PFSymbol S P F → Prop}
  {p : P → List D → Prop}

theorem refines_of_agree {symbols : List (PFSymbol S P F)} (hblock : ∀ s ∈ symbols, ¬block s)
    (hagree : ∀ s ∈ symbols, ¬block s → ∀ ds, (s, ds) ∈ Y → (s, ds) ∈ X) : Refines symbols X X X Y :=
  fun s hs ds => ⟨id, hagree s hs (hblock s hs) ds⟩

theorem not_block_of_both {f : Formula S P F D} {v : Bool} (hpos : Positive block v f)
    (hboth : ∀ occ ∈ f.collectSymbolOccurences (contextOf v), occ.2 = .both) : ∀ s ∈ f.symbols, ¬block s := by
  intro s hs hs'
  obtain ⟨c, hc⟩ := exists_occurrence (contextOf v) hs
  exact nomatch (hboth _ hc).symm.trans (hpos.occurrences _ hc hs')

variable (hpred : ∀ s, block s → ∃ q, s = .predicate q)

include hpred

theorem not_block_of_term {t : Term S P F D} (h : ∀ s ∈ aggSymbols t, ¬block s) : ∀ s ∈ t.symbols, ¬block s := by
  intro s hs hs'
  obtain ⟨q, rfl⟩ := hpred s hs'
  exact h _ (mem_aggSymbols t hs) hs'

variable (hX : X = (I.reinterpret p I.function).atoms)

include hX

theorem always_possible {sign : SIGN} {symbol : PFSymbol S P F} {args : List (Term S P F D)} {v : Bool}
    {e : Variable S → D} (hpos : Positive block v (.pred sign symbol args))
    (hagree : ∀ s ∈ (Formula.pred sign symbol args).symbols, ¬block s → ∀ ds, (s, ds) ∈ Y → (s, ds) ∈ X)
    (h : always I X X v (.pred sign symbol args) e) : always I X Y v (.pred sign symbol args) e := by
  have hterms : ∀ t ∈ args, ∀ s ∈ t.symbols, ¬block s := fun t ht =>
    not_block_of_term hpred fun s hs => hpos.aggTerms s (mem_termsAggSymbols.mpr ⟨t, ht, hs⟩)
  by_cases hsymbol : block symbol
  swap
  · refine Theory.Kleene.always_mono (refines_of_agree (fun s hs => ?_) hagree) h
    rcases Theory.mem_symbols_pred.mp hs with rfl | ⟨t, ht, hs⟩
    · exact hsymbol
    · exact hterms t ht s hs
  have hv : under v sign = true := by
    have hocc := hpos.occurrences (symbol, (contextOf v).under sign) List.mem_cons_self hsymbol
    rw [under_contextOf] at hocc
    exact eq_true_of_contextOf hocc
  have hJ := h p I.function (by subst hX; exact Theory.Kleene.between_atoms.mpr fun _ _ _ => Iff.rfl)
  rw [Structure.holds, Theory.Kleene.apply_iff, hv] at hJ
  obtain ⟨ds, hvalues, hatom⟩ := hJ.mpr rfl
  intro p' g' hbetween
  rw [Structure.holds, Theory.Kleene.apply_iff, hv]
  refine iff_of_true ⟨ds, ?_, ?_⟩ rfl
  · rw [← hvalues, Structure.values_eq_map, Structure.values_eq_map]
    refine List.map_congr_left fun t ht =>
      ((@Structure.agreeOn S P F D (I.reinterpret p I.function) p' g' _).1 t ?_ e).symm
    intro s hs ds'
    have hmem : s ∈ (Formula.pred sign symbol args).symbols := Theory.mem_symbols_pred.mpr (Or.inr ⟨t, ht, hs⟩)
    have hs' := hbetween s hmem ds'
    subst hX
    exact ⟨hs'.1, fun hatom' => hagree s hmem (hterms t ht s hs) ds' (hs'.2 hatom')⟩
  · subst hX
    exact (hbetween symbol (Theory.mem_symbols_pred.mpr (Or.inl rfl)) ds).1 hatom

-- what is certain where only the certain atoms are possible stays certain where more of the block is possible
theorem certainly_possible : ∀ (f : Formula S P F D),
    (∀ s ∈ f.symbols, ¬block s → ∀ ds, (s, ds) ∈ Y → (s, ds) ∈ X) →
    ∀ v e, Positive block v f → certainly I X X v f e → certainly I X Y v f e := by
  refine (@Formula.induct S P F D (fun _ => True) (fun _ => True) _ ?_ ?_ ?_ ?_ ?_ ?_ ?_ ?_ ?_ ?_ ?_).2.2
  · exact fun _ => trivial
  · exact fun _ _ _ => trivial
  · exact fun _ _ => trivial
  · exact fun _ _ _ => trivial
  · exact fun _ _ _ _ _ => trivial
  · exact fun sign symbol args _ hagree v e hpos h => always_possible hpred hX hpos hagree h
  · intro sign conj comps terms _ hagree v e hpos h
    refine Theory.Kleene.always_mono (refines_of_agree (fun s hs => ?_) hagree) h
    obtain ⟨t, ht, hs⟩ := Theory.mem_symbols_eqChain.mp hs
    exact not_block_of_term hpred (fun s hs => hpos.aggTerms s (mem_termsAggSymbols.mpr ⟨t, ht, hs⟩)) s hs
  · intro sign l r _ _ hagree v e hpos h
    have hnone := not_block_of_both hpos fun occ hocc =>
      (List.mem_append.mp hocc).elim (collect_both.2.2 l occ) (collect_both.2.2 r occ)
    exact Theory.Kleene.certainly_mono _ (refines_of_agree hnone hagree) v e h
  · intro sign conj subs ih hagree v e hpos h
    have hsub : ∀ f ∈ subs, certainly I X X (under v sign) f e → certainly I X Y (under v sign) f e := by
      intro f hf
      refine ih f hf (fun s hs => hagree s (Theory.mem_symbols_bool.mpr ⟨f, hf, hs⟩)) _ e
        ⟨fun occ hocc => hpos.occurrences occ ?_, fun s hs => hpos.aggTerms s (mem_formulasAggSymbols.mpr ⟨f, hf, hs⟩)⟩
      rw [Formula.collectSymbolOccurences, Theory.collectFormulaOccurences_eq, under_contextOf]
      exact List.mem_flatMap.mpr ⟨f, hf, hocc⟩
    rw [Theory.Kleene.certainly_bool] at h ⊢
    by_cases hall : under v sign = conj
    · rw [if_pos hall] at h ⊢
      exact fun f hf => hsub f hf (h f hf)
    · rw [if_neg hall] at h ⊢
      exact h.imp fun f => fun ⟨hf, hcertain⟩ => ⟨hf, hsub f hf hcertain⟩
  · intro sign q vars f ih hagree v e hpos h
    have hsub : ∀ a : I.Tuple vars,
        certainly I X X (under v sign) f (I.extend e a) → certainly I X Y (under v sign) f (I.extend e a) := by
      intro a
      refine ih (fun s hs => hagree s (Theory.mem_symbols_quant.mpr hs)) _ _ ⟨fun occ hocc => hpos.occurrences occ ?_,
        hpos.aggTerms⟩
      rw [Formula.collectSymbolOccurences, under_contextOf]
      exact hocc
    rw [certainly] at h ⊢
    by_cases hall : under v sign = (q == .univ)
    · rw [if_pos hall] at h ⊢
      exact fun a => hsub a (h a)
    · rw [if_neg hall] at h ⊢
      exact h.imp hsub
  · intro sign bound comp g sets _ _ hagree v e hpos h
    have hnone := not_block_of_both hpos fun occ hocc => collect_both.2.2 (.agg sign bound comp g sets) occ hocc
    exact Theory.Kleene.always_mono (refines_of_agree hnone hagree) h

end Positive

section Total

open Relation (ReflTransGen)

variable [DecidableEq P] [DecidableEq F] {V : SortedVocabulary S P F} {rules : List (Rule S P F D)}
  {samedef : ℕ → ℕ → Bool} {splitDefs : Bool}

-- the builtin predicates are not defined
def UserDefined (rules : List (Rule S P F D)) : Prop :=
  ∀ s ∈ heads rules, (∃ q, s = .predicate q) ∨ ∃ f, s = .function f

theorem approxTotal_iff : approxTotal samedef splitDefs rules = true ↔
    (∀ r ∈ rules, ∀ occ ∈ r.body.collectSymbolOccurences .positive, occ.1 ∈ heads rules → occ.2 = .positive) ∧
    (∀ d ∈ (SplitDefinitions.execute samedef splitDefs ⟨[], [rules], []⟩).definitions, ∀ r ∈ d, ∀ s ∈ heads d,
      s ∉ ruleAggSymbols r) ∧ ∀ s ∈ heads rules, isPredicate s = true := by
  rw [approxTotal, Bool.and_eq_true, Bool.and_eq_true, and_assoc]
  refine and_congr ?_ (and_congr ?_ List.all_eq_true)
  · rw [approxHasRecursionOverNegation, approxRecurionsOverNegationSymbols, Bool.not_not, List.isEmpty_iff,
      List.flatMap_eq_nil_iff]
    refine forall₂_congr fun r _ => ?_
    rw [List.map_eq_nil_iff, List.filter_eq_nil_iff]
    refine forall₂_congr fun occ _ => ?_
    rw [Bool.and_eq_true, decide_eq_true_iff, List.contains_iff_mem]
    exact ⟨fun h hs => by_contra fun hne => h ⟨hne, hs⟩, fun h ⟨hne, hs⟩ => hne (h hs)⟩
  · simp [approxContainsRecDefAggTerms]

-- the rules of connected symbols stay together
theorem not_mem_ruleAggSymbols (hsolved : Solved (getDefinitionInfo V [rules]) samedef)
    (htotal : approxTotal samedef splitDefs rules = true) {r : Rule S P F D} (hr : r ∈ rules) {s : PFSymbol S P F}
    (hs : s ∈ heads rules) (hconnected : Connected (getDefinitionInfo V [rules]) 0 (definedSymbol r) s) :
    s ∉ ruleAggSymbols r := by
  have hagg := (approxTotal_iff.mp htotal).2.1
  cases splitDefs with
  | false => exact hagg rules (List.mem_singleton_self _) r hr s hs
  | true =>
    have hname : ∀ r ∈ rules, ∃ i, (named 0 [rules])[i]? = some (0, r) := fun r hr =>
      List.mem_iff_getElem?.mp (mem_named.mpr ⟨0, rules, rfl, rfl, hr⟩)
    obtain ⟨r', hr', rfl⟩ := List.mem_map.mp hs
    obtain ⟨i, hi⟩ := hname r hr
    obtain ⟨j, hj⟩ := hname r' hr'
    have hsame : SameDef (getDefinitionInfo V [rules]) i j :=
      sameDef_iff.mpr ⟨_, _, getDefinitionInfo_getElem hi, getDefinitionInfo_getElem hj, rfl, hconnected⟩
    obtain ⟨g, hg, hig⟩ := exists_partsOf hsolved hi
    obtain ⟨g', hg', hjg⟩ := exists_partsOf hsolved hj
    obtain rfl := (sameDef_of_split hsolved (mem_partsOf.mp hg).1 (mem_partsOf.mp hg').1 hig hjg).mp hsame
    refine hagg (getOriginals [rules] g) (List.mem_map_of_mem (mem_partsOf.mp hg).1) r
      (mem_getOriginals.mpr ⟨i, hig, 0, hi⟩) _ (List.mem_map_of_mem (mem_getOriginals.mpr ⟨j, hjg, 0, hj⟩))

theorem predicate_of_mem (huser : UserDefined rules) (htotal : approxTotal samedef splitDefs rules = true)
    {s : PFSymbol S P F} (hs : s ∈ heads rules) : ∃ q, s = .predicate q := by
  rcases huser s hs with hq | ⟨f, rfl⟩
  · exact hq
  · exact nomatch (approxTotal_iff.mp htotal).2.2 _ hs

theorem graphed_of_predicate {r : Rule S P F D} {q : P} (h : definedSymbol r = .predicate q) : r.graphed = r := by
  rw [definedSymbol] at h
  unfold Rule.graphed at h ⊢
  split
  · next heq hargs =>
    rw [heq, hargs] at h
    cases h
  · rfl

theorem definedIn_of_mem {s : PFSymbol S P F} (hs : s ∈ heads rules) : DefinedIn (getDefinitionInfo V [rules]) s 0 :=
  definedIn_iff.mpr (List.mem_map.mp hs)

-- a symbol that a rule uses is of the component of the rule, or reaches fewer symbols
theorem connected_or_lt {r : Rule S P F D} (hr : r ∈ rules) {s : PFSymbol S P F} (hs : s ∈ r.graphed.symbols) :
    Connected (getDefinitionInfo V [rules]) 0 (definedSymbol r) s ∨
      (reach (getDefinitionInfo V [rules]) 0 s).ncard <
        (reach (getDefinitionInfo V [rules]) 0 (definedSymbol r)).ncard := by
  obtain ⟨sign, hopens⟩ := opens_of_symbols (V := V) hs
  have hdepends : DependsAny (getDefinitionInfo V [rules]) 0 (definedSymbol r) s :=
    ⟨sign, .body (mem_info.mpr ⟨r, hr, rfl⟩) rfl hopens⟩
  exact or_iff_not_imp_left.mpr (reach_lt (definedIn_of_mem (List.mem_map_of_mem hr)) hdepends)

section Stratified

variable {I : Structure S P F D} {e : Variable S → D}

-- the rules of the definition, where the other symbols are as in the structure
abbrev given (I : Structure S P F D) (rules : List (Rule S P F D)) (e : Variable S → D) :
    Approximator (PFSymbol S P F × List D) :=
  ((Theory.Kleene.semantics I).approximator rules e).restrict I.atoms (defined rules)

def trueIn (I : Structure S P F D) (rules : List (Rule S P F D)) (e : Variable S → D) (q : P) (ds : List D) : Prop :=
  (.predicate q, ds) ∈ (given I rules e).certain

theorem certain_of_open {a : PFSymbol S P F × List D} (hs : a.1 ∉ heads rules)
    (h : a ∈ (given I rules e).possible) : a ∈ (given I rules e).certain := by
  have hnot : a ∉ defined rules := fun h => hs (mem_defined.mp h)
  exact (agree_iff.mp Approximator.restrict_certain_agree _ hnot).mpr
    ((agree_iff.mp (Approximator.restrict_stable_agree _) _ hnot).mp h)

variable (huser : UserDefined rules) (htotal : approxTotal samedef splitDefs rules = true)

include huser htotal

theorem certain_eq_atoms :
    (given I rules e).certain = (I.reinterpret (trueIn I rules e) I.function).atoms := by
  ext ⟨s, ds⟩
  by_cases hs : s ∈ heads rules
  · obtain ⟨q, rfl⟩ := predicate_of_mem huser htotal hs
    exact Iff.rfl
  · have hopen : ((s, ds) ∈ (given I rules e).certain ↔ (s, ds) ∈ I.atoms) :=
      agree_iff.mp Approximator.restrict_certain_agree _ fun h => hs (mem_defined.mp h)
    cases s with
    | predicate q => exact Iff.rfl
    | eq | lt | gt | sort | function => exact hopen

variable (hsolved : Solved (getDefinitionInfo V [rules]) samedef)

include hsolved

-- a rule derives as much where the symbols of its component are possible only, not certain
theorem derives_possible {r : Rule S P F D} (hr : r ∈ rules) {a : PFSymbol S P F × List D}
    (hlower : ∀ s ∈ r.symbols, ¬(s ∈ heads rules ∧ Connected (getDefinitionInfo V [rules]) 0 (definedSymbol r) s) →
      ∀ ds, (s, ds) ∈ (given I rules e).possible → (s, ds) ∈ (given I rules e).certain)
    (h : (Theory.Kleene.semantics I).derives r e (given I rules e).certain (given I rules e).certain a) :
    (Theory.Kleene.semantics I).derives r e (given I rules e).certain (given I rules e).possible a := by
  obtain ⟨hhead, b, hargs, hbody⟩ := h
  have hpred : ∀ s, (s ∈ heads rules ∧ Connected (getDefinitionInfo V [rules]) 0 (definedSymbol r) s) →
      ∃ q, s = .predicate q := fun s hs => predicate_of_mem huser htotal hs.1
  have hagg : ∀ s ∈ ruleAggSymbols r,
      ¬(s ∈ heads rules ∧ Connected (getDefinitionInfo V [rules]) 0 (definedSymbol r) s) :=
    fun s hs hblock => not_mem_ruleAggSymbols hsolved htotal hr hblock.1 hblock.2 hs
  refine ⟨hhead, b, ?_, ?_⟩
  · refine (List.forall₂_iff_get.mpr ?_)
    obtain ⟨hlength, hget⟩ := List.forall₂_iff_get.mp hargs
    refine ⟨hlength, fun i h₁ h₂ => ?_⟩
    have ht : r.args.get ⟨i, h₁⟩ ∈ r.args := List.get_mem _ _
    refine Theory.Kleene.value_mono (refines_of_agree (not_block_of_term hpred fun s hs =>
      hagg s (List.mem_append_left _ (mem_termsAggSymbols.mpr ⟨_, ht, hs⟩))) fun s hs => ?_) (hget i h₁ h₂)
    exact hlower s (List.mem_append_left _ (List.mem_flatMap.mpr ⟨_, ht, hs⟩))
  · refine certainly_possible hpred (certain_eq_atoms huser htotal) r.body
      (fun s hs => hlower s (List.mem_append_right _ hs)) true _ ⟨fun occ hocc hblock => ?_, fun s hs => ?_⟩ hbody
    · exact (approxTotal_iff.mp htotal).1 r hr occ hocc hblock.1
    · exact hagg s (List.mem_append_right _ hs)

theorem certain_of_rank (k : ℕ) : ∀ a ∈ (given I rules e).possible, a.1 ∈ heads rules →
    (reach (getDefinitionInfo V [rules]) 0 a.1).ncard < k → a ∈ (given I rules e).certain := by
  induction k with
  | zero => exact fun _ _ _ h => absurd h (Nat.not_lt_zero _)
  | succ k ih =>
    let T : Set (PFSymbol S P F × List D) := {a | a ∈ (given I rules e).possible ∧
      (a.1 ∈ heads rules → (reach (getDefinitionInfo V [rules]) 0 a.1).ncard ≤ k → a ∈ (given I rules e).certain)}
    have hT : (given I rules e).stable (given I rules e).certain ⊆ T := by
      refine Approximator.stable_subset _ fun a ha => ?_
      have hpossible : a ∈ (given I rules e).possible := by
        rw [Approximator.possible, ← Approximator.derive_stable]
        exact (given I rules e).mono (fun x hx => hx.1) ha
      refine ⟨hpossible, fun hhead hrank => ?_⟩
      rcases ha with ⟨-, hnot⟩ | ⟨⟨r, hr, hderives⟩, -⟩
      · exact absurd (mem_defined.mpr hhead) hnot
      have hsymbol : a.1 = definedSymbol r := hderives.1
      obtain ⟨q, hq⟩ := predicate_of_mem huser htotal hhead
      have hgraphed := graphed_of_predicate (hsymbol.symm.trans hq)
      rw [hgraphed] at hderives
      have hread : ∀ s ∈ r.symbols, Connected (getDefinitionInfo V [rules]) 0 (definedSymbol r) s ∨
          (reach (getDefinitionInfo V [rules]) 0 s).ncard < (reach (getDefinitionInfo V [rules]) 0 a.1).ncard := by
        intro s hs
        rw [hsymbol]
        exact connected_or_lt hr (hgraphed.symm ▸ hs)
      have hcertain : (Theory.Kleene.semantics I).derives r e (given I rules e).certain (given I rules e).certain a := by
        refine (Theory.Kleene.semantics I).derives_mono (fun s hs ds => ⟨fun hmem => ?_, id⟩) hderives
        by_cases hs' : s ∈ heads rules
        · refine hmem.2 hs' (le_trans ?_ hrank)
          rcases hread s hs with hconnected | hlt
          · rw [hsymbol, reach_eq (definedIn_of_mem (hsymbol ▸ hhead)) (definedIn_of_mem hs') hconnected]
          · exact hlt.le
        · exact certain_of_open hs' hmem.1
      have hderived := derives_possible huser htotal hsolved hr (fun s hs hblock ds hposs => ?_) hcertain
      · rw [← Approximator.derive_certain]
        refine Or.inr ⟨⟨r, hr, ?_⟩, mem_defined.mpr hhead⟩
        rw [hgraphed]
        exact hderived
      · by_cases hs' : s ∈ heads rules
        · rcases hread s hs with hconnected | hlt
          · exact absurd ⟨hs', hconnected⟩ hblock
          · exact ih (s, ds) hposs hs' (lt_of_lt_of_le hlt hrank)
        · exact certain_of_open hs' hposs
    exact fun a ha hhead hlt => (hT ha).2 hhead (Nat.lt_succ_iff.mp hlt)

theorem twoValued_of_approxTotal : (given I rules e).certain = (given I rules e).possible := by
  refine (Approximator.certain_subset_possible _).antisymm fun a ha => ?_
  by_cases hs : a.1 ∈ heads rules
  · exact certain_of_rank huser htotal hsolved _ a ha hs (Nat.lt_succ_self _)
  · exact certain_of_open hs ha

end Stratified

-- the recursion is found and the definitions that are called total are, except for cycles that only aggregate terms
-- make negative
theorem recurionsOverNegation_iff (V : SortedVocabulary S P F) (rules : List (Rule S P F D)) (samedef : ℕ → ℕ → Bool)
    (splitDefs : Bool) (hsolved : Solved (getDefinitionInfo V [rules]) samedef) (huser : UserDefined rules) :
    (recurionsOverNegationSymbols V rules =
        {s | OnCycle V rules (fun p q => NonPositive V rules p q ∨ InAggTerm V rules p q) s} ∧
      (approxTotal samedef splitDefs rules = true → ∀ (I : Structure S P F D) (e : Variable S → D),
        (given I rules e).certain = (given I rules e).possible)) ↔
    ∀ s, OnCycle V rules (InAggTerm V rules) s → OnCycle V rules (NonPositive V rules) s := by
  have htotal : approxTotal samedef splitDefs rules = true → ∀ (I : Structure S P F D) (e : Variable S → D),
      (given I rules e).certain = (given I rules e).possible :=
    fun htotal _ _ => twoValued_of_approxTotal huser htotal hsolved
  rw [and_iff_left htotal, Set.ext_iff]
  refine forall_congr' fun s => ?_
  rw [mem_recurionsOverNegationSymbols, Set.mem_ofPred_eq, onCycle_or]
  exact ⟨fun h hagg => h.mpr (Or.inr hagg), fun h => ⟨Or.inl, fun hor => hor.elim id h⟩⟩

end Total

section Examples

-- p <- ~p
def paradox : List (Rule Unit Bool Empty ℕ) := [⟨[], .predicate true, [], .pred .neg (.predicate true) []⟩]

theorem recurionsOverNegation_paradox :
    recurionsOverNegationSymbols propositions paradox =
        {s | OnCycle propositions paradox
          (fun p q => NonPositive propositions paradox p q ∨ InAggTerm propositions paradox p q) s} ∧
      (approxTotal (· == ·) true paradox = true → ∀ (I : Structure Unit Bool Empty ℕ) (e : Variable Unit → ℕ),
        (given I paradox e).certain = (given I paradox e).possible) := by
  refine (recurionsOverNegation_iff propositions paradox (· == ·) true ?_ ?_).mpr ?_
  · intro i hi j hj
    obtain rfl : i = 0 := Nat.lt_one_iff.mp hi
    obtain rfl : j = 0 := Nat.lt_one_iff.mp hj
    exact iff_of_true rfl (.refl hi)
  · exact fun s hs => Or.inl ⟨true, List.mem_singleton.mp hs⟩
  · rintro s ⟨p, q, -, ⟨r, hr, -, hq⟩, -⟩
    obtain rfl := List.mem_singleton.mp hr
    exact absurd hq List.not_mem_nil

-- p <- #{ x : p } = 1
def countsItself : Rule Unit Bool Empty ℕ where
  quantVars := []
  head := .predicate true
  args := []
  body := .eqChain .pos true [.eq]
    [.agg .card [.mk [⟨0, ()⟩] (.pred .pos (.predicate true) []) (.dom () 1)], .dom () 1]

theorem not_recurionsOverNegation_countsItself :
    recurionsOverNegationSymbols propositions [countsItself] ≠
      {s | OnCycle propositions [countsItself] (fun p q => NonPositive propositions [countsItself] p q ∨
        InAggTerm propositions [countsItself] p q) s} := by
  intro h
  have hmem : PFSymbol.predicate true ∈ recurionsOverNegationSymbols propositions [countsItself] := by
    rw [h]
    exact ⟨_, _, .refl, Or.inr ⟨countsItself, List.mem_cons_self, rfl, List.mem_cons_self⟩, .refl⟩
  obtain ⟨p, q, -, ⟨r, hr, -, c, hc, hne⟩, -⟩ := mem_recurionsOverNegationSymbols.mp hmem
  obtain rfl := List.mem_singleton.mp hr
  obtain ⟨-, rfl⟩ := Prod.ext_iff.mp (List.mem_singleton.mp hc)
  exact hne rfl

end Examples

end DefinitionUtils
