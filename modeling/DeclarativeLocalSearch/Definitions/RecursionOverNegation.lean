import DeclarativeLocalSearch.Definitions.SplitDefinitionsModels

set_option linter.unusedSectionVars false

open Theory (SIGN Variable PFSymbol Term QuantSetExpr Formula Rule SortedVocabulary Context)
open BootstrappingUtils SplitDefinitions

variable {S P F D : Type}

namespace DefinitionUtils

section AggTerms

-- the symbols in the aggregate terms
mutual

def aggSymbols : Term S P F D → List (PFSymbol S P F)
  | .var _ => []
  | .func _ args => termsAggSymbols args
  | .dom _ _ => []
  | .agg _ sets => sets.flatMap QuantSetExpr.symbols

def termsAggSymbols : List (Term S P F D) → List (PFSymbol S P F)
  | [] => []
  | t :: ts => aggSymbols t ++ termsAggSymbols ts

end

mutual

def formulaAggSymbols : Formula S P F D → List (PFSymbol S P F)
  | .pred _ _ args => termsAggSymbols args
  | .eqChain _ _ _ terms => termsAggSymbols terms
  | .equiv _ l r => formulaAggSymbols l ++ formulaAggSymbols r
  | .bool _ _ subs => formulasAggSymbols subs
  | .quant _ _ _ f => formulaAggSymbols f
  | .agg _ bound _ _ sets => aggSymbols bound ++ sets.flatMap QuantSetExpr.symbols

def formulasAggSymbols : List (Formula S P F D) → List (PFSymbol S P F)
  | [] => []
  | f :: fs => formulaAggSymbols f ++ formulasAggSymbols fs

end

end AggTerms

variable [DecidableEq S]

section RecursionOverNegation

variable (V : SortedVocabulary S P F) (rules : List (Rule S P F D))

def unnestedBody (r : Rule S P F D) : Formula S P F D := (unnestHeadTermsNotVarsOrDomElems V r (firstNew r)).body

-- the theory `recnegTheo`, over the names of one definition
def RecNeg (info : List (RuleInfo S P F)) (d : ℕ) (s : PFSymbol S P F) : Prop :=
  ∃ s', Depends info d s s' .neg ∧ Depends info d s' s .neg

def recurionsOverNegationSymbols : Set (PFSymbol S P F) := {s | RecNeg (getDefinitionInfo V [rules]) 0 s}

-- the dependency graph: the symbols in the bodies of the rules for a symbol
def Uses (p q : PFSymbol S P F) : Prop := ∃ r ∈ rules, definedSymbol r = p ∧ q ∈ (unnestedBody V r).symbols

-- in a negation, an equivalence or an aggregate atom
def NonPositive (p q : PFSymbol S P F) : Prop :=
  ∃ r ∈ rules, definedSymbol r = p ∧
    ∃ c, (q, c) ∈ (unnestedBody V r).collectSymbolOccurences .positive ∧ c ≠ .positive

def InAggTerm (p q : PFSymbol S P F) : Prop :=
  ∃ r ∈ rules, definedSymbol r = p ∧ q ∈ formulaAggSymbols (unnestedBody V r)

-- a cycle through one of the edges
def OnCycle (edge : PFSymbol S P F → PFSymbol S P F → Prop) (s : PFSymbol S P F) : Prop :=
  ∃ p q, Relation.ReflTransGen (Uses V rules) s p ∧ edge p q ∧ Relation.ReflTransGen (Uses V rules) q s

end RecursionOverNegation

section Cycles

open Relation (ReflTransGen)

variable {V : SortedVocabulary S P F} {rules : List (Rule S P F D)} {p q s : PFSymbol S P F}

theorem onCycle_or {edge edge' : PFSymbol S P F → PFSymbol S P F → Prop} :
    OnCycle V rules (fun p q => edge p q ∨ edge' p q) s ↔ OnCycle V rules edge s ∨ OnCycle V rules edge' s := by
  constructor
  · rintro ⟨p, q, hp, h | h, hq⟩
    · exact Or.inl ⟨p, q, hp, h, hq⟩
    · exact Or.inr ⟨p, q, hp, h, hq⟩
  · rintro (⟨p, q, hp, h, hq⟩ | ⟨p, q, hp, h, hq⟩)
    · exact ⟨p, q, hp, Or.inl h, hq⟩
    · exact ⟨p, q, hp, Or.inr h, hq⟩

theorem mem_info {r : RuleInfo S P F} : r ∈ getDefinitionInfo V [rules] ↔ ∃ rule ∈ rules, r = ruleInfo V (0, rule) := by
  rw [getDefinitionInfo, List.mem_map]
  constructor
  · rintro ⟨⟨d, rule⟩, hmem, rfl⟩
    obtain ⟨i, rules', rfl, hget, hrule⟩ := mem_named.mp hmem
    cases i with
    | zero =>
      obtain rfl := Option.some.inj hget
      exact ⟨rule, hrule, rfl⟩
    | succ i => simp at hget
  · rintro ⟨rule, hrule, rfl⟩
    exact ⟨(0, rule), mem_named.mpr ⟨0, rules, rfl, rfl, hrule⟩, rfl⟩

theorem definedIn_iff : DefinedIn (getDefinitionInfo V [rules]) p 0 ↔ ∃ r ∈ rules, definedSymbol r = p := by
  constructor
  · rintro ⟨_, hmem, -, rfl⟩
    obtain ⟨rule, hrule, rfl⟩ := mem_info.mp hmem
    exact ⟨rule, hrule, rfl⟩
  · rintro ⟨r, hr, rfl⟩
    exact ⟨_, mem_info.mpr ⟨r, hr, rfl⟩, rfl, rfl⟩

theorem mem_opens {r : Rule S P F D} {sign : SIGN} : (q, sign) ∈ opens V r ↔
    ∃ c, (q, c) ∈ (unnestedBody V r).collectSymbolOccurences .positive ∧ sign ∈ signs c := by
  rw [opens, List.mem_flatMap]
  constructor
  · rintro ⟨⟨q', c⟩, hmem, h⟩
    obtain ⟨sign', hsign, heq⟩ := List.mem_map.mp h
    obtain ⟨rfl, rfl⟩ := Prod.ext_iff.mp heq
    exact ⟨c, hmem, hsign⟩
  · rintro ⟨c, hmem, hsign⟩
    exact ⟨(q, c), hmem, List.mem_map_of_mem hsign⟩

theorem neg_mem_signs {c : Context} : .neg ∈ signs c ↔ c ≠ .positive := by cases c <;> decide

theorem mem_unnestedBody {r : Rule S P F D} :
    q ∈ (unnestedBody V r).symbols ↔ ∃ c, (q, c) ∈ (unnestedBody V r).collectSymbolOccurences .positive := by
  rw [← Theory.collect_symbols.2.2 _ .positive, List.mem_map]
  constructor
  · rintro ⟨⟨q', c⟩, hmem, rfl⟩
    exact ⟨c, hmem⟩
  · exact fun ⟨c, hmem⟩ => ⟨_, hmem, rfl⟩

theorem depends_body (h : Uses V rules p q) : ∃ sign, Depends (getDefinitionInfo V [rules]) 0 p q sign := by
  obtain ⟨r, hr, rfl, hq⟩ := h
  obtain ⟨c, hc⟩ := mem_unnestedBody.mp hq
  obtain ⟨sign, hsign⟩ := exists_sign c
  exact ⟨sign, .body (mem_info.mpr ⟨r, hr, rfl⟩) rfl (mem_opens.mpr ⟨c, hc, hsign⟩)⟩

theorem depends_of_nonPositive (h : NonPositive V rules p q) : Depends (getDefinitionInfo V [rules]) 0 p q .neg := by
  obtain ⟨r, hr, rfl, c, hc, hne⟩ := h
  exact .body (mem_info.mpr ⟨r, hr, rfl⟩) rfl (mem_opens.mpr ⟨c, hc, neg_mem_signs.mpr hne⟩)

theorem Depends.compose {info : List (RuleInfo S P F)} {d : ℕ} {r : PFSymbol S P F} {a b : SIGN}
    (hp : DefinedIn info p d) (hq : DefinedIn info q d) (h : Depends info d p r a) (h' : Depends info d r q b) :
    Depends info d p q (if a = b then .pos else .neg) := by
  cases a <;> cases b
  · exact .pos_right hp hq h h'
  · exact .pos_left hp hq h h'
  · exact .pos_right hp hq h h'
  · exact .same hp hq h h'

theorem depends_of_uses (hq : DefinedIn (getDefinitionInfo V [rules]) q 0) (h : ReflTransGen (Uses V rules) p q) :
    p = q ∨ ∃ sign, Depends (getDefinitionInfo V [rules]) 0 p q sign := by
  induction h using ReflTransGen.head_induction_on with
  | refl => exact Or.inl rfl
  | head h _ ih =>
    obtain ⟨sign, hsign⟩ := depends_body h
    obtain ⟨r, hr, hhead, -⟩ := h
    rcases ih with rfl | ⟨sign', hsign'⟩
    · exact Or.inr ⟨sign, hsign⟩
    · exact Or.inr ⟨_, Depends.compose (definedIn_iff.mpr ⟨r, hr, hhead⟩) hq hsign hsign'⟩

theorem uses_of_depends {sign : SIGN} (h : Depends (getDefinitionInfo V [rules]) 0 p q sign) :
    ReflTransGen (Uses V rules) p q ∧ (sign = .neg →
      ∃ a b, ReflTransGen (Uses V rules) p a ∧ NonPositive V rules a b ∧ ReflTransGen (Uses V rules) b q) := by
  induction h with
  | body hmem hd hopens =>
    obtain ⟨r, hr, rfl⟩ := mem_info.mp hmem
    obtain ⟨c, hc, hsign⟩ := mem_opens.mp hopens
    refine ⟨.single ⟨r, hr, rfl, mem_unnestedBody.mpr ⟨c, hc⟩⟩, fun hneg => ?_⟩
    subst hneg
    exact ⟨_, _, .refl, ⟨r, hr, rfl, c, hc, neg_mem_signs.mp hsign⟩, .refl⟩
  | pos_right _ _ _ _ ih ih' =>
    refine ⟨ih.1.trans ih'.1, fun hneg => ?_⟩
    obtain ⟨a, b, ha, hab, hb⟩ := ih.2 hneg
    exact ⟨a, b, ha, hab, hb.trans ih'.1⟩
  | pos_left _ _ _ _ ih ih' =>
    refine ⟨ih.1.trans ih'.1, fun hneg => ?_⟩
    obtain ⟨a, b, ha, hab, hb⟩ := ih'.2 hneg
    exact ⟨a, b, ih.1.trans ha, hab, hb⟩
  | same _ _ _ _ ih ih' => exact ⟨ih.1.trans ih'.1, nofun⟩

-- a cycle splits into two negative halves, whether the number of its negations is even or odd
theorem mem_recurionsOverNegationSymbols :
    s ∈ recurionsOverNegationSymbols V rules ↔ OnCycle V rules (NonPositive V rules) s := by
  constructor
  · rintro ⟨s', h, h'⟩
    obtain ⟨a, b, ha, hab, hb⟩ := (uses_of_depends h).2 rfl
    exact ⟨a, b, ha, hab, hb.trans (uses_of_depends h').1⟩
  · rintro ⟨p, q, hsp, hpq, hqs⟩
    have hneg := depends_of_nonPositive hpq
    have hp : DefinedIn (getDefinitionInfo V [rules]) p 0 := by
      obtain ⟨r, hr, hhead, -⟩ := hpq
      exact definedIn_iff.mpr ⟨r, hr, hhead⟩
    have hs : DefinedIn (getDefinitionInfo V [rules]) s 0 := by
      rcases hsp.cases_head with rfl | ⟨_, ⟨r, hr, hhead, -⟩, -⟩
      · exact hp
      · exact definedIn_iff.mpr ⟨r, hr, hhead⟩
    have hq : DefinedIn (getDefinitionInfo V [rules]) q 0 := by
      rcases hqs.cases_head with rfl | ⟨_, ⟨r, hr, hhead, -⟩, -⟩
      · exact hs
      · exact definedIn_iff.mpr ⟨r, hr, hhead⟩
    rcases depends_of_uses hp hsp with rfl | ⟨a, ha⟩
    · rcases depends_of_uses hs hqs with rfl | ⟨b, hb⟩
      · exact ⟨_, hneg, hneg⟩
      · cases b with
        | pos => exact ⟨s, .pos_right hs hs hneg hb, .pos_right hs hs hneg hb⟩
        | neg => exact ⟨q, hneg, hb⟩
    · have hsq := Depends.compose hs hq ha hneg
      have hps : ∀ {b}, Depends (getDefinitionInfo V [rules]) 0 q s b → Depends (getDefinitionInfo V [rules]) 0 p s
          (if .neg = b then .pos else .neg) := fun hb => Depends.compose hp hs hneg hb
      rcases depends_of_uses hs hqs with rfl | ⟨b, hb⟩
      · cases a with
        | pos => exact ⟨_, hsq, hsq⟩
        | neg => exact ⟨p, ha, hneg⟩
      · cases a <;> cases b
        · have hss := Depends.compose hs hs hsq hb
          exact ⟨s, hss, hss⟩
        · exact ⟨q, hsq, hb⟩
        · exact ⟨p, ha, hps hb⟩
        · have hss := Depends.compose hs hs hsq hb
          exact ⟨s, hss, hss⟩

end Cycles

end DefinitionUtils
