import DeclarativeLocalSearch.Theory.WellFounded

set_option linter.unusedSectionVars false

open Theory (SIGN Variable PFSymbol Term Formula Rule SortedVocabulary Context ThreeValuedSemantics firstFree termsFreeVars)

variable {S P F D : Type}

namespace BootstrappingUtils

-- what is stored about a rule; its name is its position
structure RuleInfo (S P F : Type) where
  inDef : ℕ
  defines : PFSymbol S P F
  inbody : List (PFSymbol S P F × SIGN)

section Unnest

variable (V : SortedVocabulary S P F)

-- the new terms of the head, with the terms they stand for
def moveTerms (symbol : PFSymbol S P F) : ℕ → List (Term S P F D) → ℕ → List (Term S P F D × Option (Variable S × Term S P F D))
  | _, [], _ => []
  | i, .var v :: ts, n => (.var v, none) :: moveTerms symbol (i + 1) ts n
  | i, .dom s d :: ts, n => (.dom s d, none) :: moveTerms symbol (i + 1) ts n
  | i, t :: ts, n => (.var ⟨n, V.sort symbol i⟩, some (⟨n, V.sort symbol i⟩, t)) :: moveTerms symbol (i + 1) ts (n + 1)

-- the terms have sorts, by an assertion
def equality [DecidableEq S] (moved : Variable S × Term S P F D) : Formula S P F D :=
  .pred .pos (.eq ((V.termSort moved.2).getD (V.std .int))) [.var moved.1, moved.2]

def unnestHeadTermsNotVarsOrDomElems [DecidableEq S] (r : Rule S P F D) (n : ℕ) : Rule S P F D :=
  let head := moveTerms V r.head 0 r.args n
  let moved := head.filterMap Prod.snd
  { quantVars := r.quantVars ++ moved.map Prod.fst
    head := r.head
    args := head.map Prod.fst
    body :=
      if moved = [] then r.body
      else .bool .pos true (moved.map (equality V) ++ if Theory.Simplify.isTrue r.body then [] else [r.body]) }

end Unnest

-- an occurrence that is positive or both is certainly positive, and in the same way for negative
def signs : Context → List SIGN
  | .positive => [.pos]
  | .negative => [.neg]
  | .both => [.pos, .neg]

section DefinitionInfo

variable [DecidableEq S] (V : SortedVocabulary S P F)

def definedSymbol (r : Rule S P F D) : PFSymbol S P F := r.graphed.head

def firstNew (r : Rule S P F D) : ℕ := firstFree (r.quantVars ++ termsFreeVars r.args ++ r.body.freeVars)

def opens (r : Rule S P F D) : List (PFSymbol S P F × SIGN) :=
  ((unnestHeadTermsNotVarsOrDomElems V r (firstNew r)).body.collectSymbolOccurences .positive).flatMap fun opened =>
    (signs opened.2).map fun sign => (opened.1, sign)

-- the rules, in the order of their names, with the names of their definitions
def named : ℕ → List (List (Rule S P F D)) → List (ℕ × Rule S P F D)
  | _, [] => []
  | d, rules :: defs => rules.map (fun r => (d, r)) ++ named (d + 1) defs

def ruleInfo (r : ℕ × Rule S P F D) : RuleInfo S P F := ⟨r.1, definedSymbol r.2, opens V r.2⟩

def getDefinitionInfo (defs : List (List (Rule S P F D))) : List (RuleInfo S P F) := (named 0 defs).map (ruleInfo V)

end DefinitionInfo

-- the theory `dependency`
section Dependency

variable (info : List (RuleInfo S P F))

def DefinedIn (p : PFSymbol S P F) (d : ℕ) : Prop := ∃ r ∈ info, r.inDef = d ∧ r.defines = p

inductive Depends (d : ℕ) : PFSymbol S P F → PFSymbol S P F → SIGN → Prop
  | body {r q s} : r ∈ info → r.inDef = d → (q, s) ∈ r.inbody → Depends d r.defines q s
  | pos_right {p q r s} : DefinedIn info p d → DefinedIn info q d → Depends d p r s → Depends d r q .pos →
      Depends d p q s
  | pos_left {p q r s} : DefinedIn info p d → DefinedIn info q d → Depends d p r .pos → Depends d r q s →
      Depends d p q s
  | same {p q r s} : DefinedIn info p d → DefinedIn info q d → Depends d p r s → Depends d r q s →
      Depends d p q .pos

def DependsAny (d : ℕ) (p q : PFSymbol S P F) : Prop := ∃ s, Depends info d p q s

end Dependency

end BootstrappingUtils

namespace SplitDefinitions

open BootstrappingUtils

-- the theory `def_split_theory`
inductive SameDef (info : List (RuleInfo S P F)) : ℕ → ℕ → Prop
  | refl {i} : i < info.length → SameDef info i i
  | symbol {i j r₁ r₂} : info[i]? = some r₁ → info[j]? = some r₂ → r₁.inDef = r₂.inDef → r₁.defines = r₂.defines →
      SameDef info i j
  | mutual {i j r₁ r₂} : info[i]? = some r₁ → info[j]? = some r₂ → r₁.inDef = r₂.inDef →
      DependsAny info r₁.inDef r₁.defines r₂.defines → DependsAny info r₁.inDef r₂.defines r₁.defines →
      SameDef info i j

-- the model that was found is that of the bootstrapping theory
def Solved (info : List (RuleInfo S P F)) (samedef : ℕ → ℕ → Bool) : Prop :=
  ∀ i < info.length, ∀ j < info.length, samedef i j = true ↔ SameDef info i j

variable (samedef : ℕ → ℕ → Bool)

def splitFrom (allrules : List ℕ) : List ℕ → List ℕ → List (List ℕ)
  | [], _ => []
  | currentRule :: rules, rulesDone =>
    if rulesDone.contains currentRule then splitFrom allrules rules rulesDone
    else
      let currentDef := allrules.filter (samedef currentRule)
      currentDef :: splitFrom allrules rules (rulesDone ++ currentDef)

-- the names of the rules of the new definitions
def split (n : ℕ) : List (List ℕ) := splitFrom samedef (List.range n) (List.range n) []

def getOriginals (defs : List (List (Rule S P F D))) (names : List ℕ) : List (Rule S P F D) :=
  names.filterMap fun name => ((named 0 defs)[name]?).map Prod.snd

def execute (splitDefs : Bool) (T : Theory.Theory S P F D) : Theory.Theory S P F D :=
  if splitDefs then
    { T with definitions := (split samedef (named 0 T.definitions).length).map (getOriginals T.definitions) }
  else T

end SplitDefinitions

set_option linter.unusedSectionVars false

open Theory (SIGN Variable PFSymbol Term Formula Rule SortedVocabulary Context ThreeValuedSemantics Atoms defined)
open BootstrappingUtils

variable {S P F D : Type}

namespace BootstrappingUtils

section Dependency

variable {info : List (RuleInfo S P F)} {d : ℕ} {p q r : PFSymbol S P F}

theorem DependsAny.trans (hp : DefinedIn info p d) (hq : DefinedIn info q d) (h : DependsAny info d p r)
    (h' : DependsAny info d r q) : DependsAny info d p q := by
  obtain ⟨s, h⟩ := h
  obtain ⟨s', h'⟩ := h'
  cases s' with
  | pos => exact ⟨s, .pos_right hp hq h h'⟩
  | neg =>
    cases s with
    | pos => exact ⟨.neg, .pos_left hp hq h h'⟩
    | neg => exact ⟨.pos, .same hp hq h h'⟩

-- the symbols are the same, or depend on each other
def Connected (info : List (RuleInfo S P F)) (d : ℕ) (p q : PFSymbol S P F) : Prop :=
  p = q ∨ DependsAny info d p q ∧ DependsAny info d q p

theorem Connected.symm (h : Connected info d p q) : Connected info d q p := h.imp Eq.symm And.symm

theorem Connected.trans (hp : DefinedIn info p d) (hq : DefinedIn info q d) (h : Connected info d p r)
    (h' : Connected info d r q) : Connected info d p q := by
  rcases h with rfl | ⟨hpr, hrp⟩
  · exact h'
  rcases h' with rfl | ⟨hrq, hqr⟩
  · exact Or.inr ⟨hpr, hrp⟩
  · exact Or.inr ⟨hpr.trans hp hq hrq, hqr.trans hq hp hrp⟩

def reach (info : List (RuleInfo S P F)) (d : ℕ) (p : PFSymbol S P F) : Set (PFSymbol S P F) :=
  {q | DefinedIn info q d ∧ (p = q ∨ DependsAny info d p q)}

theorem reach_finite (p : PFSymbol S P F) : (reach info d p).Finite := by
  refine ((info.map RuleInfo.defines).finite_toSet).subset fun q hq => ?_
  obtain ⟨⟨r, hr, -, hdefines⟩, -⟩ := hq
  exact List.mem_map.mpr ⟨r, hr, hdefines⟩

theorem reach_subset (hp : DefinedIn info p d) (h : Connected info d p q) : reach info d q ⊆ reach info d p := by
  intro r hr
  refine ⟨hr.1, ?_⟩
  rcases h with rfl | ⟨hpq, -⟩
  · exact hr.2
  rcases hr.2 with rfl | hqr
  · exact Or.inr hpq
  · exact Or.inr (hpq.trans hp hr.1 hqr)

theorem reach_eq (hp : DefinedIn info p d) (hq : DefinedIn info q d) (h : Connected info d p q) :
    reach info d p = reach info d q :=
  (reach_subset hq h.symm).antisymm (reach_subset hp h)

theorem reach_lt (hp : DefinedIn info p d) (hpq : DependsAny info d p q)
    (hnot : ¬ Connected info d p q) : (reach info d q).ncard < (reach info d p).ncard := by
  refine Set.ncard_lt_ncard ⟨fun r hr => ⟨hr.1, Or.inr ?_⟩, fun hsub => ?_⟩ (reach_finite p)
  · rcases hr.2 with rfl | hqr
    · exact hpq
    · exact hpq.trans hp hr.1 hqr
  · obtain ⟨-, heq | hqp⟩ := hsub ⟨hp, Or.inl rfl⟩
    · exact hnot (Or.inl heq.symm)
    · exact hnot (Or.inr ⟨hpq, hqp⟩)

end Dependency

section Opens

variable [DecidableEq S] {V : SortedVocabulary S P F} {r : Rule S P F D} {s : PFSymbol S P F}

theorem exists_sign (c : Context) : ∃ sign, sign ∈ signs c := by
  cases c
  · exact ⟨.pos, List.mem_singleton_self _⟩
  · exact ⟨.neg, List.mem_singleton_self _⟩
  · exact ⟨.pos, List.mem_cons_self⟩

theorem mem_moveTerms {symbol : PFSymbol S P F} {t : Term S P F D} (hs : s ∈ t.symbols) :
    ∀ (ts : List (Term S P F D)) (i n : ℕ), t ∈ ts →
      ∃ x, (x, t) ∈ (moveTerms V symbol i ts n).filterMap Prod.snd
  | t' :: ts, i, n, ht => by
    rcases List.mem_cons.mp ht with rfl | htail
    · cases t with
      | var v => exact absurd hs List.not_mem_nil
      | dom s d => exact absurd hs List.not_mem_nil
      | func f args => exact ⟨_, List.mem_cons_self⟩
      | agg g sets => exact ⟨_, List.mem_cons_self⟩
    · cases t' with
      | var v => exact mem_moveTerms hs ts (i + 1) n htail
      | dom s d => exact mem_moveTerms hs ts (i + 1) n htail
      | func f args => exact (mem_moveTerms hs ts (i + 1) (n + 1) htail).imp fun x => List.mem_cons_of_mem _
      | agg g sets => exact (mem_moveTerms hs ts (i + 1) (n + 1) htail).imp fun x => List.mem_cons_of_mem _

theorem isTrue_symbols {f : Formula S P F D} (h : Theory.Simplify.isTrue f = true) : s ∉ f.symbols := by
  match f, h with
  | .bool _ _ [], _ => exact List.not_mem_nil

theorem mem_unnested {n : ℕ} (hs : s ∈ r.symbols) : s ∈ (unnestHeadTermsNotVarsOrDomElems V r n).body.symbols := by
  rw [unnestHeadTermsNotVarsOrDomElems]
  rcases List.mem_append.mp hs with hs | hs
  · obtain ⟨t, ht, hs⟩ := List.mem_flatMap.mp hs
    obtain ⟨x, hx⟩ := @mem_moveTerms _ _ _ _ _ V _ r.head _ hs _ 0 n ht
    rw [if_neg (List.ne_nil_of_mem hx)]
    refine Theory.mem_symbols_bool.mpr ⟨_, List.mem_append_left _ (List.mem_map_of_mem hx), ?_⟩
    exact Theory.mem_symbols_pred.mpr (Or.inr ⟨t, List.mem_cons_of_mem _ (List.mem_singleton_self t), hs⟩)
  · dsimp only
    split
    · exact hs
    · have hbody : Theory.Simplify.isTrue r.body ≠ true := fun h => isTrue_symbols h hs
      rw [if_neg hbody]
      exact Theory.mem_symbols_bool.mpr ⟨_, List.mem_append_right _ (List.mem_singleton_self _), hs⟩

theorem graphed_symbols (hs : s ∈ r.graphed.symbols) : s ∈ r.symbols := by
  unfold Rule.graphed at hs
  split at hs
  · next f args right _ hargs =>
    refine List.mem_append.mpr ((List.mem_append.mp hs).imp_left fun hs => ?_)
    obtain ⟨t, ht, hs⟩ := List.mem_flatMap.mp hs
    rw [hargs]
    rcases List.mem_append.mp ht with ht | ht
    · exact List.mem_flatMap.mpr ⟨_, List.mem_cons_self, Theory.mem_symbols_func.mpr (Or.inr ⟨t, ht, hs⟩)⟩
    · exact List.mem_flatMap.mpr ⟨t, List.mem_cons_of_mem _ ht, hs⟩
  · exact hs

theorem opens_of_symbols (hs : s ∈ r.graphed.symbols) : ∃ sign, (s, sign) ∈ opens V r := by
  have hmem := mem_unnested (V := V) (n := firstNew r) (graphed_symbols hs)
  rw [← Theory.collect_symbols.2.2 _ .positive] at hmem
  obtain ⟨opened, hopened, rfl⟩ := List.mem_map.mp hmem
  obtain ⟨sign, hsign⟩ := exists_sign opened.2
  exact ⟨sign, List.mem_flatMap.mpr ⟨opened, hopened, List.mem_map_of_mem hsign⟩⟩

end Opens

section Named

variable {defs : List (List (Rule S P F D))} {d : ℕ} {r : Rule S P F D}

theorem mem_named : ∀ {defs : List (List (Rule S P F D))} {k : ℕ},
    (d, r) ∈ named k defs ↔ ∃ i rules, d = k + i ∧ defs[i]? = some rules ∧ r ∈ rules
  | [], k => iff_of_false List.not_mem_nil fun ⟨_, _, _, h, _⟩ => nomatch h
  | rules :: defs, k => by
    rw [named, List.mem_append, mem_named]
    constructor
    · rintro (h | ⟨i, rules', rfl, hget, hr⟩)
      · obtain ⟨r', hr, heq⟩ := List.mem_map.mp h
        obtain ⟨rfl, rfl⟩ := Prod.ext_iff.mp heq
        exact ⟨0, rules, rfl, rfl, hr⟩
      · exact ⟨i + 1, rules', by omega, hget, hr⟩
    · rintro ⟨_ | i, rules', rfl, hget, hr⟩
      · obtain rfl : rules = rules' := Option.some.inj hget
        exact Or.inl (List.mem_map.mpr ⟨r, hr, rfl⟩)
      · exact Or.inr ⟨i, rules', by omega, hget, hr⟩

theorem named_map_snd : ∀ (defs : List (List (Rule S P F D))) (k : ℕ), (named k defs).map Prod.snd = defs.flatten
  | [], _ => rfl
  | rules :: defs, k => by
    rw [named, List.map_append, named_map_snd, List.map_map, List.flatten_cons]
    exact congrArg (· ++ _) (List.map_id rules)

end Named

end BootstrappingUtils

namespace SplitDefinitions

section Groups

variable {samedef : ℕ → ℕ → Bool} {allrules : List ℕ}

theorem splitFrom_row : ∀ {rules done : List ℕ} {g : List ℕ}, g ∈ splitFrom samedef allrules rules done →
    ∃ r ∈ rules, r ∉ done ∧ g = allrules.filter (samedef r)
  | r :: rules, done, g, hg => by
    rw [splitFrom] at hg
    split at hg
    · obtain ⟨r', hr', h⟩ := splitFrom_row hg
      exact ⟨r', List.mem_cons_of_mem _ hr', h⟩
    · next hnot =>
      rcases List.mem_cons.mp hg with rfl | hg
      · exact ⟨r, List.mem_cons_self, by simpa using hnot, rfl⟩
      · obtain ⟨r', hr', hdone, h⟩ := splitFrom_row hg
        exact ⟨r', List.mem_cons_of_mem _ hr', fun h => hdone (List.mem_append_left _ h), h⟩

theorem splitFrom_cover (hrefl : ∀ x ∈ allrules, samedef x x = true) : ∀ {rules done : List ℕ} {x : ℕ}, x ∈ allrules →
    x ∈ rules → x ∈ done ∨ ∃ g ∈ splitFrom samedef allrules rules done, x ∈ g
  | r :: rules, done, x, hall, hx => by
    rw [splitFrom]
    split
    · next hdone =>
      rcases List.mem_cons.mp hx with rfl | hx
      · exact Or.inl (by simpa using hdone)
      · exact splitFrom_cover hrefl hall hx
    · rcases List.mem_cons.mp hx with rfl | hx
      · exact Or.inr ⟨_, List.mem_cons_self, List.mem_filter.mpr ⟨hall, hrefl x hall⟩⟩
      · rcases splitFrom_cover hrefl hall hx with hdone | ⟨g, hg, hxg⟩
        · rcases List.mem_append.mp hdone with hdone | hrow
          · exact Or.inl hdone
          · exact Or.inr ⟨_, List.mem_cons_self, hrow⟩
        · exact Or.inr ⟨g, List.mem_cons_of_mem _ hg, hxg⟩

-- the rows of an equivalence that start outside the rules that are done do not meet each other
theorem splitFrom_disjoint (hsymm : ∀ x ∈ allrules, ∀ y ∈ allrules, samedef x y = true → samedef y x = true)
    (htrans : ∀ x ∈ allrules, ∀ y ∈ allrules, ∀ z ∈ allrules, samedef x y = true → samedef y z = true → samedef x z = true) :
    ∀ {rules done : List ℕ}, (∀ r ∈ rules, r ∈ allrules) →
      (∀ x ∈ allrules, ∀ y ∈ done, samedef x y = true → x ∈ done) → (∀ y ∈ done, y ∈ allrules) →
      (splitFrom samedef allrules rules done).Pairwise List.Disjoint ∧
        ∀ g ∈ splitFrom samedef allrules rules done, g.Disjoint done
  | [], done, _, _, _ => ⟨List.Pairwise.nil, nofun⟩
  | r :: rules, done, hrules, hclosed, hdone => by
    obtain ⟨hr, hrules⟩ := List.forall_mem_cons.mp hrules
    rw [splitFrom]
    split
    · exact splitFrom_disjoint hsymm htrans hrules hclosed hdone
    · next hnot =>
      have hrow : ∀ {y}, y ∈ allrules.filter (samedef r) ↔ y ∈ allrules ∧ samedef r y = true := List.mem_filter
      obtain ⟨hpairwise, hapart⟩ := @splitFrom_disjoint hsymm htrans rules (done ++ allrules.filter (samedef r)) hrules
        (fun x hx y hy hxy => by
          rcases List.mem_append.mp hy with hy | hy
          · exact List.mem_append_left _ (hclosed x hx y hy hxy)
          · obtain ⟨hall, hry⟩ := hrow.mp hy
            exact List.mem_append_right _ (hrow.mpr ⟨hx, htrans r hr y hall x hx hry (hsymm x hx y hall hxy)⟩))
        (fun y hy => (List.mem_append.mp hy).elim (hdone y) fun hy => (hrow.mp hy).1)
      refine ⟨List.pairwise_cons.mpr ⟨fun g hg y hy hyg => ?_, hpairwise⟩, List.forall_mem_cons.mpr ⟨?_, ?_⟩⟩
      · exact hapart g hg hyg (List.mem_append_right _ hy)
      · intro y hy hydone
        exact absurd (hclosed r hr y hydone (hrow.mp hy).2) (by simpa using hnot)
      · exact fun g hg y hyg hydone => hapart g hg hyg (List.mem_append_left _ hydone)

end Groups

section SameDef

variable {info : List (RuleInfo S P F)} {i j k : ℕ}

theorem definedIn {r : RuleInfo S P F} (h : info[i]? = some r) : DefinedIn info r.defines r.inDef :=
  ⟨r, List.mem_of_getElem? h, rfl, rfl⟩

theorem sameDef_iff : SameDef info i j ↔ ∃ r₁ r₂, info[i]? = some r₁ ∧ info[j]? = some r₂ ∧ r₁.inDef = r₂.inDef ∧
    Connected info r₁.inDef r₁.defines r₂.defines := by
  constructor
  · rintro (hlt | ⟨h₁, h₂, hin, hdefines⟩ | ⟨h₁, h₂, hin, h, h'⟩)
    · exact ⟨_, _, List.getElem?_eq_getElem hlt, List.getElem?_eq_getElem hlt, rfl, Or.inl rfl⟩
    · exact ⟨_, _, h₁, h₂, hin, Or.inl hdefines⟩
    · exact ⟨_, _, h₁, h₂, hin, Or.inr ⟨h, h'⟩⟩
  · rintro ⟨r₁, r₂, h₁, h₂, hin, heq | ⟨h, h'⟩⟩
    · exact .symbol h₁ h₂ hin heq
    · exact .mutual h₁ h₂ hin h h'

theorem SameDef.symm (h : SameDef info i j) : SameDef info j i := by
  obtain ⟨r₁, r₂, h₁, h₂, hin, hconnected⟩ := sameDef_iff.mp h
  exact sameDef_iff.mpr ⟨r₂, r₁, h₂, h₁, hin.symm, hin ▸ hconnected.symm⟩

theorem SameDef.trans (h : SameDef info i j) (h' : SameDef info j k) : SameDef info i k := by
  obtain ⟨r₁, r₂, h₁, h₂, hin, hconnected⟩ := sameDef_iff.mp h
  obtain ⟨r₂', r₃, h₂', h₃, hin', hconnected'⟩ := sameDef_iff.mp h'
  obtain rfl : r₂ = r₂' := Option.some.inj (h₂.symm.trans h₂')
  rw [← hin] at hin' hconnected'
  exact sameDef_iff.mpr ⟨r₁, r₃, h₁, h₃, hin', hconnected.trans (definedIn h₁) (hin' ▸ definedIn h₃) hconnected'⟩

variable {samedef : ℕ → ℕ → Bool} (hsolved : Solved info samedef)

include hsolved

theorem mem_split {g : List ℕ} (hg : g ∈ split samedef info.length) :
    ∃ r < info.length, ∀ x, x ∈ g ↔ x < info.length ∧ SameDef info r x := by
  obtain ⟨r, hr, -, rfl⟩ := splitFrom_row hg
  refine ⟨r, List.mem_range.mp hr, fun x => ?_⟩
  rw [List.mem_filter, List.mem_range]
  exact and_congr_right fun hx => hsolved r (List.mem_range.mp hr) x hx

theorem split_cover {x : ℕ} (hx : x < info.length) : ∃ g ∈ split samedef info.length, x ∈ g :=
  (splitFrom_cover (fun y hy => (hsolved y (List.mem_range.mp hy) y (List.mem_range.mp hy)).mpr
    (.refl (List.mem_range.mp hy))) (List.mem_range.mpr hx) (List.mem_range.mpr hx)).resolve_left List.not_mem_nil

theorem split_disjoint : (split samedef info.length).Pairwise List.Disjoint := by
  have hrel : ∀ {x y}, x ∈ List.range info.length → y ∈ List.range info.length →
      (samedef x y = true ↔ SameDef info x y) :=
    fun hx hy => hsolved _ (List.mem_range.mp hx) _ (List.mem_range.mp hy)
  refine (splitFrom_disjoint (fun x hx y hy h => (hrel hy hx).mpr ((hrel hx hy).mp h).symm)
    (fun x hx y hy z hz h h' => (hrel hx hz).mpr (((hrel hx hy).mp h).trans ((hrel hy hz).mp h')))
    (fun _ hr => hr) (fun _ _ _ hy => absurd hy List.not_mem_nil) fun _ hy => absurd hy List.not_mem_nil).1

theorem split_perm : (split samedef info.length).flatten.Perm (List.range info.length) := by
  refine (List.perm_ext_iff_of_nodup (List.nodup_flatten.mpr ⟨fun g hg => ?_, split_disjoint hsolved⟩) List.nodup_range).mpr
    fun x => ?_
  · obtain ⟨r, -, -, rfl⟩ := splitFrom_row hg
    exact List.nodup_range.filter _
  · rw [List.mem_flatten, List.mem_range]
    constructor
    · rintro ⟨g, hg, hx⟩
      obtain ⟨r, -, hmem⟩ := mem_split hsolved hg
      exact ((hmem x).mp hx).1
    · exact fun hx => split_cover hsolved hx

theorem split_sameDef {g g' : List ℕ} (hg : g ∈ split samedef info.length) (hg' : g' ∈ split samedef info.length)
    (hi : i ∈ g) (hj : j ∈ g') : SameDef info i j ↔ g = g' := by
  obtain ⟨r, -, hmem⟩ := mem_split hsolved hg
  obtain ⟨r', -, hmem'⟩ := mem_split hsolved hg'
  constructor
  · intro h
    by_contra hne
    have hjg : j ∈ g := (hmem j).mpr ⟨((hmem' j).mp hj).1, ((hmem i).mp hi).2.trans h⟩
    have hsymm : Std.Symm (@List.Disjoint ℕ) := ⟨fun _ _ h => h.symm⟩
    exact (split_disjoint hsolved).forall hg hg' hne hjg hj
  · rintro rfl
    exact ((hmem i).mp hi).2.symm.trans ((hmem j).mp hj).2

end SameDef

end SplitDefinitions
