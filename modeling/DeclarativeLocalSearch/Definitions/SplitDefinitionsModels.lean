import DeclarativeLocalSearch.Definitions.SplitDefinitions

set_option linter.unusedSectionVars false

open Theory (SIGN Variable PFSymbol Term Formula Rule SortedVocabulary Structure ThreeValuedSemantics Atoms Refines defined)
open BootstrappingUtils
open Approximator (Agree agree_iff)

variable {S P F D : Type} [DecidableEq S]

namespace SplitDefinitions

section Parts

variable {I : Structure S P F D} (W : ThreeValuedSemantics I) (e : Variable S → D) {rules part : List (Rule S P F D)}

def heads (part : List (Rule S P F D)) : List (PFSymbol S P F) := part.map definedSymbol

-- the atoms that the rules for the symbols of the part look at
def reads (rules part : List (Rule S P F D)) : Atoms S P F D :=
  {a | ∃ r ∈ rules, definedSymbol r ∈ heads part ∧ a.1 ∈ r.graphed.symbols}

theorem mem_defined {a : PFSymbol S P F × List D} : a ∈ defined part ↔ a.1 ∈ heads part := by
  simp [defined, heads, definedSymbol, eq_comm]

theorem head_mem {r : Rule S P F D} {a : PFSymbol S P F × List D} (h : a.1 = r.graphed.head) (ha : a ∈ defined part) :
    definedSymbol r ∈ heads part := by
  rw [definedSymbol, ← h]
  exact mem_defined.mp ha

theorem reads_refines {X Y X' Y' : Atoms S P F D} (hX : Agree (reads rules part) X X') (hY : Agree (reads rules part) Y Y')
    {r : Rule S P F D} (hr : r ∈ rules) (hhead : definedSymbol r ∈ heads part) : Refines r.graphed.symbols X Y X' Y' :=
  fun _ hs _ => ⟨(agree_iff.mp hX _ ⟨r, hr, hhead, hs⟩).mp, (agree_iff.mp hY _ ⟨r, hr, hhead, hs⟩).mpr⟩

theorem derive_reads {X Y X' Y' : Atoms S P F D} (hX : Agree (reads rules part) X X')
    (hY : Agree (reads rules part) Y Y') {a : PFSymbol S P F × List D} (ha : a ∈ defined part)
    (h : a ∈ (W.approximator rules e).derive X Y) : a ∈ (W.approximator rules e).derive X' Y' := by
  obtain ⟨r, hr, hderives⟩ := h
  have hhead : definedSymbol r ∈ heads part := head_mem hderives.1 ha
  exact ⟨r, hr, W.derives_mono (reads_refines hX hY hr hhead) hderives⟩

theorem dependsOn_reads (rules part : List (Rule S P F D)) :
    (W.approximator rules e).DependsOn (defined part) (reads rules part) :=
  fun _ _ _ _ hX hY => agree_iff.mpr fun _ ha => ⟨derive_reads W e hX hY ha, derive_reads W e hX.symm hY.symm ha⟩

theorem satisfies_part (hsub : ∀ r ∈ part, r ∈ rules) (hall : ∀ r ∈ rules, definedSymbol r ∈ heads part → r ∈ part) :
    W.satisfies part e ↔ (W.approximator rules e).IsModel I.atoms (defined part) := by
  refine Approximator.isModel_congr fun X Y => agree_iff.mpr fun a ha => ?_
  constructor
  · exact fun ⟨r, hr, hderives⟩ => ⟨r, hsub r hr, hderives⟩
  · exact fun ⟨r, hr, hderives⟩ => ⟨r, hall r hr (head_mem hderives.1 ha), hderives⟩

-- parts with their own symbols, and a rank that is lower where a rule looks at another part
theorem satisfies_of_rank {ι : Type} (part : ι → List (Rule S P F D)) (rank : ι → ℕ) {l : List ι}
    (hrules : ∀ r, r ∈ rules ↔ ∃ i ∈ l, r ∈ part i)
    (hdisj : l.Pairwise fun i j => ∀ r ∈ part i, ∀ r' ∈ part j, definedSymbol r ≠ definedSymbol r')
    (hrank : ∀ i ∈ l, ∀ j ∈ l, i ≠ j → ∀ r ∈ part i, ∀ r' ∈ part j, definedSymbol r' ∈ r.graphed.symbols →
      rank j < rank i) :
    W.satisfies rules e ↔ ∀ i ∈ l, W.satisfies (part i) e := by
  have hmem : ∀ i ∈ l, ∀ r ∈ part i, r ∈ rules := fun i hi r hr => (hrules r).mpr ⟨i, hi, hr⟩
  have hown : ∀ i ∈ l, ∀ r ∈ rules, definedSymbol r ∈ heads (part i) → r ∈ part i := by
    intro i hi r hr hhead
    obtain ⟨j, hj, hr⟩ := (hrules r).mp hr
    obtain ⟨r', hr', heq⟩ := List.mem_map.mp hhead
    have hsymm : Std.Symm fun i j => ∀ r ∈ part i, ∀ r' ∈ part j, definedSymbol r ≠ definedSymbol r' :=
      ⟨fun _ _ h r hr r' hr' heq => h r' hr' r hr heq.symm⟩
    by_contra hnot
    exact hdisj.forall hi hj (fun hij => hnot (hij ▸ hr)) r' hr' r hr heq
  have hblocks : defined rules = Approximator.blocks (fun i => defined (part i)) l := by
    ext a
    constructor
    · rintro ⟨r, hr, ha⟩
      obtain ⟨i, hi, hr⟩ := (hrules r).mp hr
      exact ⟨i, hi, r, hr, ha⟩
    · rintro ⟨i, hi, r, hr, ha⟩
      exact ⟨r, hmem i hi r hr, ha⟩
  rw [ThreeValuedSemantics.satisfies, hblocks, forall₂_congr fun i hi => satisfies_part W e (hmem i hi) (hown i hi)]
  refine Approximator.isModel_blocks_of_rank (fun i => dependsOn_reads W e rules (part i)) rank ?_ ?_
  · refine hdisj.imp fun h => Set.disjoint_left.mpr ?_
    rintro a ⟨r, hr, hhead⟩ ⟨r', hr', hhead'⟩
    exact h r hr r' hr' (hhead.symm.trans hhead')
  · intro i hi j hj hdisjoint hreads
    obtain ⟨a, ⟨r, hr, hhead, hsymbol⟩, r', hr', ha⟩ := Set.not_disjoint_iff.mp hreads
    have hmem' : (definedSymbol r', []) ∈ defined (part j) := mem_defined.mpr (List.mem_map_of_mem hr')
    rw [ha] at hsymbol
    refine hrank i hi j hj ?_ r (hown i hi r hr hhead) r' hr' hsymbol
    rintro rfl
    exact Set.disjoint_left.mp hdisjoint hmem' hmem'

variable {V : SortedVocabulary S P F} {info : List (RuleInfo S P F)} {d : ℕ} {parts : List (List (Rule S P F D))}

noncomputable def partRank (info : List (RuleInfo S P F)) (d : ℕ) : List (Rule S P F D) → ℕ
  | [] => 0
  | r :: _ => (reach info d (definedSymbol r)).ncard

theorem partRank_eq (hdefined : ∀ r ∈ part, DefinedIn info (definedSymbol r) d)
    (hconnected : ∀ r ∈ part, ∀ r' ∈ part, Connected info d (definedSymbol r) (definedSymbol r')) {r : Rule S P F D}
    (hr : r ∈ part) : partRank info d part = (reach info d (definedSymbol r)).ncard := by
  match part, hr with
  | r' :: part, hr =>
    have hmem : r' ∈ r' :: part := List.mem_cons_self
    rw [partRank, reach_eq (hdefined r' hmem) (hdefined r hr) (hconnected r' hmem r hr)]

-- the parts are the strongly connected components of a definition
theorem satisfies_parts (hinfo : ∀ r ∈ rules, ruleInfo V (d, r) ∈ info)
    (hrules : ∀ r, r ∈ rules ↔ ∃ part ∈ parts, r ∈ part)
    (hconnected : ∀ part ∈ parts, ∀ r ∈ part, ∀ r' ∈ part, Connected info d (definedSymbol r) (definedSymbol r'))
    (hapart : parts.Pairwise fun part part' => ∀ r ∈ part, ∀ r' ∈ part', ¬ Connected info d (definedSymbol r) (definedSymbol r')) :
    W.satisfies rules e ↔ ∀ part ∈ parts, W.satisfies part e := by
  have hdefined : ∀ r ∈ rules, DefinedIn info (definedSymbol r) d := fun r hr => ⟨_, hinfo r hr, rfl, rfl⟩
  have hmem : ∀ part ∈ parts, ∀ r ∈ part, r ∈ rules := fun part hpart r hr => (hrules r).mpr ⟨part, hpart, hr⟩
  have hrank : ∀ part ∈ parts, ∀ r ∈ part, partRank info d part = (reach info d (definedSymbol r)).ncard :=
    fun part hpart r => partRank_eq (fun r' hr' => hdefined r' (hmem part hpart r' hr')) (hconnected part hpart)
  refine satisfies_of_rank W e id (partRank info d) hrules ?_ ?_
  · exact hapart.imp fun h r hr r' hr' heq => h r hr r' hr' (Or.inl heq)
  · intro part hpart part' hpart' hne r hr r' hr' hsymbol
    obtain ⟨sign, hopens⟩ := opens_of_symbols (V := V) hsymbol
    have hdepends : DependsAny info d (definedSymbol r) (definedSymbol r') :=
      ⟨sign, .body (hinfo r (hmem part hpart r hr)) rfl hopens⟩
    have hsymm : Std.Symm fun part part' : List (Rule S P F D) =>
        ∀ r ∈ part, ∀ r' ∈ part', ¬ Connected info d (definedSymbol r) (definedSymbol r') :=
      ⟨fun _ _ h r hr r' hr' hcon => h r' hr' r hr hcon.symm⟩
    rw [hrank part hpart r hr, hrank part' hpart' r' hr']
    exact reach_lt (hdefined r (hmem part hpart r hr)) hdepends (hapart.forall hpart hpart' hne r hr r' hr')

end Parts

section Theory

variable {V : SortedVocabulary S P F} {defs : List (List (Rule S P F D))} {samedef : ℕ → ℕ → Bool} {i j d : ℕ}
  {r r' : Rule S P F D} {g g' : List ℕ}

theorem filterMap_range {α β : Type} (f : α → β) : ∀ l : List α,
    ((List.range l.length).filterMap fun i => l[i]?.map f) = l.map f
  | [] => rfl
  | x :: l => by
    rw [List.length_cons, List.range_succ_eq_map, List.filterMap_cons, List.filterMap_map]
    exact congrArg (f x :: ·) (filterMap_range f l)

theorem mem_getOriginals : r ∈ getOriginals defs g ↔ ∃ i ∈ g, ∃ d, (named 0 defs)[i]? = some (d, r) := by
  rw [getOriginals, List.mem_filterMap]
  refine exists_congr fun i => and_congr_right fun _ => ?_
  rw [Option.map_eq_some_iff]
  constructor
  · rintro ⟨⟨d, r⟩, h, rfl⟩
    exact ⟨d, h⟩
  · exact fun ⟨d, h⟩ => ⟨_, h, rfl⟩

theorem getDefinitionInfo_getElem (h : (named 0 defs)[i]? = some (d, r)) :
    (getDefinitionInfo V defs)[i]? = some (ruleInfo V (d, r)) := by
  rw [getDefinitionInfo, List.getElem?_map, h]
  rfl

theorem getDefinitionInfo_length : (getDefinitionInfo V defs).length = (named 0 defs).length := List.length_map _

theorem exists_named (hi : i < (named 0 defs).length) : ∃ d r, (named 0 defs)[i]? = some (d, r) :=
  ⟨_, _, List.getElem?_eq_getElem hi⟩

theorem lt_of_named {x : ℕ × Rule S P F D} (h : (named 0 defs)[i]? = some x) : i < (named 0 defs).length :=
  (List.getElem?_eq_some_iff.mp h).1

-- rules of one name are of one definition, and their symbols are connected
theorem SameDef.connected (h : SameDef (getDefinitionInfo V defs) i j) (hi : (named 0 defs)[i]? = some (d, r)) :
    ∃ r', (named 0 defs)[j]? = some (d, r') ∧
      Connected (getDefinitionInfo V defs) d (definedSymbol r) (definedSymbol r') := by
  obtain ⟨r₁, r₂, h₁, h₂, hin, hconnected⟩ := sameDef_iff.mp h
  obtain rfl := Option.some.inj (h₁.symm.trans (getDefinitionInfo_getElem hi))
  rw [getDefinitionInfo, List.getElem?_map] at h₂
  obtain ⟨⟨d', r'⟩, hj, rfl⟩ := Option.map_eq_some_iff.mp h₂
  obtain rfl : d = d' := hin
  exact ⟨r', hj, hconnected⟩

def partsOf (samedef : ℕ → ℕ → Bool) (defs : List (List (Rule S P F D))) (d : ℕ) : List (List ℕ) :=
  (split samedef (named 0 defs).length).filter fun g => g.all fun i => ((named 0 defs)[i]?).map Prod.fst == some d

theorem mem_partsOf : g ∈ partsOf samedef defs d ↔ g ∈ split samedef (named 0 defs).length ∧
    ∀ i ∈ g, ((named 0 defs)[i]?).map Prod.fst = some d := by
  rw [partsOf, List.mem_filter]
  simp

variable (hsolved : Solved (getDefinitionInfo V defs) samedef)

include hsolved

theorem sameDef_of_split (hg : g ∈ split samedef (named 0 defs).length) (hg' : g' ∈ split samedef (named 0 defs).length)
    (hi : i ∈ g) (hj : j ∈ g') : SameDef (getDefinitionInfo V defs) i j ↔ g = g' := by
  rw [← getDefinitionInfo_length (V := V)] at hg hg'
  exact split_sameDef hsolved hg hg' hi hj

theorem mem_partsOf_of_mem (hg : g ∈ split samedef (named 0 defs).length) (hi : i ∈ g)
    (hget : (named 0 defs)[i]? = some (d, r)) : g ∈ partsOf samedef defs d := by
  refine mem_partsOf.mpr ⟨hg, fun j hj => ?_⟩
  obtain ⟨r', hr', -⟩ := ((sameDef_of_split hsolved hg hg hi hj).mpr rfl).connected hget
  rw [hr', Option.map_some]

theorem exists_partsOf (hget : (named 0 defs)[i]? = some (d, r)) : ∃ g ∈ partsOf samedef defs d, i ∈ g := by
  have hlt := lt_of_named hget
  rw [← getDefinitionInfo_length (V := V)] at hlt
  obtain ⟨g, hg, hi⟩ := split_cover hsolved hlt
  rw [getDefinitionInfo_length] at hg
  exact ⟨g, mem_partsOf_of_mem hsolved hg hi hget, hi⟩

theorem split_oneDefinition (hg : g ∈ split samedef (named 0 defs).length) :
    ∃ d rules, defs[d]? = some rules ∧ g ∈ partsOf samedef defs d := by
  have hg' := hg
  rw [← getDefinitionInfo_length (V := V)] at hg'
  obtain ⟨r, hr, hmem⟩ := mem_split hsolved hg'
  have hrg : r ∈ g := (hmem r).mpr ⟨hr, .refl hr⟩
  rw [getDefinitionInfo_length] at hr
  obtain ⟨d, rule, hget⟩ := exists_named hr
  obtain ⟨k, rules, rfl, hrules, -⟩ := mem_named.mp (List.mem_of_getElem? hget)
  rw [Nat.zero_add] at hget
  exact ⟨k, rules, hrules, mem_partsOf_of_mem hsolved hg hrg hget⟩

theorem satisfies_partsOf {I : Structure S P F D} (W : ThreeValuedSemantics I) (e : Variable S → D)
    {rules : List (Rule S P F D)} (hd : defs[d]? = some rules) :
    W.satisfies rules e ↔ ∀ g ∈ partsOf samedef defs d, W.satisfies (getOriginals defs g) e := by
  have hnamed : ∀ r, r ∈ rules ↔ (d, r) ∈ named 0 defs := by
    intro r
    rw [mem_named]
    constructor
    · exact fun hr => ⟨d, rules, (Nat.zero_add d).symm, hd, hr⟩
    · rintro ⟨k, rules', rfl, hget, hr⟩
      rw [Nat.zero_add] at hd
      rwa [Option.some.inj (hd.symm.trans hget)]
  have hname : ∀ {g r}, g ∈ partsOf samedef defs d → r ∈ getOriginals defs g →
      ∃ i ∈ g, (named 0 defs)[i]? = some (d, r) := by
    intro g r hg hr
    obtain ⟨i, hi, d', hget⟩ := mem_getOriginals.mp hr
    have hd' := (mem_partsOf.mp hg).2 i hi
    rw [hget, Option.map_some] at hd'
    exact ⟨i, hi, hget.trans (congrArg (fun d => some (d, r)) (Option.some.inj hd'))⟩
  have hrules : ∀ r, r ∈ rules ↔ ∃ part ∈ (partsOf samedef defs d).map (getOriginals defs), r ∈ part := by
    intro r
    rw [hnamed, List.mem_iff_getElem?]
    constructor
    · rintro ⟨i, hget⟩
      obtain ⟨g, hg, hi⟩ := exists_partsOf hsolved hget
      exact ⟨_, List.mem_map_of_mem hg, mem_getOriginals.mpr ⟨i, hi, d, hget⟩⟩
    · rintro ⟨_, hpart, hr⟩
      obtain ⟨g, hg, rfl⟩ := List.mem_map.mp hpart
      obtain ⟨i, -, hget⟩ := hname hg hr
      exact ⟨i, hget⟩
  have hinfo : ∀ r ∈ rules, ruleInfo V (d, r) ∈ getDefinitionInfo V defs := fun r hr =>
    List.mem_map_of_mem ((hnamed r).mp hr)
  refine (satisfies_parts W e hinfo hrules (List.forall_mem_map.mpr fun g hg r hr r' hr' => ?_)
    (List.pairwise_map.mpr ?_)).trans List.forall_mem_map
  · obtain ⟨i, hi, hget⟩ := hname hg hr
    obtain ⟨j, hj, hget'⟩ := hname hg hr'
    have hsplit := (mem_partsOf.mp hg).1
    obtain ⟨r₂, hr₂, hconnected⟩ := ((sameDef_of_split hsolved hsplit hsplit hi hj).mpr rfl).connected hget
    obtain ⟨-, rfl⟩ := Prod.ext_iff.mp (Option.some.inj (hr₂.symm.trans hget'))
    exact hconnected
  · have hdisjoint := split_disjoint hsolved
    rw [getDefinitionInfo_length] at hdisjoint
    refine (hdisjoint.sublist List.filter_sublist).imp_of_mem fun {g g'} hg hg' hdisj r hr r' hr' hcon => ?_
    obtain ⟨i, hi, hget⟩ := hname hg hr
    obtain ⟨j, hj, hget'⟩ := hname hg' hr'
    have hsame : SameDef (getDefinitionInfo V defs) i j :=
      sameDef_iff.mpr ⟨_, _, getDefinitionInfo_getElem hget, getDefinitionInfo_getElem hget', rfl, hcon⟩
    obtain rfl := (sameDef_of_split hsolved (mem_partsOf.mp hg).1 (mem_partsOf.mp hg').1 hi hj).mp hsame
    exact hdisj hi hi

theorem satisfies_split {I : Structure S P F D} (W : ThreeValuedSemantics I) (e : Variable S → D) :
    (∀ g ∈ split samedef (named 0 defs).length, W.satisfies (getOriginals defs g) e) ↔
      ∀ rules ∈ defs, W.satisfies rules e := by
  constructor
  · intro h rules hrules
    obtain ⟨d, hd⟩ := List.mem_iff_getElem?.mp hrules
    exact (satisfies_partsOf hsolved W e hd).mpr fun g hg => h g (mem_partsOf.mp hg).1
  · intro h g hg
    obtain ⟨d, rules, hd, hpart⟩ := split_oneDefinition hsolved hg
    exact (satisfies_partsOf hsolved W e hd).mp (h rules (List.mem_of_getElem? hd)) g hpart

theorem split_flatten :
    ((split samedef (named 0 defs).length).map (getOriginals defs)).flatten.Perm defs.flatten := by
  have horiginals : ∀ names : List (List ℕ), (names.map (getOriginals defs)).flatten = getOriginals defs names.flatten := by
    intro names
    rw [getOriginals, List.filterMap_flatten]
    rfl
  have hperm := split_perm hsolved
  rw [getDefinitionInfo_length] at hperm
  have hall : getOriginals defs (List.range (named 0 defs).length) = defs.flatten := by
    rw [← named_map_snd defs 0, getOriginals, filterMap_range]
  rw [horiginals, ← hall]
  exact hperm.filterMap _

end Theory

-- the new definitions have each rule once, do not mix definitions, and have the same models
theorem execute_sameModels (V : SortedVocabulary S P F) (T : Theory.Theory S P F D) (samedef : ℕ → ℕ → Bool)
    (hsolved : Solved (getDefinitionInfo V T.definitions) samedef) :
    (split samedef (named 0 T.definitions).length).flatten.Perm (List.range (named 0 T.definitions).length) ∧
    (∀ g ∈ split samedef (named 0 T.definitions).length, ∃ d, ∀ i ∈ g, ∃ r, (named 0 T.definitions)[i]? = some (d, r)) ∧
    ∀ splitDefs, (execute samedef splitDefs T).definitions.flatten.Perm T.definitions.flatten ∧
      ∀ (I : Structure S P F D) (W : ThreeValuedSemantics I) (e : Variable S → D),
        (∀ rules ∈ (execute samedef splitDefs T).definitions, W.satisfies rules e) ↔
          ∀ rules ∈ T.definitions, W.satisfies rules e := by
  refine ⟨?_, fun g hg => ?_, fun splitDefs => ?_⟩
  · have hperm := split_perm hsolved
    rwa [getDefinitionInfo_length] at hperm
  · obtain ⟨d, -, -, hpart⟩ := split_oneDefinition hsolved hg
    refine ⟨d, fun i hi => ?_⟩
    obtain ⟨⟨d', r⟩, hget, rfl⟩ := Option.map_eq_some_iff.mp ((mem_partsOf.mp hpart).2 i hi)
    exact ⟨r, hget⟩
  · cases splitDefs
    · exact ⟨.refl _, fun I W e => Iff.rfl⟩
    · exact ⟨split_flatten hsolved, fun I W e => List.forall_mem_map.trans (satisfies_split hsolved W e)⟩

section Witness

-- p and q in a definition in which they depend on each other, and p in another one
def twoDefinitions : Theory.Theory Unit Bool Empty Unit where
  sentences := []
  definitions := [[⟨[], .predicate true, [], .pred .pos (.predicate false) []⟩,
    ⟨[], .predicate false, [], .pred .neg (.predicate true) []⟩], [⟨[], .predicate true, [], .bool .pos true []⟩]]
  fixpdefs := []

def propositions : SortedVocabulary Unit Bool Empty :=
  ⟨fun _ => [], fun _ => 0, Theory.height_lt_nil, fun _ => (), fun _ => (), fun _ _ => (),
    fun _ => none⟩

def twoInfo : List (RuleInfo Unit Bool Empty) :=
  [⟨0, .predicate true, [(.predicate false, .pos)]⟩, ⟨0, .predicate false, [(.predicate true, .neg)]⟩,
    ⟨1, .predicate true, []⟩]

theorem solved_two : Solved twoInfo fun i j => i / 2 == j / 2 := by
  have hfirst : DependsAny twoInfo 0 (.predicate true) (.predicate false) :=
    ⟨.pos, .body (r := ⟨0, .predicate true, [(.predicate false, .pos)]⟩) List.mem_cons_self rfl List.mem_cons_self⟩
  have hsecond : DependsAny twoInfo 0 (.predicate false) (.predicate true) :=
    ⟨.neg, .body (r := ⟨0, .predicate false, [(.predicate true, .neg)]⟩)
      (List.mem_cons_of_mem _ List.mem_cons_self) rfl List.mem_cons_self⟩
  have hin : ∀ {i j}, SameDef twoInfo i j → (twoInfo[i]?).map RuleInfo.inDef = (twoInfo[j]?).map RuleInfo.inDef := by
    intro i j h
    obtain ⟨r₁, r₂, h₁, h₂, heq, -⟩ := sameDef_iff.mp h
    rw [h₁, h₂, Option.map_some, Option.map_some, heq]
  intro i hi j hj
  match i, j, hi, hj with
  | 0, 0, hi, _ => exact iff_of_true rfl (.refl hi)
  | 0, 1, _, _ => exact iff_of_true rfl (.mutual rfl rfl rfl hfirst hsecond)
  | 0, 2, _, _ => exact iff_of_false (by decide) fun h => absurd (hin h) (by decide)
  | 1, 0, _, _ => exact iff_of_true rfl (.mutual rfl rfl rfl hsecond hfirst)
  | 1, 1, hi, _ => exact iff_of_true rfl (.refl hi)
  | 1, 2, _, _ => exact iff_of_false (by decide) fun h => absurd (hin h) (by decide)
  | 2, 0, _, _ => exact iff_of_false (by decide) fun h => absurd (hin h) (by decide)
  | 2, 1, _, _ => exact iff_of_false (by decide) fun h => absurd (hin h) (by decide)
  | 2, 2, hi, _ => exact iff_of_true rfl (.refl hi)

def bothTrue : Structure Unit Bool Empty Unit where
  sort _ _ := True
  isEmpty _ := false
  isEmpty_iff := Theory.isEmpty_unit_iff
  less _ _ := False
  predicate _ _ := True
  function f := f.elim
  aggregate _ _ := none

theorem execute_sameModels_two :
    split (fun i j => i / 2 == j / 2) 3 = [[0, 1], [2]] ∧
    ((∀ rules ∈ (execute (fun i j => i / 2 == j / 2) true twoDefinitions).definitions,
        (Theory.Kleene.semantics bothTrue).satisfies rules fun _ => ()) ↔
      ∀ rules ∈ twoDefinitions.definitions, (Theory.Kleene.semantics bothTrue).satisfies rules fun _ => ()) :=
  ⟨rfl, ((execute_sameModels propositions twoDefinitions _ solved_two).2.2 true).2 bothTrue _ _⟩

end Witness

end SplitDefinitions
