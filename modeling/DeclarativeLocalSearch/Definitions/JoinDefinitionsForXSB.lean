import DeclarativeLocalSearch.Definitions.SplitDefinitionsModels

set_option linter.unusedSectionVars false

open Theory (SIGN Variable PFSymbol Term Formula Rule SortedVocabulary Structure ThreeValuedSemantics)
open BootstrappingUtils

variable {S P F D : Type} [DecidableEq S]

namespace JoinDefinitionsForXSB

section Bootstrapping

variable (info : List (RuleInfo S P F))

-- the theory `findHigher`
def OpenIn (p : PFSymbol S P F) (d : ℕ) : Prop :=
  (∃ r ∈ info, ∃ s, (p, s) ∈ r.inbody ∧ r.inDef = d) ∧ ¬ DefinedIn info p d

inductive DependsOn : ℕ → ℕ → Prop
  | symbol {d₁ d₂ s} : OpenIn info s d₁ → DefinedIn info s d₂ → DependsOn d₁ d₂
  | trans {d₁ d₂ d₃} : DependsOn d₁ d₃ → DependsOn d₃ d₂ → DependsOn d₁ d₂

variable (xsbcalculable : ℕ → Prop) (twovaluedsymbol : PFSymbol S P F → Prop)

-- the bodies of the two rules for calculable definitions
def calculableBody (calculabledef : ℕ → Prop) (d : ℕ) : Prop :=
  (xsbcalculable d ∧ ∀ s, OpenIn info s d → twovaluedsymbol s) ∨
  (xsbcalculable d ∧ ∀ s, OpenIn info s d → twovaluedsymbol s ∨ ∃ d₂, d ≠ d₂ ∧ DefinedIn info s d₂ ∧ calculabledef d₂)

inductive CalculableDef : ℕ → Prop
  | rule {d} (derived : ℕ → Prop) : (∀ d, derived d → CalculableDef d) →
      calculableBody info xsbcalculable twovaluedsymbol derived d → CalculableDef d

-- the theory `def_join_theory`
inductive SameDef : ℕ → ℕ → Prop
  | refl {d} : SameDef d d
  | join {d₁ d₂} : CalculableDef info xsbcalculable twovaluedsymbol d₁ →
      CalculableDef info xsbcalculable twovaluedsymbol d₂ → ¬ (DependsOn info d₁ d₂ ∧ DependsOn info d₂ d₁) →
      (¬ ∃ s, DefinedIn info s d₁ ∧ DefinedIn info s d₂) → (∀ d, DependsOn info d₂ d → SameDef d₁ d) → SameDef d₁ d₂

end Bootstrapping

section Join

variable (samedef : ℕ → ℕ → Bool)

def joinFrom (alldefs : List ℕ) : List ℕ → List ℕ → List (List ℕ)
  | [], _ => []
  | currentDef :: defs, defsDone =>
    if defsDone.contains currentDef then joinFrom alldefs defs defsDone
    else
      let row := alldefs.filter fun other => samedef currentDef other && ! defsDone.contains other
      row :: joinFrom alldefs defs (defsDone ++ row)

def rulesOf (defs : List (List (Rule S P F D))) (d : ℕ) : List (Rule S P F D) := defs[d]?.getD []

-- a definition without rules is in no tuple, so that it is no element of the sort
def alldefs (defs : List (List (Rule S P F D))) : List ℕ :=
  (List.range defs.length).filter fun d => ! (rulesOf defs d).isEmpty

-- the names of the definitions that are joined
def joinForXSB (defs : List (List (Rule S P F D))) : List (List ℕ) :=
  joinFrom samedef (alldefs defs) (alldefs defs) []

def join (defs : List (List (Rule S P F D))) (names : List ℕ) : List (Rule S P F D) := names.flatMap (rulesOf defs)

def execute (joinDefsForXSB : Bool) (T : Theory.Theory S P F D) : Theory.Theory S P F D :=
  if joinDefsForXSB then { T with definitions := (joinForXSB samedef T.definitions).map (join T.definitions) } else T

end Join

section Prepare

-- the open symbols, as they are collected from the heads and the bodies
def opens (rules : List (Rule S P F D)) (s : PFSymbol S P F) : Prop :=
  (∃ r ∈ rules, s = r.head ∨ s ∈ r.symbols) ∧ ∀ r ∈ rules, s ≠ definedSymbol r

variable (V : SortedVocabulary S P F) (determineXSBUsage : List (Rule S P F D) → Bool)
  (approxTwoValued : PFSymbol S P F → Bool) (defs : List (List (Rule S P F D)))

def xsbCalculable (d : ℕ) : Prop := d ∈ alldefs defs ∧ determineXSBUsage (rulesOf defs d) = true

def twoValuedSymbol (s : PFSymbol S P F) : Prop := (∃ d ∈ alldefs defs, opens (rulesOf defs d) s) ∧ approxTwoValued s = true

-- the model that was found is that of the bootstrapping theory
def Solved (samedef : ℕ → ℕ → Bool) : Prop :=
  ∀ i ∈ alldefs defs, ∀ j ∈ alldefs defs, samedef i j = true ↔
    SameDef (getDefinitionInfo V defs) (xsbCalculable determineXSBUsage defs) (twoValuedSymbol approxTwoValued defs) i j

end Prepare

end JoinDefinitionsForXSB

set_option linter.unusedSectionVars false

open Theory (SIGN Variable PFSymbol Term Formula Rule SortedVocabulary Structure ThreeValuedSemantics)
open BootstrappingUtils
open SplitDefinitions (satisfies_of_rank)

variable {S P F D : Type} [DecidableEq S]

namespace JoinDefinitionsForXSB

section Joinable

variable {info : List (RuleInfo S P F)} {xsbcalculable : ℕ → Prop} {twovaluedsymbol : PFSymbol S P F → Prop} {i j k : ℕ}

def Common (info : List (RuleInfo S P F)) (i j : ℕ) : Prop := ∃ s, DefinedIn info s i ∧ DefinedIn info s j

-- the definition and all it depends on are calculable and not recursive through each other, and have no symbol in
-- common with the first one
def Joinable (info : List (RuleInfo S P F)) (xsbcalculable : ℕ → Prop) (twovaluedsymbol : PFSymbol S P F → Prop)
    (i j : ℕ) : Prop :=
  j = i ∨ CalculableDef info xsbcalculable twovaluedsymbol i ∧
    ∀ k, k = j ∨ DependsOn info j k → k ≠ i →
      CalculableDef info xsbcalculable twovaluedsymbol k ∧ ¬ DependsOn info k k ∧ ¬ Common info i k

theorem dependsOn_defined (h : DependsOn info i j) : j ∈ info.map RuleInfo.inDef := by
  induction h with
  | symbol _ hdefined =>
    obtain ⟨r, hr, rfl, -⟩ := hdefined
    exact List.mem_map_of_mem hr
  | trans _ _ _ ih => exact ih

def after (info : List (RuleInfo S P F)) (i : ℕ) : Set ℕ := {j | DependsOn info i j}

theorem after_finite : (after info i).Finite :=
  (info.map RuleInfo.inDef).finite_toSet.subset fun _ h => dependsOn_defined h

theorem after_lt (h : DependsOn info i j) (hj : ¬ DependsOn info j j) : (after info j).ncard < (after info i).ncard :=
  Set.ncard_lt_ncard ⟨fun _ hk => h.trans hk, fun hsub => hj (hsub h)⟩ after_finite

theorem SameDef.joinable (h : SameDef info xsbcalculable twovaluedsymbol i j) :
    Joinable info xsbcalculable twovaluedsymbol i j := by
  induction h with
  | refl => exact Or.inl rfl
  | @join j hi hj hmutual hcommon hdepends ih =>
    refine or_iff_not_imp_left.mpr fun hne => ⟨hi, fun k hk hki => ?_⟩
    rcases hk with rfl | hk
    · refine ⟨hj, fun hcycle => ?_, hcommon⟩
      exact (((ih k hcycle).resolve_left hki).2 k (Or.inl rfl) hki).2.1 hcycle
    · exact ((ih k hk).resolve_left hki).2 k (Or.inl rfl) hki

theorem Joinable.sameDef (h : Joinable info xsbcalculable twovaluedsymbol i j) :
    SameDef info xsbcalculable twovaluedsymbol i j := by
  induction hn : (after info j).ncard using Nat.strong_induction_on generalizing j with
  | h n ih =>
    rcases h with rfl | ⟨hi, hall⟩
    · exact .refl
    by_cases hji : j = i
    · exact hji ▸ .refl
    obtain ⟨hj, hcycle, hcommon⟩ := hall j (Or.inl rfl) hji
    refine .join hi hj (fun ⟨hij, hji⟩ => hcycle (hji.trans hij)) hcommon fun k hk => ?_
    by_cases hki : k = i
    · exact hki ▸ .refl
    · have hk' := (hall k (Or.inr hk) hki).2.1
      refine ih _ (hn ▸ after_lt hk hk') (Or.inr ⟨hi, fun l hl => hall l (Or.inr ?_)⟩) rfl
      exact hl.elim (fun heq => heq ▸ hk) hk.trans

theorem sameDef_iff : SameDef info xsbcalculable twovaluedsymbol i j ↔ Joinable info xsbcalculable twovaluedsymbol i j :=
  ⟨SameDef.joinable, Joinable.sameDef⟩

-- what is joined with one definition is not recursive through another
theorem Joinable.not_mutual (h : Joinable info xsbcalculable twovaluedsymbol i j)
    (h' : Joinable info xsbcalculable twovaluedsymbol i k) (hne : j ≠ k) : ¬ (DependsOn info j k ∧ DependsOn info k j) := by
  rintro ⟨hjk, hkj⟩
  rcases h with rfl | ⟨-, hall⟩
  · exact ((h'.resolve_left hne.symm).2 k (Or.inl rfl) hne.symm).2.1 (hkj.trans hjk)
  · by_cases hji : j = i
    · subst hji
      exact ((h'.resolve_left hne.symm).2 k (Or.inl rfl) hne.symm).2.1 (hkj.trans hjk)
    · exact (hall j (Or.inl rfl) hji).2.1 (hjk.trans hkj)

end Joinable

section Leads

variable (R : ℕ → ℕ → Prop) (names : List ℕ)

-- a definition that no earlier one was joined with
def Leads (i : ℕ) : Prop := ∀ j, (_ : j < i) → j ∈ names → Leads j → ¬ R j i
  termination_by i

-- the definitions that are left for it
def Taken (i j : ℕ) : Prop := R i j ∧ ∀ k < i, k ∈ names → Leads R names k → ¬ R k j

open Classical in
noncomputable def taken (i : ℕ) : List ℕ := names.filter fun j => decide (Taken R names i j)

variable {R names} {samedef : ℕ → ℕ → Bool} {i j : ℕ}

theorem mem_taken : j ∈ taken R names i ↔ j ∈ names ∧ Taken R names i j := by
  simp [taken]

theorem leads_iff : Leads R names i ↔ ∀ j < i, j ∈ names → Leads R names j → ¬ R j i := by
  rw [Leads]

theorem mem_before {before defs : List ℕ} {d : ℕ} (hsorted : (before ++ d :: defs).Pairwise (· < ·)) :
    i ∈ before ↔ i ∈ before ++ d :: defs ∧ i < d := by
  obtain ⟨-, hdefs, hbefore⟩ := List.pairwise_append.mp hsorted
  constructor
  · exact fun hi => ⟨List.mem_append_left _ hi, hbefore i hi d List.mem_cons_self⟩
  · rintro ⟨hi, hlt⟩
    refine (List.mem_append.mp hi).resolve_right fun hi => ?_
    rcases List.mem_cons.mp hi with rfl | hi
    · exact lt_irrefl _ hlt
    · exact lt_asymm hlt ((List.pairwise_cons.mp hdefs).1 i hi)

theorem mem_joinFrom (hR : ∀ i ∈ names, ∀ j ∈ names, samedef i j = true ↔ R i j) (hsorted : names.Pairwise (· < ·)) :
    ∀ {before defs done : List ℕ}, names = before ++ defs →
      (∀ j ∈ names, j ∈ done ↔ ∃ i ∈ before, Leads R names i ∧ R i j) →
      ∀ g, g ∈ joinFrom samedef names defs done ↔ ∃ i ∈ defs, Leads R names i ∧ g = taken R names i
  | before, [], done, _, _, g => iff_of_false List.not_mem_nil fun ⟨_, h, _⟩ => absurd h List.not_mem_nil
  | before, d :: defs, done, hnames, hdone, g => by
    have hbefore : ∀ i, i ∈ before ↔ i ∈ names ∧ i < d := fun i => by
      rw [hnames] at hsorted ⊢
      exact mem_before hsorted
    have hd : d ∈ names := hnames ▸ List.mem_append_right _ List.mem_cons_self
    have hnot : ∀ j ∈ names, j ∉ done ↔ ∀ k < d, k ∈ names → Leads R names k → ¬ R k j := by
      intro j hj
      rw [hdone j hj]
      constructor
      · exact fun h k hk hmem hleads hR => h ⟨k, (hbefore k).mpr ⟨hmem, hk⟩, hleads, hR⟩
      · exact fun h ⟨k, hk, hleads, hR⟩ => h k ((hbefore k).mp hk).2 ((hbefore k).mp hk).1 hleads hR
    have hleads : d ∉ done ↔ Leads R names d := (hnot d hd).trans leads_iff.symm
    have hnames' : names = (before ++ [d]) ++ defs := by rw [hnames, List.append_assoc, List.singleton_append]
    have hstep : ∀ j, (∃ i ∈ before ++ [d], Leads R names i ∧ R i j) ↔
        (∃ i ∈ before, Leads R names i ∧ R i j) ∨ (Leads R names d ∧ R d j) := by
      intro j
      simp only [List.mem_append, List.mem_singleton, or_and_right, exists_or, exists_eq_left]
    rw [joinFrom, List.exists_mem_cons_iff]
    by_cases hcontains : d ∈ done
    · have hd' : ¬ Leads R names d := fun h => hleads.mpr h hcontains
      rw [if_pos (by simpa using hcontains), or_iff_right fun h => hd' h.1]
      refine mem_joinFrom hR hsorted hnames' (fun j hj => ?_) g
      rw [hstep, or_iff_left fun h => hd' h.1, hdone j hj]
    · have hd' := hleads.mp hcontains
      have hrow : (names.filter fun j => samedef d j && ! done.contains j) = taken R names d := by
        classical
        refine List.filter_congr fun j hj => ?_
        rw [Bool.eq_iff_iff, Bool.and_eq_true, hR d hd j hj, decide_eq_true_eq, Taken, ← hnot j hj]
        simp
      rw [if_neg (by simpa using hcontains), hrow, List.mem_cons, and_iff_right hd']
      refine or_congr_right (mem_joinFrom hR hsorted hnames' (fun j hj => ?_) g)
      rw [hstep, ← hdone j hj, List.mem_append, mem_taken, and_iff_right hj, and_iff_right hd', Taken, ← hnot j hj]
      exact ⟨fun h => h.imp_right And.left, fun h => or_iff_not_imp_left.mpr fun hj => ⟨h.resolve_left hj, hj⟩⟩

theorem joinFrom_flatten (hrefl : ∀ i ∈ names, samedef i i = true) : ∀ {defs done : List ℕ},
    (∀ j ∈ names, j ∉ done → j ∈ defs) → (∀ j ∈ defs, j ∈ names) →
      (joinFrom samedef names defs done).flatten.Perm (names.filter fun j => ! done.contains j)
  | [], done, hdefs, _ => by
    have hempty : (names.filter fun j => ! done.contains j) = [] :=
      List.filter_eq_nil_iff.mpr fun j hj => by simpa using mt (hdefs j hj) List.not_mem_nil
    rw [joinFrom, hempty, List.flatten_nil]
  | d :: defs, done, hdefs, hnames => by
    obtain ⟨hd, hnames⟩ := List.forall_mem_cons.mp hnames
    rw [joinFrom]
    split
    · next hcontains =>
      refine joinFrom_flatten hrefl (fun j hj hnot => ?_) hnames
      refine (List.mem_cons.mp (hdefs j hj hnot)).resolve_left ?_
      rintro rfl
      exact hnot (by simpa using hcontains)
    · next hcontains =>
      have hrest := @joinFrom_flatten hrefl defs
        (done ++ names.filter fun j => samedef d j && ! done.contains j) (fun j hj hnot => ?_) hnames
      · rw [List.flatten_cons]
        refine (hrest.append_left _).trans ?_
        refine List.Perm.trans (.of_eq ?_) (List.filter_append_perm (samedef d) (names.filter fun j => ! done.contains j))
        rw [List.filter_filter, List.filter_filter]
        congr 1
        refine List.filter_congr fun j hj => ?_
        cases h : done.contains j <;> cases h' : samedef d j <;> simp_all
      · rcases List.mem_cons.mp (hdefs j hj fun h => hnot (List.mem_append_left _ h)) with rfl | hj'
        · refine absurd (List.mem_append_right _ (List.mem_filter.mpr ⟨hj, ?_⟩)) hnot
          rw [hrefl j hj, Bool.true_and]
          simpa using hcontains
        · exact hj'

end Leads

section Rules

variable {V : SortedVocabulary S P F} {defs : List (List (Rule S P F D))} {i j : ℕ} {r : Rule S P F D} {g : List ℕ}

theorem rulesOf_get {rules : List (Rule S P F D)} (h : defs[i]? = some rules) : rulesOf defs i = rules := by
  rw [rulesOf, h, Option.getD_some]

theorem get_of_mem (h : r ∈ rulesOf defs i) : defs[i]? = some (rulesOf defs i) := by
  rw [rulesOf] at h ⊢
  cases hget : defs[i]? with
  | none =>
    rw [hget] at h
    exact absurd h List.not_mem_nil
  | some rules => rfl

theorem mem_alldefs : i ∈ alldefs defs ↔ ∃ r, r ∈ rulesOf defs i := by
  rw [alldefs, List.mem_filter, List.mem_range]
  constructor
  · rintro ⟨-, hempty⟩
    exact List.exists_mem_of_ne_nil _ (by simpa using hempty)
  · rintro ⟨r, hr⟩
    have hne := List.ne_nil_of_mem hr
    exact ⟨(List.getElem?_eq_some_iff.mp (get_of_mem hr)).1, by simpa using hne⟩

theorem alldefs_sorted : (alldefs defs).Pairwise (· < ·) := List.pairwise_lt_range.filter _

theorem definedIn_of_mem (h : r ∈ rulesOf defs i) : DefinedIn (getDefinitionInfo V defs) (definedSymbol r) i :=
  ⟨_, List.mem_map_of_mem (mem_named.mpr ⟨i, _, (Nat.zero_add i).symm, get_of_mem h, h⟩), rfl, rfl⟩

-- a rule that uses a symbol that only another definition defines
theorem dependsOn_of_symbols {r' : Rule S P F D} (hr : r ∈ rulesOf defs i) (hr' : r' ∈ rulesOf defs j)
    (hcommon : ¬ Common (getDefinitionInfo V defs) i j) (hsymbol : definedSymbol r' ∈ r.graphed.symbols) :
    DependsOn (getDefinitionInfo V defs) i j := by
  have hdefined := definedIn_of_mem (V := V) hr'
  obtain ⟨sign, hopens⟩ := opens_of_symbols (V := V) hsymbol
  refine .symbol ⟨⟨ruleInfo V (i, r), ?_, sign, hopens, rfl⟩, fun h => hcommon ⟨_, h, hdefined⟩⟩ hdefined
  exact List.mem_map_of_mem (mem_named.mpr ⟨i, _, (Nat.zero_add i).symm, get_of_mem hr, hr⟩)

-- definitions that are not recursive through each other may be taken as one
theorem satisfies_join {I : Structure S P F D} (W : ThreeValuedSemantics I) (e : Variable S → D) (hnodup : g.Nodup)
    (hcommon : ∀ x ∈ g, ∀ y ∈ g, x ≠ y → ¬ Common (getDefinitionInfo V defs) x y)
    (hmutual : ∀ x ∈ g, ∀ y ∈ g, x ≠ y →
      ¬ (DependsOn (getDefinitionInfo V defs) x y ∧ DependsOn (getDefinitionInfo V defs) y x)) :
    W.satisfies (join defs g) e ↔ ∀ x ∈ g, W.satisfies (rulesOf defs x) e := by
  let reached := fun x => {y | y = x ∨ DependsOn (getDefinitionInfo V defs) x y}
  have hfinite : ∀ x, (reached x).Finite := fun x => (Set.finite_singleton x).union after_finite
  refine satisfies_of_rank W e (rulesOf defs) (fun x => (reached x).ncard) (fun r => List.mem_flatMap) ?_ ?_
  · exact hnodup.imp_of_mem fun hx hy hne r hr r' hr' heq =>
      hcommon _ hx _ hy hne ⟨_, definedIn_of_mem hr, heq ▸ definedIn_of_mem hr'⟩
  · intro x hx y hy hne r hr r' hr' hsymbol
    have hxy := dependsOn_of_symbols hr hr' (hcommon x hx y hy hne) hsymbol
    refine Set.ncard_lt_ncard ⟨fun z hz => Or.inr ?_, fun hsub => ?_⟩ (hfinite x)
    · rcases hz with rfl | hyz
      · exact hxy
      · exact hxy.trans hyz
    · exact hmutual x hx y hy hne ⟨hxy, (hsub (Or.inl rfl)).resolve_left hne⟩

theorem satisfies_nil {I : Structure S P F D} (W : ThreeValuedSemantics I) (e : Variable S → D) : W.satisfies [] e := by
  have hempty : Theory.defined ([] : List (Rule S P F D)) = ∅ := by simp [Theory.defined]
  rw [ThreeValuedSemantics.satisfies, hempty]
  exact Approximator.isModel_empty

theorem satisfies_alldefs {I : Structure S P F D} (W : ThreeValuedSemantics I) (e : Variable S → D) :
    (∀ x ∈ alldefs defs, W.satisfies (rulesOf defs x) e) ↔ ∀ rules ∈ defs, W.satisfies rules e := by
  constructor
  · intro h rules hrules
    obtain ⟨i, hi⟩ := List.mem_iff_getElem?.mp hrules
    rcases rules with _ | ⟨r, rules⟩
    · exact satisfies_nil W e
    · rw [← rulesOf_get hi]
      exact h i (mem_alldefs.mpr ⟨r, rulesOf_get hi ▸ List.mem_cons_self⟩)
  · intro h x hx
    obtain ⟨r, hr⟩ := mem_alldefs.mp hx
    exact h _ (List.mem_of_getElem? (get_of_mem hr))

theorem join_alldefs : join defs (alldefs defs) = defs.flatten := by
  have hrange : (List.range defs.length).map (rulesOf defs) = defs :=
    List.ext_getElem (by simp) fun i hi hi' => by simp [rulesOf, hi']
  have hfilter : ∀ l : List ℕ, (l.filter fun d => ! (rulesOf defs d).isEmpty).flatMap (rulesOf defs) =
      l.flatMap (rulesOf defs) := by
    intro l
    induction l with
    | nil => rfl
    | cons d l ih =>
      rw [List.filter_cons, List.flatMap_cons]
      split
      · rw [List.flatMap_cons, ih]
      · next hempty => rw [ih, show rulesOf defs d = [] by simpa using hempty, List.nil_append]
  rw [join, alldefs, hfilter, List.flatMap_def, hrange]

theorem join_flatten (groups : List (List ℕ)) : (groups.map (join defs)).flatten = join defs groups.flatten := by
  rw [join, List.flatMap_def, List.map_flatten, List.flatten_flatten, List.map_map]
  rfl

end Rules

section Joins

variable (V : SortedVocabulary S P F) (determineXSBUsage : List (Rule S P F D) → Bool)
  (approxTwoValued : PFSymbol S P F → Bool) (samedef : ℕ → ℕ → Bool) (T : Theory.Theory S P F D)

structure Joins : Prop where
  names : (joinForXSB samedef T.definitions).flatten.Perm (alldefs T.definitions)
  rules : (execute samedef true T).definitions.flatten.Perm T.definitions.flatten
  symbols : ∀ g ∈ joinForXSB samedef T.definitions, ∀ x ∈ g, ∀ y ∈ g, x ≠ y →
    ¬ Common (getDefinitionInfo V T.definitions) x y
  recursion : ∀ g ∈ joinForXSB samedef T.definitions, ∀ x ∈ g, ∀ y ∈ g, x ≠ y →
    ¬ (DependsOn (getDefinitionInfo V T.definitions) x y ∧ DependsOn (getDefinitionInfo V T.definitions) y x)
  models : ∀ (I : Structure S P F D) (W : ThreeValuedSemantics I) (e : Variable S → D),
    (∀ rules ∈ (execute samedef true T).definitions, W.satisfies rules e) ↔ ∀ rules ∈ T.definitions, W.satisfies rules e

def CanJoin : ℕ → ℕ → Prop :=
  Joinable (getDefinitionInfo V T.definitions) (xsbCalculable determineXSBUsage T.definitions)
    (twoValuedSymbol approxTwoValued T.definitions)

-- no two definitions of a symbol are left for the same definition
def Unambiguous : Prop :=
  ∀ i ∈ alldefs T.definitions, Leads (CanJoin V determineXSBUsage approxTwoValued T) (alldefs T.definitions) i →
    ∀ x ∈ alldefs T.definitions, ∀ y ∈ alldefs T.definitions, x ≠ y →
      Taken (CanJoin V determineXSBUsage approxTwoValued T) (alldefs T.definitions) i x →
      Taken (CanJoin V determineXSBUsage approxTwoValued T) (alldefs T.definitions) i y →
        ¬ Common (getDefinitionInfo V T.definitions) x y

variable {V determineXSBUsage approxTwoValued samedef T}
variable (hsolved : Solved V determineXSBUsage approxTwoValued T.definitions samedef)

include hsolved

theorem mem_joinForXSB {g : List ℕ} : g ∈ joinForXSB samedef T.definitions ↔ ∃ i ∈ alldefs T.definitions,
    Leads (CanJoin V determineXSBUsage approxTwoValued T) (alldefs T.definitions) i ∧
      g = taken (CanJoin V determineXSBUsage approxTwoValued T) (alldefs T.definitions) i :=
  mem_joinFrom (fun i hi j hj => (hsolved i hi j hj).trans sameDef_iff) alldefs_sorted (List.nil_append _).symm
    (fun _ _ => iff_of_false List.not_mem_nil fun ⟨_, h, _⟩ => absurd h List.not_mem_nil) g

theorem unambiguous_of_symbols (h : ∀ g ∈ joinForXSB samedef T.definitions, ∀ x ∈ g, ∀ y ∈ g, x ≠ y →
    ¬ Common (getDefinitionInfo V T.definitions) x y) : Unambiguous V determineXSBUsage approxTwoValued T :=
  fun i hi hleads x hx y hy hne htx hty => h _ ((mem_joinForXSB hsolved).mpr ⟨i, hi, hleads, rfl⟩) x
    (mem_taken.mpr ⟨hx, htx⟩) y (mem_taken.mpr ⟨hy, hty⟩) hne

theorem joinForXSB_flatten : (joinForXSB samedef T.definitions).flatten.Perm (alldefs T.definitions) := by
  have h := @joinFrom_flatten (alldefs T.definitions) _ (fun i hi => (hsolved i hi i hi).mpr .refl)
    (alldefs T.definitions) [] (fun _ hj _ => hj) fun _ hj => hj
  simpa [joinForXSB] using h

theorem joins_of_unambiguous (h : Unambiguous V determineXSBUsage approxTwoValued T) :
    Joins V samedef T := by
  have hflatten := joinForXSB_flatten hsolved
  have hcommon : ∀ g ∈ joinForXSB samedef T.definitions, ∀ x ∈ g, ∀ y ∈ g, x ≠ y →
      ¬ Common (getDefinitionInfo V T.definitions) x y := by
    intro g hg x hx y hy hne
    obtain ⟨i, hi, hleads, rfl⟩ := (mem_joinForXSB hsolved).mp hg
    obtain ⟨hx, htx⟩ := mem_taken.mp hx
    obtain ⟨hy, hty⟩ := mem_taken.mp hy
    exact h i hi hleads x hx y hy hne htx hty
  have hmutual : ∀ g ∈ joinForXSB samedef T.definitions, ∀ x ∈ g, ∀ y ∈ g, x ≠ y →
      ¬ (DependsOn (getDefinitionInfo V T.definitions) x y ∧ DependsOn (getDefinitionInfo V T.definitions) y x) := by
    intro g hg x hx y hy hne
    obtain ⟨i, -, -, rfl⟩ := (mem_joinForXSB hsolved).mp hg
    exact (mem_taken.mp hx).2.1.not_mutual (mem_taken.mp hy).2.1 hne
  refine ⟨hflatten, ?_, hcommon, hmutual, fun I W e => ?_⟩
  · have hjoin := hflatten.flatMap_right (rulesOf T.definitions)
    rw [← join, ← join, join_alldefs] at hjoin
    exact (List.Perm.of_eq (join_flatten _)).trans hjoin
  · have hgroups : (∀ rules ∈ (execute samedef true T).definitions, W.satisfies rules e) ↔
        ∀ g ∈ joinForXSB samedef T.definitions, ∀ x ∈ g, W.satisfies (rulesOf T.definitions x) e := by
      refine List.forall_mem_map.trans (forall₂_congr fun g hg => ?_)
      have hnodup : g.Nodup := by
        obtain ⟨i, -, -, rfl⟩ := (mem_joinForXSB hsolved).mp hg
        exact (alldefs_sorted.imp fun h => ne_of_lt h).filter _
      exact satisfies_join W e hnodup (hcommon g hg) (hmutual g hg)
    rw [hgroups, ← satisfies_alldefs]
    simp only [← hflatten.mem_iff, List.mem_flatten]
    exact ⟨fun h x ⟨g, hg, hx⟩ => h g hg x hx, fun h g hg x hx => h x ⟨g, hg, hx⟩⟩

end Joins

theorem joins_iff (V : SortedVocabulary S P F) (determineXSBUsage : List (Rule S P F D) → Bool)
    (approxTwoValued : PFSymbol S P F → Bool) (samedef : ℕ → ℕ → Bool) (T : Theory.Theory S P F D)
    (hsolved : Solved V determineXSBUsage approxTwoValued T.definitions samedef) :
    Joins V samedef T ↔ Unambiguous V determineXSBUsage approxTwoValued T :=
  ⟨fun h => unambiguous_of_symbols hsolved h.symbols, joins_of_unambiguous hsolved⟩

section Ambiguous

inductive Proposition where
  | p
  | q
  | a
  | b
  deriving DecidableEq

def proposition (name : Proposition) : PFSymbol Unit Proposition Empty := .predicate name

def rule (head body : Proposition) : Rule Unit Proposition Empty Unit :=
  ⟨[], proposition head, [], .pred .pos (proposition body) []⟩

-- p if a, and two definitions of q: q if a, q if b
def ambiguous : Theory.Theory Unit Proposition Empty Unit := ⟨[], [[rule .p .a], [rule .q .a], [rule .q .b]], []⟩

def vocabulary : SortedVocabulary Unit Proposition Empty :=
  ⟨fun _ => [], fun _ => 0, Theory.height_lt_nil, fun _ => (), fun _ => (), fun _ _ => (),
    fun _ => none⟩

def ambiguousInfo : List (RuleInfo Unit Proposition Empty) :=
  [⟨0, proposition .p, [(proposition .a, .pos)]⟩, ⟨1, proposition .q, [(proposition .a, .pos)]⟩,
    ⟨2, proposition .q, [(proposition .b, .pos)]⟩]

theorem getDefinitionInfo_ambiguous : getDefinitionInfo vocabulary ambiguous.definitions = ambiguousInfo := rfl

-- the first definition may be joined with both
def row (i j : ℕ) : Bool := i == j || i == 0 || j == 0

theorem joinForXSB_ambiguous : joinForXSB row ambiguous.definitions = [[0, 1, 2]] := by decide

-- the structure interprets a and b
def given (s : PFSymbol Unit Proposition Empty) : Bool := s = proposition .a || s = proposition .b

theorem openIn_given {s : PFSymbol Unit Proposition Empty} {i : ℕ} (h : OpenIn ambiguousInfo s i) :
    s = proposition .a ∨ s = proposition .b := by
  obtain ⟨⟨r, hr, sign, hbody, -⟩, -⟩ := h
  simp only [ambiguousInfo, List.mem_cons, List.not_mem_nil, or_false] at hr
  rcases hr with rfl | rfl | rfl
  · exact Or.inl (Prod.ext_iff.mp (List.mem_singleton.mp hbody)).1
  · exact Or.inl (Prod.ext_iff.mp (List.mem_singleton.mp hbody)).1
  · exact Or.inr (Prod.ext_iff.mp (List.mem_singleton.mp hbody)).1

theorem definedIn_ambiguous {s : PFSymbol Unit Proposition Empty} {i : ℕ} :
    DefinedIn ambiguousInfo s i ↔ (i = 0 ∧ s = proposition .p) ∨ ((i = 1 ∨ i = 2) ∧ s = proposition .q) := by
  simp only [DefinedIn, ambiguousInfo, List.exists_mem_cons_iff, List.not_mem_nil, false_and, exists_false, or_false]
  grind

theorem not_dependsOn {i j : ℕ} : ¬ DependsOn ambiguousInfo i j := by
  intro h
  induction h with
  | symbol hopen hdefined =>
    rcases openIn_given hopen with rfl | rfl
    · simp [definedIn_ambiguous, proposition] at hdefined
    · simp [definedIn_ambiguous, proposition] at hdefined
  | trans _ _ ih => exact ih

theorem calculable_ambiguous {i : ℕ} (hi : i ∈ alldefs ambiguous.definitions) :
    CalculableDef ambiguousInfo (xsbCalculable (fun _ => true) ambiguous.definitions)
      (twoValuedSymbol given ambiguous.definitions) i := by
  refine .rule (fun _ => False) (fun _ h => h.elim) (Or.inl ⟨⟨hi, rfl⟩, fun s hs => ?_⟩)
  rcases openIn_given hs with rfl | rfl
  · refine ⟨⟨0, by decide, ⟨rule .p .a, List.mem_cons_self, Or.inr (by decide)⟩, ?_⟩, rfl⟩
    exact fun r hr => List.mem_singleton.mp hr ▸ by decide
  · refine ⟨⟨2, by decide, ⟨rule .q .b, List.mem_cons_self, Or.inr (by decide)⟩, ?_⟩, rfl⟩
    exact fun r hr => List.mem_singleton.mp hr ▸ by decide

theorem common_ambiguous {i j : ℕ} :
    Common ambiguousInfo i j ↔ (i = 0 ∧ j = 0) ∨ ((i = 1 ∨ i = 2) ∧ (j = 1 ∨ j = 2)) := by
  simp only [Common, definedIn_ambiguous]
  constructor
  · rintro ⟨s, ⟨hi, rfl⟩ | ⟨hi, rfl⟩, ⟨hj, hs⟩ | ⟨hj, hs⟩⟩
    · exact Or.inl ⟨hi, hj⟩
    · exact absurd hs (by decide)
    · exact absurd hs (by decide)
    · exact Or.inr ⟨hi, hj⟩
  · rintro (⟨hi, hj⟩ | ⟨hi, hj⟩)
    · exact ⟨_, Or.inl ⟨hi, rfl⟩, Or.inl ⟨hj, rfl⟩⟩
    · exact ⟨_, Or.inr ⟨hi, rfl⟩, Or.inr ⟨hj, rfl⟩⟩

theorem row_ambiguous {i j : ℕ} (hi : i ∈ alldefs ambiguous.definitions) (hj : j ∈ alldefs ambiguous.definitions)
    (hne : j ≠ i) : row i j = true ↔ ¬ Common ambiguousInfo i j := by
  have hi : i < 3 := List.mem_range.mp (List.mem_filter.mp hi).1
  have hj : j < 3 := List.mem_range.mp (List.mem_filter.mp hj).1
  rw [common_ambiguous]
  simp only [row, Bool.or_eq_true, beq_iff_eq]
  omega

theorem solved_ambiguous : Solved vocabulary (fun _ => true) given ambiguous.definitions row := by
  intro i hi j hj
  rw [getDefinitionInfo_ambiguous, sameDef_iff]
  by_cases hne : j = i
  · exact iff_of_true (by simp [row, hne]) (Or.inl hne)
  · rw [row_ambiguous hi hj hne, Joinable, or_iff_right hne, and_iff_right (calculable_ambiguous hi)]
    constructor
    · rintro h k (rfl | hk) -
      · exact ⟨calculable_ambiguous hj, not_dependsOn, h⟩
      · exact absurd hk not_dependsOn
    · exact fun h => (h j (Or.inl rfl) hne).2.2

theorem joins_iff_ambiguous : Joins vocabulary row ambiguous ↔ Unambiguous vocabulary (fun _ => true) given ambiguous :=
  joins_iff vocabulary (fun _ => true) given row ambiguous solved_ambiguous

theorem ambiguous_not_joins : ¬ ∀ (V : SortedVocabulary Unit Proposition Empty)
    (determineXSBUsage : List (Rule Unit Proposition Empty Unit) → Bool)
    (approxTwoValued : PFSymbol Unit Proposition Empty → Bool) (samedef : ℕ → ℕ → Bool)
    (T : Theory.Theory Unit Proposition Empty Unit),
    Solved V determineXSBUsage approxTwoValued T.definitions samedef → Joins V samedef T := by
  intro h
  have hjoins := h vocabulary (fun _ => true) given row ambiguous solved_ambiguous
  have hcommon : Common (getDefinitionInfo vocabulary ambiguous.definitions) 1 2 :=
    common_ambiguous.mpr (Or.inr ⟨Or.inl rfl, Or.inr rfl⟩)
  refine hjoins.symbols [0, 1, 2] ?_ 1 (by decide) 2 (by decide) (by decide) hcommon
  exact joinForXSB_ambiguous ▸ List.mem_singleton_self _

end Ambiguous

end JoinDefinitionsForXSB
