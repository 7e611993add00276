import DeclarativeLocalSearch.FoBdd.Quantify

namespace FoBdd

open DecisionDiagram Relation

variable {V A S : Type}

namespace FOBDDManager

def createManager : FOBDDManager A S where
  order k := if k = truekernel then some ⟨.trueFalse, 0⟩
    else if k = falsekernel then some ⟨.trueFalse, 1⟩ else none
  content k := if k = truekernel then some .trueKernel
    else if k = falsekernel then some .falseKernel else none
  nextkernel := 2
  bdd b := if b = truebdd then some (.leaf true) else if b = falsebdd then some (.leaf false)
    else none
  nextbdd := 2
  nextorder cat := if cat = .trueFalse then 2 else 0
  kernels _ _ := none
  kerneltable _ := none
  bddtable _ _ _ := none
  negationtable _ := none
  conjunctiontable _ _ := none
  disjunctiontable _ _ := none
  ifthenelsetable _ _ _ := none
  quanttable _ _ := none

section CreateManager

theorem createManager_bdd {b : ℕ} {n : Node ℕ ℕ}
    (h : (createManager : FOBDDManager A S).bdd b = some n) :
    (b = truebdd ∧ n = .leaf true) ∨ (b = falsebdd ∧ n = .leaf false) := by
  simp only [createManager] at h
  split_ifs at h with h1 h2
  · exact Or.inl ⟨h1, (Option.some.inj h).symm⟩
  · exact Or.inr ⟨h2, (Option.some.inj h).symm⟩

theorem createManager_no_branch {b k hi lo : ℕ} :
    ¬ (createManager : FOBDDManager A S).bdd b = some (.branch k hi lo) := by
  intro h
  rcases createManager_bdd h with ⟨-, h⟩ | ⟨-, h⟩ <;> cases h

theorem createManager_order {k : ℕ} {o : KernelOrder}
    (h : (createManager : FOBDDManager A S).order k = some o) :
    (k = truekernel ∧ o = ⟨.trueFalse, 0⟩) ∨ (k = falsekernel ∧ o = ⟨.trueFalse, 1⟩) := by
  simp only [createManager] at h
  split_ifs at h with h1 h2
  · exact Or.inl ⟨h1, (Option.some.inj h).symm⟩
  · exact Or.inr ⟨h2, (Option.some.inj h).symm⟩

theorem createManager_content {k : ℕ} {x : KernelContent A S}
    (h : (createManager : FOBDDManager A S).content k = some x) :
    x = .trueKernel ∨ x = .falseKernel := by
  simp only [createManager] at h
  split_ifs at h with h1 h2
  · exact Or.inl (Option.some.inj h).symm
  · exact Or.inr (Option.some.inj h).symm

theorem createManager_inv : Inv True (createManager : FOBDDManager A S) where
  leafTrue := rfl
  leafFalse := rfl
  leaves b v h := by
    rcases createManager_bdd h with ⟨rfl, h⟩ | ⟨rfl, h⟩ <;> · cases h; rfl
  closed b k hi lo h := absurd h createManager_no_branch
  acyclic := ⟨fun b => acc_of_not_branch fun _ _ _ => createManager_no_branch⟩
  freshbdd b hb := by
    have h1 : b ≠ truebdd := Nat.ne_of_gt (Nat.lt_of_lt_of_le Nat.zero_lt_two hb)
    have h2 : b ≠ falsebdd := Nat.ne_of_gt (Nat.lt_of_lt_of_le Nat.one_lt_two hb)
    simp only [createManager, if_neg h1, if_neg h2]
  freshkernel k hk := by
    have h1 : k ≠ truekernel := Nat.ne_of_gt (Nat.lt_of_lt_of_le Nat.zero_lt_two hk)
    have h2 : k ≠ falsekernel := Nat.ne_of_gt (Nat.lt_of_lt_of_le Nat.one_lt_two hk)
    simp only [createManager, if_neg h1, if_neg h2, and_self]
  constants := ⟨rfl, rfl⟩
  constant k o h _ := by
    rcases createManager_order h with ⟨rfl, -⟩ | ⟨rfl, -⟩
    · exact Or.inl rfl
    · exact Or.inr rfl
  labelled b k hi lo h := absurd h createManager_no_branch
  injective k k' o h h' := by
    rcases createManager_order h with ⟨rfl, rfl⟩ | ⟨rfl, rfl⟩ <;>
      rcases createManager_order h' with ⟨rfl, ho⟩ | ⟨rfl, ho⟩ <;>
      first | rfl | cases ho
  kernels cat n k := by
    constructor
    · rintro ⟨⟩
    · rintro ⟨h, hcat⟩
      rcases createManager_order h with ⟨-, h⟩ | ⟨-, h⟩ <;> · cases h; exact absurd rfl hcat
  numbers k o h := by
    rcases createManager_order h with ⟨-, rfl⟩ | ⟨-, rfl⟩ <;> simp [createManager]
  quants k sort b h := by rcases createManager_content h with h | h <;> cases h
  atoms k terms sets h := by rcases createManager_content h with h | h <;> cases h
  aggs k left right sets h := by rcases createManager_content h with h | h <;> cases h
  kerneltable := by rintro _ _ ⟨⟩
  bddtable := by rintro _ _ _ _ ⟨⟩
  negations := by rintro _ _ ⟨⟩
  conjunctions := by rintro _ _ _ ⟨⟩
  disjunctions := by rintro _ _ _ ⟨⟩
  ifthenelses := by rintro _ _ _ _ ⟨⟩
  quantifieds := by rintro _ _ _ ⟨⟩
  sorted _ :=
    ⟨fun _ _ _ _ h => absurd h createManager_no_branch,
      fun _ _ _ _ h => absurd h createManager_no_branch,
      fun _ _ _ _ h => absurd h createManager_no_branch⟩

end CreateManager

theorem Inv.eq_of_agree {s : FOBDDManager A S} (h : Inv True s) {b b' : ℕ} (hb : s.bdd b ≠ none) (hb' : s.bdd b' ≠ none)
    (ha : Agree s.bdd b b') : b = b' :=
  (h.canonical trivial).eq_of_agree s.lt_wf hb hb' ha

variable [DecidableEq A] [DecidableEq S] (L : TermLanguage V A S) (before : ℕ → ℕ → Bool)
  (ok : FOBDDManager A S → ℕ → ℕ → Bool)

-- what a user of the manager may ask of it; ok is asked wherever quantify calls getBDD with the
-- kernel that says that the sort is not empty
inductive Step : FOBDDManager A S → FOBDDManager A S → Prop
  | atomKernel {s s' : FOBDDManager A S} {n : ℕ} {terms : A} {sets : List ℕ} {k : ℕ}
      (hs : ∀ b ∈ sets, s.bdd b ≠ none) (h : (getAtomKernel L n terms sets).run s = some (k, s')) :
      Step s s'
  | aggKernel {s s' : FOBDDManager A S} {n : ℕ} {left right : A} {sets : List ℕ} {k : ℕ}
      (hs : ∀ b ∈ sets, s.bdd b ≠ none)
      (h : (getAggKernel L n left right sets).run s = some (k, s')) : Step s s'
  | quantKernel {s s' : FOBDDManager A S} {n : ℕ} {sort : S} {b k : ℕ} (hb : s.bdd b ≠ none)
      (h : (getQuantKernel L n sort b).run s = some (k, s')) : Step s s'
  | negation {s s' : FOBDDManager A S} {n b r : ℕ} (hb : s.bdd b ≠ none)
      (h : (negation n b).run s = some (r, s')) : Step s s'
  | conjunction {s s' : FOBDDManager A S} {n b b' r : ℕ} (hb : s.bdd b ≠ none)
      (hb' : s.bdd b' ≠ none) (h : (conjunction before n b b').run s = some (r, s')) : Step s s'
  | disjunction {s s' : FOBDDManager A S} {n b b' r : ℕ} (hb : s.bdd b ≠ none)
      (hb' : s.bdd b' ≠ none) (h : (disjunction before n b b').run s = some (r, s')) : Step s s'
  | ifthenelse {s s' : FOBDDManager A S} {n k t f r : ℕ} (hk : s.order k ≠ none)
      (ht : s.bdd t ≠ none) (hf : s.bdd f ≠ none)
      (h : (ifthenelse n k t f).run s = some (r, s')) : Step s s'
  | existsquantify {s s' : FOBDDManager A S} {n : ℕ} {v : V} {b r : ℕ} (hb : s.bdd b ≠ none)
      (h : (existsquantify L ok n v b).run s = some (r, s')) : Step s s'
  | univquantify {s s' : FOBDDManager A S} {n : ℕ} {v : V} {b r : ℕ} (hb : s.bdd b ≠ none)
      (h : (univquantify L ok n v b).run s = some (r, s')) : Step s s'
  | substitute {s s' : FOBDDManager A S} {terms : ℕ → A → A} {n b r : ℕ} (hb : s.bdd b ≠ none)
      (h : (change L terms n 0 b).run s = some (r, s')) : Step s s'

variable {L before ok} {s s' : FOBDDManager A S} {c : Prop}

theorem Step.inv (hok : c → ∀ s k b, ok s k b = true → s.rootBelow k b = true)
    (h : Step L before ok s s') (hi : Inv c s) : Inv c s' ∧ Extends s s' := by
  have of_gives : ∀ {k}, Gives c s s' k → Inv c s' ∧ Extends s s' := fun h => ⟨h.inv, h.ext⟩
  have of_builds : ∀ {r}, Builds c s s' r → Inv c s' ∧ Extends s s' := fun h => ⟨h.inv, h.ext⟩
  cases h with
  | atomKernel hs h => exact of_gives (getAtomKernel_gives L hi hs h).1
  | aggKernel hs h => exact of_gives (getAggKernel_gives L hi hs h).1
  | quantKernel hb h => exact of_gives (getQuantKernel_gives L hi hb h).1
  | negation hb h => exact of_builds (negation_negates _ _ _ _ _ hi hb h).builds
  | conjunction hb hb' h =>
    exact of_builds (conjunction_combines before _ _ _ _ _ _ hi hb hb' h).builds
  | disjunction hb hb' h =>
    exact of_builds (disjunction_combines before _ _ _ _ _ _ hi hb hb' h).builds
  | ifthenelse hk ht hf h => exact of_builds (ifthenelse_chooses _ _ _ _ _ _ _ hi hk ht hf h).builds
  | existsquantify hb h => exact of_builds (existsquantify_builds L hok hi hb h)
  | univquantify hb h => exact of_builds (univquantify_builds L hok hi hb h)
  | substitute hb h => exact of_builds (change_changes L _ _ _ _ _ _ _ hi hb h)

theorem run_inv (hok : c → ∀ s k b, ok s k b = true → s.rootBelow k b = true)
    (h : ReflTransGen (Step L before ok) s s') (hi : Inv c s) : Inv c s' := by
  induction h with
  | refl => exact hi
  | tail _ step ih => exact (step.inv hok ih).1

theorem Step.of_rootBelow (h : Step L before rootBelow s s') : Step L before always s s' := by
  cases h with
  | atomKernel hs h => exact .atomKernel hs h
  | aggKernel hs h => exact .aggKernel hs h
  | quantKernel hb h => exact .quantKernel hb h
  | negation hb h => exact .negation hb h
  | conjunction hb hb' h => exact .conjunction hb hb' h
  | disjunction hb hb' h => exact .disjunction hb hb' h
  | ifthenelse hk ht hf h => exact .ifthenelse hk ht hf h
  | existsquantify hb h => exact .existsquantify hb (existsquantify_always L _ _ _ _ _ h)
  | univquantify hb h => exact .univquantify hb (univquantify_always L _ _ _ _ _ h)
  | substitute hb h => exact .substitute hb h

theorem run_of_rootBelow (h : ReflTransGen (Step L before rootBelow) s s') :
    ReflTransGen (Step L before always) s s' :=
  ReflTransGen.mono (fun _ _ => Step.of_rootBelow) _ _ h

theorem Step.rootBelow_of_ordered (hi : Inv False s) (ho : s'.Ordered)
    (h : Step L before always s s') : Step L before rootBelow s s' := by
  cases h with
  | atomKernel hs h => exact .atomKernel hs h
  | aggKernel hs h => exact .aggKernel hs h
  | quantKernel hb h => exact .quantKernel hb h
  | negation hb h => exact .negation hb h
  | conjunction hb hb' h => exact .conjunction hb hb' h
  | disjunction hb hb' h => exact .disjunction hb hb' h
  | ifthenelse hk ht hf h => exact .ifthenelse hk ht hf h
  | existsquantify hb h => exact .existsquantify hb (existsquantify_of_ordered L hi hb h ho)
  | univquantify hb h => exact .univquantify hb (univquantify_of_ordered L hi hb h ho)
  | substitute hb h => exact .substitute hb h

theorem run_of_ordered (hi : Inv False s) (ho : s'.Ordered)
    (h : ReflTransGen (Step L before always) s s') :
    ReflTransGen (Step L before rootBelow) s s' := by
  induction h with
  | refl => exact .refl
  | tail steps step ih =>
    have hi' := run_inv (fun h => h.elim) steps hi
    have hext := (step.inv (fun h => h.elim) hi').2
    exact (ih (hi'.ordered_of_extends hext ho)).tail (step.rootBelow_of_ordered hi' ho)

theorem reachable_canonical_iff (h : ReflTransGen (Step L before always) createManager s) :
    (Canonical s.lt s.bdd ∧
      ∀ b b', s.bdd b ≠ none → s.bdd b' ≠ none → Agree s.bdd b b' → b = b') ↔
      ReflTransGen (Step L before rootBelow) createManager s := by
  constructor
  · rintro ⟨hc, -⟩
    exact run_of_ordered (createManager_inv.weaken fun h => h.elim) hc.ordered h
  · intro hrun
    have hi : Inv True s := run_inv (fun _ _ _ _ hok => hok) hrun createManager_inv
    exact ⟨hi.canonical trivial, fun b b' hb hb' ha => hi.eq_of_agree hb hb' ha⟩

end FOBDDManager

end FoBdd
