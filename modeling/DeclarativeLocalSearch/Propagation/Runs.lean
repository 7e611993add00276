import DeclarativeLocalSearch.Propagation.Sound

set_option linter.unusedSectionVars false

namespace Propagation

open Theory Structure Relation

variable {N S P F D : Type}

namespace Network

variable [DecidableEq N] [DecidableEq S] [DecidableEq P] [DecidableEq F] (X : Network N S P F D)
  (V : SortedVocabulary S P F) (arity : PFSymbol S P F → ℕ) {T : ThreeValued S P F D} {sentences : List N}
  {K : FOPropDomainFactory S P F D} (W : K.Means T) (initbounds : PFSymbol S P F → InitBoundType)
  (admissible : AdmissibleBoundChecker K) (existsOnlyOneLeft : Bool)

-- doPropagation with any order of the scheduled propagations
def Run (good : FOPropagation N → TypedFOPropagator N K → Prop) :
    TypedFOPropagator N K → TypedFOPropagator N K → Prop :=
  ReflTransGen fun σ σ' => ∃ p, good p σ ∧ X.Step admissible existsOnlyOneLeft p σ σ'

-- the tuples of the universe of a symbol in a domain of its leaf connector
def Derived (outputvoc : PFSymbol S P F → Bool) (σ : TypedFOPropagator N K) (ct : Bool) (symbol : PFSymbol S P F)
    (ds : List D) : Prop :=
  (outputvoc symbol = true ∧ X.builtin symbol = false ∧ initbounds symbol ≠ .twoVal) ∧
    inUniverse V arity T.base symbol ds ∧
      ∃ e, (atomVariables (X.formula (X.connector symbol))).map e = ds ∧
        W.meaning ((σ.domains (X.connector symbol)).bound ct) e

def applyPropagationToStructure (outputvoc : PFSymbol S P F → Bool) (σ : TypedFOPropagator N K) :
    ThreeValued S P F D :=
  { T with
    ct := fun symbol ds => T.ct symbol ds ∨ X.Derived V arity W initbounds outputvoc σ true symbol ds
    cf := fun symbol ds => T.cf symbol ds ∨ X.Derived V arity W initbounds outputvoc σ false symbol ds }

variable {X V arity W initbounds admissible existsOnlyOneLeft} {σ₀ σ : TypedFOPropagator N K}

theorem run_sound (hX : X.WellFormed V arity T initbounds) (hσ : X.Sound V arity sentences W σ₀)
    (h : X.Run admissible existsOnlyOneLeft (X.Fits V arity W) σ₀ σ) : X.Sound V arity sentences W σ := by
  induction h with
  | refl => exact hσ
  | tail _ hstep ih =>
    obtain ⟨p, hfits, hstep⟩ := hstep
    exact step_sound hX ih hfits hstep

theorem Sound.derived (hX : X.WellFormed V arity T initbounds) (hσ : X.Sound V arity sentences W σ) {M : Structure S P F D}
    (hM : X.Models V arity T sentences M) {outputvoc : PFSymbol S P F → Bool} {ct : Bool} {symbol : PFSymbol S P F}
    {ds : List D} (h : X.Derived V arity W initbounds outputvoc σ ct symbol ds) : told ct (M.atom symbol ds) := by
  obtain ⟨⟨-, hbuiltin, -⟩, hu, e, he, hd⟩ := h
  obtain ⟨vars, hf, -, hsorts⟩ := hX.connector symbol hbuiltin
  rw [hf, atomVariables_map] at he
  subst he
  have hcertain := hσ.certain (X.connector symbol) ct M hM e
  rw [hf, freeVars_map, told_congr (holds_map e)] at hcertain
  exact hcertain ((inUniverse_map_iff hsorts).mp hu) hd

theorem Sound.models_iff (hX : X.WellFormed V arity T initbounds) (hσ : X.Sound V arity sentences W σ)
    (outputvoc : PFSymbol S P F → Bool) (M : Structure S P F D) : X.Models V arity T sentences M ↔
      X.Models V arity (X.applyPropagationToStructure V arity W initbounds outputvoc σ) sentences M := by
  constructor
  · intro hM
    refine ⟨{ hM.ext with ct := fun symbol hb ds hu h => ?_, cf := fun symbol hb ds hu h => ?_ }, hM.holds⟩
    · exact h.elim (hM.ext.ct symbol hb ds hu) fun h => hσ.derived hX hM h
    · exact h.elim (hM.ext.cf symbol hb ds hu) fun h => hσ.derived hX hM h
  · intro hM
    exact ⟨{ hM.ext with
      ct := fun symbol hb ds hu h => hM.ext.ct symbol hb ds hu (Or.inl h)
      cf := fun symbol hb ds hu h => hM.ext.cf symbol hb ds hu (Or.inl h) }, hM.holds⟩

theorem fits_of_down {p : FOPropagation N} (h : p.direction = .down) : X.Fits V arity W p σ :=
  fun hup => absurd (h.symm.trans hup) nofun

section WiderSort

-- ! x : P(x) and ? y : ~P(y), for a y of a wider sort than the sort of P
inductive WiderNode where
  | every
  | everyAtom
  | wider
  | widerAtom
  | connector
  deriving DecidableEq

abbrev widerVariable (id : ℕ) (wide : Bool) : Variable Bool := ⟨id, wide⟩

def widerAtomOf (sign : SIGN) (v : Variable Bool) : Formula Bool Unit Empty Bool := .pred sign (.predicate ()) [.var v]

def widerNetwork : Network WiderNode Bool Unit Empty Bool where
  formula
    | .every => .quant .pos .univ [widerVariable 0 false] (widerAtomOf .pos (widerVariable 0 false))
    | .everyAtom => widerAtomOf .pos (widerVariable 0 false)
    | .wider => .quant .pos .exist [widerVariable 1 true] (widerAtomOf .neg (widerVariable 1 true))
    | .widerAtom => widerAtomOf .neg (widerVariable 1 true)
    | .connector => widerAtomOf .pos (widerVariable 2 false)
  subformulas
    | .every => [.everyAtom]
    | .wider => [.widerAtom]
    | _ => []
  upward
    | .everyAtom => some .every
    | .widerAtom => some .wider
    | _ => none
  connector _ := .connector
  leafupward
    | .connector => [.everyAtom, .widerAtom]
    | _ => []
  builtin symbol := decide (symbol ≠ .predicate ())

-- the narrow sort has one of the two elements
def widerStructure (p : Bool → Prop) : Structure Bool Unit Empty Bool where
  sort wide d := wide = true ∨ d = true
  isEmpty _ := false
  isEmpty_iff _ := ⟨nofun, fun h => absurd (Or.inr rfl) (h true)⟩
  less _ _ := False
  predicate _ ds := ∃ d, ds = [d] ∧ p d
  function := nofun
  aggregate _ _ := none

def widerVocabulary : SortedVocabulary Bool Unit Empty where
  parents wide := if wide then [] else [true]
  height wide := if wide then 0 else 1
  height_lt wide p hp := by
    cases wide
    · obtain rfl := List.mem_singleton.mp hp
      exact Nat.zero_lt_one
    · exact absurd hp List.not_mem_nil
  std _ := true
  outsort := nofun
  sort _ _ := false
  stdFunction := nofun

def widerUnknown : ThreeValued Bool Unit Empty Bool where
  base := widerStructure fun _ => False
  fixed _ := True
  ct _ _ := False
  cf _ _ := False

theorem widerNetwork_predicate {symbol : PFSymbol Bool Unit Empty} (h : widerNetwork.builtin symbol = false) :
    symbol = .predicate () :=
  not_not.mp fun hne => absurd (decide_eq_true hne) (Bool.eq_false_iff.mp h)

theorem widerNetwork_wellFormed : widerNetwork.WellFormed widerVocabulary (fun _ => 1) widerUnknown fun _ => .none where
  subformulas n := by cases n <;> rfl
  upward c p h hbranch := by
    cases c <;> cases h <;> exact List.mem_singleton_self _
  leafupward c m h hbranch := by
    cases c <;> cases m <;> simp_all [widerNetwork, Branch, widerAtomOf]
  connector symbol h := by
    rw [widerNetwork_predicate h]
    exact ⟨[widerVariable 2 false], rfl, List.nodup_singleton _, rfl⟩
  leaf n sign symbol args hf h hne := by
    cases n <;> cases hf
    · exact ⟨[widerVariable 0 false], rfl, rfl, by decide⟩
    · exact ⟨[widerVariable 1 true], rfl, rfl, by decide⟩
    · exact absurd rfl hne
  atom n sign symbol args hf h := by
    cases n <;> cases hf <;> cases h
  quantified n sign q vars f hf v hv := by
    cases n <;> cases hf <;> exact Or.inl hv
  twoValued _ := nofun

theorem widerStructure_sort {p : Bool → Prop} {wide d : Bool} :
    (widerStructure p).sort wide d ↔ wide = true ∨ d = true := Iff.rfl

theorem widerAtomOf_holds {p : Bool → Prop} {sign : SIGN} {v : Variable Bool} {e : Variable Bool → Bool} :
    (widerStructure p).holds (widerAtomOf sign v) e ↔ sign.apply (p (e v)) := by
  have hatom : (widerStructure p).atom (.predicate ()) [e v] ↔ p (e v) :=
    ⟨fun ⟨d, hd, hp⟩ => List.singleton_inj.mp hd ▸ hp, fun hp => ⟨e v, rfl, hp⟩⟩
  rw [← hatom]
  exact @holds_map Bool Unit Empty Bool _ (widerStructure p) sign (.predicate ()) [v] e

theorem every_holds {p : Bool → Prop} {e : Variable Bool → Bool} :
    (widerStructure p).holds (widerNetwork.formula .every) e ↔ ∀ d, d = true → p d := by
  rw [widerNetwork, holds_quant]
  simp [SIGN.apply, QUANT.isUniv, varies_cons, varies_nil, widerStructure_sort, widerAtomOf_holds]

theorem wider_holds {p : Bool → Prop} {e : Variable Bool → Bool} :
    (widerStructure p).holds (widerNetwork.formula .wider) e ↔ ∃ d, ¬ p d := by
  rw [widerNetwork, holds_quant]
  simp [SIGN.apply, QUANT.isUniv, varies_cons, varies_nil, widerStructure_sort, widerAtomOf_holds]

theorem widerStructure_models : widerNetwork.Models widerVocabulary (fun _ => 1) widerUnknown [.every, .wider]
    (widerStructure fun d => d = true) where
  ext := {
    sort := rfl
    less := rfl
    aggregate := rfl
    function := by simp
    agrees := fun symbol h ds => by
      cases symbol with
      | predicate p => cases h
      | function f => exact f.elim
      | _ => rfl
    within := fun symbol h ds hds => by
      rw [widerNetwork_predicate h] at hds
      obtain ⟨d, rfl, rfl⟩ := hds
      refine ⟨rfl, fun i d hd => ?_⟩
      exact Or.inr (List.mem_singleton.mp (List.mem_of_getElem? hd))
    ct := fun _ _ _ _ h => by cases h
    cf := fun _ _ _ _ h => by cases h }
  holds := by
    intro n hn e he
    rcases List.mem_pair.mp hn with rfl | rfl
    · rw [every_holds]
      exact fun d hd => hd
    · rw [wider_holds]
      exact ⟨false, by simp⟩

noncomputable def widerStart : TypedFOPropagator WiderNode (Assignments.factory widerUnknown) where
  domains := widerNetwork.initialDomain [.every, .wider] fun _ => .none
  maxsteps := 94
  scheduler := [⟨.every, .down, true, none⟩, ⟨.everyAtom, .up, true, some .connector⟩,
    ⟨.everyAtom, .up, false, some .connector⟩, ⟨.wider, .down, true, none⟩, ⟨.widerAtom, .up, true, some .connector⟩,
    ⟨.widerAtom, .up, false, some .connector⟩]

noncomputable def widerVisit (p : FOPropagation WiderNode) (scheduler : List (FOPropagation WiderNode))
    (σ : TypedFOPropagator WiderNode (Assignments.factory widerUnknown)) :
    TypedFOPropagator WiderNode (Assignments.factory widerUnknown) :=
  widerNetwork.visit (fun _ _ => true) false p { σ with scheduler := scheduler }

theorem widerStart_create : widerNetwork.create [.every, .wider] (fun _ => .none) 100
    [.every, .everyAtom, .wider, .widerAtom] = some widerStart := rfl

theorem widerVisit_run (good : FOPropagation WiderNode → TypedFOPropagator WiderNode (Assignments.factory widerUnknown) → Prop)
    {σ : TypedFOPropagator WiderNode (Assignments.factory widerUnknown)} (before after : List (FOPropagation WiderNode))
    (p : FOPropagation WiderNode) (h : σ.scheduler = before ++ p :: after) (hgood : good p σ) :
    widerNetwork.Run (fun _ _ => true) false good σ (widerVisit p (before ++ after) σ) :=
  .single ⟨p, hgood, .next h⟩

-- down to the atom of the first sentence and on to the connector
noncomputable def widerDown : TypedFOPropagator WiderNode (Assignments.factory widerUnknown) :=
  widerVisit ⟨.everyAtom, .down, true, none⟩ widerStart.scheduler.tail
    (widerVisit ⟨.every, .down, true, none⟩ widerStart.scheduler.tail widerStart)

theorem widerDown_run {good : FOPropagation WiderNode → TypedFOPropagator WiderNode (Assignments.factory widerUnknown) → Prop}
    (hgood : ∀ p σ, p.direction = .down → good p σ) :
    widerNetwork.Run (fun _ _ => true) false good widerStart widerDown := by
  have hevery := widerVisit_run good [] widerStart.scheduler.tail ⟨.every, .down, true, none⟩ rfl (hgood _ widerStart rfl)
  have hatom := widerVisit_run good widerStart.scheduler.tail [] ⟨.everyAtom, .down, true, none⟩ rfl
    (hgood _ (widerVisit ⟨.every, .down, true, none⟩ widerStart.scheduler.tail widerStart) rfl)
  exact hevery.trans hatom

noncomputable def widerReached : TypedFOPropagator WiderNode (Assignments.factory widerUnknown) :=
  widerVisit ⟨.widerAtom, .up, true, some .connector⟩ widerStart.scheduler.tail widerDown

end WiderSort

end Network

end Propagation
