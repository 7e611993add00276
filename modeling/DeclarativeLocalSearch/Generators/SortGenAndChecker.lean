import DeclarativeLocalSearch.Generators.InstGenerator

namespace Generators

open Set

variable {V D : Type}

-- element i is what an iterator stands at after i steps, and none once it is at the end
structure SortTable (D : Type) where
  element : ℕ → Option D
  contains : D → Bool
  finite : Bool
  ended : ∀ i, element i = none → element (i + 1) = none
  sound : ∀ i d, element i = some d → contains d = true

def enumeratedTable [DecidableEq D] (l : List D) : SortTable D where
  element i := l[i]?
  contains d := decide (d ∈ l)
  finite := true
  ended i h := by
    rw [List.getElem?_eq_none_iff] at *
    omega
  sound i d h := decide_eq_true (List.mem_of_getElem? h)

structure SortState where
  curr : ℕ
  reset : Bool

def SortGenerator [DecidableEq V] (table : SortTable D) (var : V) : InstGenerator V D where
  State := SortState
  reset _ s v := some ({ s with own.reset := true }, v)
  next _ s v :=
    let curr := if s.own.reset then 0 else s.own.curr + 1
    match table.element curr with
    | none => some (⟨true, ⟨curr, false⟩⟩, v)
    | some d => some (⟨s.atEnd, ⟨curr, false⟩⟩, Function.update v var d)

def SortChecker (table : SortTable D) (invar : V) : InstGenerator V D where
  State := Bool
  reset _ s v := some ({ s with own := true }, v)
  next _ s v :=
    if s.own then some (⟨s.atEnd || !table.contains (v invar), false⟩, v)
    else some (⟨true, false⟩, v)

theorem sortChecker_checks (table : SortTable D) (invar : V) :
    Checks (SortChecker table invar).checker {invar} ∅ fun v => table.contains (v invar) = true where
  input v v' h := by rw [h rfl]
  decides s v := by
    refine ⟨((table.contains (v invar), ⟨!table.contains (v invar), false⟩), v), .of_eq fun n => ?_, eqOn_refl _ _, Iff.rfl⟩
    simp [InstGenerator.checker, InstGenerator.begin, SortChecker]

section Generator

variable [DecidableEq V] {table : SortTable D} {var : V} {l : List D}

def stand (table : SortTable D) (var : V) (i : ℕ) (v : V → D) : Object SortState × (V → D) :=
  match table.element i with
  | none => (⟨true, ⟨i, false⟩⟩, v)
  | some d => (⟨false, ⟨i, false⟩⟩, Function.update v var d)

theorem eqOn_stand (i : ℕ) (v : V → D) : EqOn (stand table var i v).2 v (({var} : Set V) ∪ ∅)ᶜ := by
  intro c hc
  rw [stand]
  split
  · rfl
  · exact Function.update_of_ne (fun h => hc (Or.inl h)) _ _

theorem ready_stand (hl : ∀ i, table.element i = l[i]?) (m : ℕ) : ∀ {i : ℕ}, l.length - i = m → ∀ v : V → D,
    Ready (SortGenerator table var) ∅ {var} ∅ ((l.drop i).map fun d _ => d) (stand table var i v).1
      (stand table var i v).2 := by
  induction m with
  | zero =>
    intro i hi v
    have hi : l.length ≤ i := by omega
    rw [List.drop_eq_nil_of_le hi, stand, hl, List.getElem?_eq_none hi]
    exact rfl
  | succ m ih =>
    intro i hi v
    have hlt : i < l.length := by omega
    have hstand : stand table var i v = (⟨false, ⟨i, false⟩⟩, Function.update v var l[i]) := by
      rw [stand, hl, List.getElem?_eq_getElem hlt]
    rw [List.drop_eq_getElem_cons hlt, hstand]
    refine ⟨rfl, funext fun c => ?_, fun v' hv => ?_⟩
    · obtain ⟨c, rfl⟩ := c
      exact Function.update_self _ _ _
    · refine ⟨stand table var (i + 1) v', .of_eq fun n => ?_, eqOn_stand _ _, ih (by omega) v'⟩
      simp only [SortGenerator, stand]
      split <;> simp_all

theorem sortGenerator_enumerates (hl : ∀ i, table.element i = l[i]?) (hnodup : l.Nodup) :
    Enumerates (SortGenerator table var) ∅ {var} ∅ fun _ => {x | x ⟨var, rfl⟩ ∈ l} := by
  refine ⟨fun _ => l.map fun d _ => d, ⟨by simp, fun _ _ _ => rfl, fun s v => ?_⟩, fun v => ⟨?_, fun x => ?_⟩⟩
  · refine ⟨stand table var 0 v, .of_eq fun n => ?_, eqOn_stand _ _, @ready_stand V D _ table var l hl l.length 0 rfl v⟩
    simp only [InstGenerator.begin, SortGenerator, stand, Option.bind_some, Bool.false_eq_true, if_false, if_true]
    split <;> simp_all
  · exact List.Nodup.map (fun d d' h => congrFun h ⟨var, rfl⟩) hnodup
  · simp only [List.mem_map, mem_ofPred_eq]
    constructor
    · rintro ⟨d, hd, rfl⟩
      exact hd
    · intro h
      refine ⟨x ⟨var, rfl⟩, h, funext fun c => ?_⟩
      obtain ⟨c, rfl⟩ := c
      rfl

end Generator

end Generators
