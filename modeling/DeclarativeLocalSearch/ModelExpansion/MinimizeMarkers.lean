import DeclarativeLocalSearch.ModelExpansion.Assumptions

namespace MinimizeMarkers

open ModelExpansion (DomainAtom MXAssumptions)

variable {Q D : Type}

def size (m : MXAssumptions Q D) : ℕ := m.assumeFalse.length + m.assumeTrue.length

structure MXResult (Q D : Type) where
  unsat : Bool
  interrupted : Bool
  unsat_explanation : MXAssumptions Q D

-- what the solver answers and whether the user has asked to stop, by the number of the question
structure World (Q D : Type) where
  doModelExpansion : ℕ → MXAssumptions Q D → MXResult Q D
  terminateRequested : ℕ → Bool

inductive Event (Q D : Type) where
  | check (t : ℕ)
  | call (t : ℕ) (m : MXAssumptions Q D)

def World.interrupts (w : World Q D) : Event Q D → Bool
  | .check t => w.terminateRequested t
  | .call t m => (w.doModelExpansion t m).interrupted

-- the two arrays of the core that curArr can be
inductive Field where
  | assumeTrue
  | assumeFalse

namespace Field

def get (m : MXAssumptions Q D) : Field → List (DomainAtom Q D)
  | assumeTrue => m.assumeTrue
  | assumeFalse => m.assumeFalse

def set (m : MXAssumptions Q D) (atoms : List (DomainAtom Q D)) : Field → MXAssumptions Q D
  | assumeTrue => { m with assumeTrue := atoms }
  | assumeFalse => { m with assumeFalse := atoms }

@[simp]
theorem get_set (m : MXAssumptions Q D) (atoms : List (DomainAtom Q D)) (f : Field) :
    f.get (f.set m atoms) = atoms := by
  cases f <;> rfl

@[simp]
theorem set_set (m : MXAssumptions Q D) (atoms atoms' : List (DomainAtom Q D)) (f : Field) :
    f.set (f.set m atoms) atoms' = f.set m atoms' := by
  cases f <;> rfl

@[simp]
theorem set_get (m : MXAssumptions Q D) (f : Field) : f.set m (f.get m) = m := by
  cases f <;> rfl

@[simp]
theorem assumeAllFalse_set (m : MXAssumptions Q D) (atoms : List (DomainAtom Q D)) (f : Field) :
    (f.set m atoms).assumeAllFalse = m.assumeAllFalse := by
  cases f <;> rfl

def sign : Field → Bool
  | assumeTrue => true
  | assumeFalse => false

end Field

structure Outcome (Q D : Type) where
  again : Bool
  core : MXAssumptions Q D
  time : ℕ
  events : List (Event Q D)

def Outcome.after (events : List (Event Q D)) (r : Outcome Q D) : Outcome Q D :=
  { r with events := events ++ r.events }

def erased (curArr : Field) (core : MXAssumptions Q D) (curElem : ℕ) : MXAssumptions Q D :=
  curArr.set core ((curArr.get core).eraseIdx curElem)

-- the element is put back at the end
def restored (curArr : Field) (core : MXAssumptions Q D) (curElem : ℕ) (hlt : curElem < (curArr.get core).length) :
    MXAssumptions Q D :=
  curArr.set (erased curArr core curElem) (curArr.get (erased curArr core curElem) ++ [(curArr.get core)[curElem]])

section Algorithm

variable (w : World Q D) (curArr : Field) (goal : ℕ)

-- the loop of minimizeSubArray: at 0 the unsigned index has run past the array
def scan : ℕ → ℕ → MXAssumptions Q D → Outcome Q D
  | 0, t, core => ⟨false, core, t, []⟩
  | curElem + 1, t, core =>
    if hlt : curElem < (curArr.get core).length then
      if w.terminateRequested t then ⟨false, core, t + 1, [.check t]⟩
      else
        let core' := erased curArr core curElem
        let mxresult := w.doModelExpansion (t + 1) core'
        let events := [.check t, .call (t + 1) core']
        if mxresult.interrupted then ⟨false, core', t + 2, events⟩
        else if ! mxresult.unsat then (scan curElem (t + 2) (restored curArr core curElem hlt)).after events
        else if size mxresult.unsat_explanation < goal then ⟨true, mxresult.unsat_explanation, t + 2, events⟩
        else (scan curElem (t + 2) core').after events
    else ⟨false, core, t, []⟩

def minimizeSubArray (t : ℕ) (core : MXAssumptions Q D) : Outcome Q D :=
  scan w curArr goal (curArr.get core).length t core

variable {w curArr goal}

-- everything that one turn of the loop can do
inductive Scans (w : World Q D) (curArr : Field) (goal : ℕ) : ℕ → ℕ → MXAssumptions Q D → Outcome Q D → Prop
  | wrapped (t core) : Scans w curArr goal 0 t core ⟨false, core, t, []⟩
  | outside (curElem t core) (hlt : ¬ curElem < (curArr.get core).length) :
      Scans w curArr goal (curElem + 1) t core ⟨false, core, t, []⟩
  | stopped (curElem t core) (hlt : curElem < (curArr.get core).length) (hstop : w.terminateRequested t = true) :
      Scans w curArr goal (curElem + 1) t core ⟨false, core, t + 1, [.check t]⟩
  | interrupted (curElem t core) (hlt : curElem < (curArr.get core).length) (hstop : w.terminateRequested t = false)
      (hint : (w.doModelExpansion (t + 1) (erased curArr core curElem)).interrupted = true) :
      Scans w curArr goal (curElem + 1) t core
        ⟨false, erased curArr core curElem, t + 2, [.check t, .call (t + 1) (erased curArr core curElem)]⟩
  | kept (curElem t core) (hlt : curElem < (curArr.get core).length) (hstop : w.terminateRequested t = false)
      (hint : (w.doModelExpansion (t + 1) (erased curArr core curElem)).interrupted = false)
      (hsat : (w.doModelExpansion (t + 1) (erased curArr core curElem)).unsat = false) (r : Outcome Q D)
      (hr : Scans w curArr goal curElem (t + 2) (restored curArr core curElem hlt) r) :
      Scans w curArr goal (curElem + 1) t core (r.after [.check t, .call (t + 1) (erased curArr core curElem)])
  | replaced (curElem t core) (hlt : curElem < (curArr.get core).length) (hstop : w.terminateRequested t = false)
      (hint : (w.doModelExpansion (t + 1) (erased curArr core curElem)).interrupted = false)
      (hunsat : (w.doModelExpansion (t + 1) (erased curArr core curElem)).unsat = true)
      (hsmall : size (w.doModelExpansion (t + 1) (erased curArr core curElem)).unsat_explanation < goal) :
      Scans w curArr goal (curElem + 1) t core
        ⟨true, (w.doModelExpansion (t + 1) (erased curArr core curElem)).unsat_explanation, t + 2,
          [.check t, .call (t + 1) (erased curArr core curElem)]⟩
  | dropped (curElem t core) (hlt : curElem < (curArr.get core).length) (hstop : w.terminateRequested t = false)
      (hint : (w.doModelExpansion (t + 1) (erased curArr core curElem)).interrupted = false)
      (hunsat : (w.doModelExpansion (t + 1) (erased curArr core curElem)).unsat = true) (r : Outcome Q D)
      (hr : Scans w curArr goal curElem (t + 2) (erased curArr core curElem) r) :
      Scans w curArr goal (curElem + 1) t core (r.after [.check t, .call (t + 1) (erased curArr core curElem)])

theorem scans_scan (n t : ℕ) (core : MXAssumptions Q D) :
    Scans w curArr goal n t core (scan w curArr goal n t core) := by
  induction n generalizing t core with
  | zero => exact .wrapped t core
  | succ curElem ih =>
    rw [scan]
    split
    case isFalse hlt => exact .outside _ _ _ hlt
    case isTrue hlt =>
      cases hstop : w.terminateRequested t
      case true => exact .stopped _ _ _ hlt hstop
      cases hint : (w.doModelExpansion (t + 1) (erased curArr core curElem)).interrupted
      case true => simpa [hint] using Scans.interrupted _ _ _ hlt hstop hint
      cases hunsat : (w.doModelExpansion (t + 1) (erased curArr core curElem)).unsat
      case false => simpa [hint, hunsat] using Scans.kept _ _ _ hlt hstop hint hunsat _ (ih _ _)
      simp only [hint, hunsat, Bool.not_true, Bool.false_eq_true, ↓reduceIte]
      split
      case isTrue hsmall => exact .replaced _ _ _ hlt hstop hint hunsat hsmall
      case isFalse => exact .dropped _ _ _ hlt hstop hint hunsat _ (ih _ _)

theorem Scans.smaller {n t : ℕ} {core : MXAssumptions Q D} {r : Outcome Q D} (h : Scans w curArr goal n t core r)
    (hagain : r.again = true) : size r.core < goal := by
  induction h with
  | wrapped => cases hagain
  | outside => cases hagain
  | stopped => cases hagain
  | interrupted => cases hagain
  | kept curElem t core hlt hstop hint hsat r hr ih => exact ih hagain
  | replaced curElem t core hlt hstop hint hunsat hsmall => exact hsmall
  | dropped curElem t core hlt hstop hint hunsat r hr ih => exact ih hagain

variable (w curArr)

-- while (minimizeSubArray(...));
def minimizeArray (t : ℕ) (core : MXAssumptions Q D) : Outcome Q D :=
  let r := minimizeSubArray w curArr (size core) t core
  if r.again then (minimizeArray r.time r.core).after r.events else r
termination_by size core
decreasing_by exact (scans_scan _ _ _).smaller (by assumption)

-- none is the exception for assumptions that are satisfiable
def minimizeAssumps (markers : MXAssumptions Q D) : Option (Outcome Q D) :=
  let mxresult := w.doModelExpansion 0 markers
  if ! mxresult.unsat then none
  else
    let first := minimizeArray w .assumeTrue 1 mxresult.unsat_explanation
    some ((minimizeArray w .assumeFalse first.time first.core).after (.call 0 markers :: first.events))

end Algorithm

section Meaning

abbrev Literal (Q D : Type) := DomainAtom Q D × Bool

def lits (m : MXAssumptions Q D) : Set (Literal Q D) :=
  {l | (∃ f : Field, l.2 = f.sign ∧ l.1 ∈ f.get m) ∨ l.2 = false ∧ l.1.symbol ∈ m.assumeAllFalse}

def Satisfiable (models : Set (DomainAtom Q D → Bool)) (S : Set (Literal Q D)) : Prop :=
  ∃ M ∈ models, ∀ l ∈ S, M l.1 = l.2

-- what is taken of the solver
structure Decides (w : World Q D) (models : Set (DomainAtom Q D → Bool)) : Prop where
  unsat_iff : ∀ t m, (w.doModelExpansion t m).interrupted = false →
    ((w.doModelExpansion t m).unsat = true ↔ ¬ Satisfiable models (lits m))
  explanation : ∀ t m, (w.doModelExpansion t m).interrupted = false → (w.doModelExpansion t m).unsat = true →
    lits (w.doModelExpansion t m).unsat_explanation ⊆ lits m ∧
      ¬ Satisfiable models (lits (w.doModelExpansion t m).unsat_explanation) ∧
        (w.doModelExpansion t m).unsat_explanation.assumeAllFalse = []
  -- an explanation is only looked up when the solver was not stopped
  no_explanation : ∀ t m, (w.doModelExpansion t m).interrupted = true →
    (w.doModelExpansion t m).unsat_explanation = ⟨[], [], []⟩

variable {w : World Q D} {models : Set (DomainAtom Q D → Bool)}

theorem Satisfiable.mono {S T : Set (Literal Q D)} (hsub : S ⊆ T) (h : Satisfiable models T) :
    Satisfiable models S := by
  obtain ⟨M, hM, hT⟩ := h
  exact ⟨M, hM, fun l hl => hT l (hsub hl)⟩

@[simp]
theorem lits_empty : lits (⟨[], [], []⟩ : MXAssumptions Q D) = ∅ := by
  ext l
  simp only [lits, Set.mem_ofPred_eq, List.not_mem_nil, and_false, or_false, Set.mem_empty_iff_false, iff_false,
    not_exists, not_and]
  rintro (_ | _) _ <;> exact List.not_mem_nil

theorem lits_set_subset {f : Field} {m : MXAssumptions Q D} {atoms atoms' : List (DomainAtom Q D)}
    (h : atoms ⊆ atoms') : lits (f.set m atoms) ⊆ lits (f.set m atoms') := by
  rintro l (⟨g, hsign, hl⟩ | ⟨hfalse, hl⟩)
  · refine .inl ⟨g, hsign, ?_⟩
    cases f <;> cases g
    · exact h hl
    · exact hl
    · exact hl
    · exact h hl
  · refine .inr ⟨hfalse, ?_⟩
    rw [Field.assumeAllFalse_set] at hl ⊢
    exact hl

section Array

variable {f : Field} {core : MXAssumptions Q D} {i n : ℕ}

theorem lits_erased_subset : lits (erased f core i) ⊆ lits core := by
  have h := lits_set_subset (f := f) (m := core) (List.eraseIdx_subset (l := f.get core) (k := i))
  rwa [Field.set_get] at h

theorem restored_eq (hlt : i < (f.get core).length) :
    restored f core i hlt = f.set core ((f.get core).eraseIdx i ++ [(f.get core)[i]]) := by
  simp [restored, erased]

theorem lits_restored (hlt : i < (f.get core).length) : lits (restored f core i hlt) = lits core := by
  have hperm : ((f.get core).eraseIdx i ++ [(f.get core)[i]]).Perm (f.get core) :=
    (List.perm_append_singleton _ _).trans (List.getElem_cons_eraseIdx_perm hlt)
  rw [restored_eq]
  apply Set.Subset.antisymm
  · simpa using lits_set_subset (f := f) (m := core) hperm.subset
  · simpa using lits_set_subset (f := f) (m := core) hperm.symm.subset

theorem eraseIdx_eraseIdx_subset {α : Type} {L : List α} {i n : ℕ} (hle : n ≤ i) :
    (L.eraseIdx n).eraseIdx i ⊆ L.eraseIdx (i + 1) := by
  intro x hx
  obtain ⟨j, hj, hget⟩ := List.mem_eraseIdx_iff_getElem?.mp hx
  rw [List.getElem?_eraseIdx] at hget
  rw [List.mem_eraseIdx_iff_getElem?]
  split at hget
  · exact ⟨j, by omega, hget⟩
  · exact ⟨j + 1, by omega, hget⟩

theorem lits_erased_erased (hle : n ≤ i) : lits (erased f (erased f core n) i) ⊆ lits (erased f core (i + 1)) := by
  rw [erased, erased, Field.get_set, Field.set_set]
  exact lits_set_subset (eraseIdx_eraseIdx_subset hle)

theorem lits_erased_restored (hlt : n < (f.get core).length) (hle : n ≤ i) (hi : i < (f.get core).length) :
    lits (erased f (restored f core n hlt) i) ⊆
      lits (erased f core (if i + 1 < (f.get core).length then i + 1 else n)) := by
  have hlength : ((f.get core).eraseIdx n).length = (f.get core).length - 1 := List.length_eraseIdx_of_lt hlt
  rw [restored_eq, erased, erased, Field.get_set, Field.set_set]
  apply lits_set_subset
  split
  case isTrue hnext =>
    rw [List.eraseIdx_append_of_lt_length (by omega)]
    refine List.append_subset.mpr ⟨eraseIdx_eraseIdx_subset hle, ?_⟩
    rw [List.cons_subset, List.mem_eraseIdx_iff_getElem?]
    exact ⟨⟨n, by omega, List.getElem?_eq_getElem hlt⟩, List.nil_subset _⟩
  case isFalse hlast =>
    rw [List.eraseIdx_append_of_length_le (by omega), hlength, show i - ((f.get core).length - 1) = 0 by omega]
    simp

end Array

-- what one loop does to the core: what was lost when the solver was stopped is the only loss
structure Shrinks (w : World Q D) (models : Set (DomainAtom Q D → Bool)) (core : MXAssumptions Q D) (r : Outcome Q D) :
    Prop where
  subset : lits r.core ⊆ lits core
  unsat_iff : ¬ Satisfiable models (lits r.core) ↔ ¬ Satisfiable models (lits core) ∧
    ∀ t m, .call t m ∈ r.events → (w.doModelExpansion t m).interrupted = true → ¬ Satisfiable models (lits m)
  assumeAllFalse : core.assumeAllFalse = [] → r.core.assumeAllFalse = []

theorem Shrinks.after {core core' : MXAssumptions Q D} {events : List (Event Q D)} {r : Outcome Q D}
    (hfirst : ∀ b t, Shrinks w models core ⟨b, core', t, events⟩) (hr : Shrinks w models core' r) :
    Shrinks w models core (r.after events) where
  subset := hr.subset.trans (hfirst r.again r.time).subset
  unsat_iff := by
    have h := (hfirst r.again r.time).unsat_iff
    simp only at h
    rw [show (r.after events).core = r.core from rfl, hr.unsat_iff, h, and_assoc]
    simp only [Outcome.after, List.mem_append, or_imp, forall_and]
  assumeAllFalse h := hr.assumeAllFalse ((hfirst r.again r.time).assumeAllFalse h)

section Turn

variable {f : Field} {core core' : MXAssumptions Q D} {i t : ℕ}

theorem shrinks_answered (hsub : lits core' ⊆ lits core)
    (hunsat : ¬ Satisfiable models (lits core) → ¬ Satisfiable models (lits core'))
    (hall : core.assumeAllFalse = [] → core'.assumeAllFalse = []) {m : MXAssumptions Q D} {t' : ℕ}
    (hint : (w.doModelExpansion t' m).interrupted = false) (b : Bool) (t'' : ℕ) :
    Shrinks w models core ⟨b, core', t'', [.check t, .call t' m]⟩ where
  subset := hsub
  unsat_iff := by
    refine ⟨fun h => ⟨fun hsat => h (hsat.mono hsub), ?_⟩, fun h => hunsat h.1⟩
    intro u m' hmem hu
    obtain ⟨rfl, rfl⟩ : u = t' ∧ m' = m := by simpa using hmem
    rw [hint] at hu
    cases hu
  assumeAllFalse := hall

theorem assumeAllFalse_erased (h : core.assumeAllFalse = []) : (erased f core i).assumeAllFalse = [] := by
  rwa [erased, Field.assumeAllFalse_set]

theorem shrinks_interrupted (hint : (w.doModelExpansion t (erased f core i)).interrupted = true) (u u' : ℕ) :
    Shrinks w models core ⟨false, erased f core i, u, [.check u', .call t (erased f core i)]⟩ where
  subset := lits_erased_subset
  unsat_iff := by
    constructor
    · intro h
      refine ⟨fun hsat => h (hsat.mono lits_erased_subset), ?_⟩
      intro v m hmem _
      obtain ⟨rfl, rfl⟩ : v = t ∧ m = erased f core i := by simpa using hmem
      exact h
    · exact fun h => h.2 t _ (by simp) hint
  assumeAllFalse := assumeAllFalse_erased

theorem shrinks_self {events : List (Event Q D)} (hevents : ∀ u m, .call u m ∉ events) (b : Bool) :
    Shrinks w models core ⟨b, core, t, events⟩ where
  subset := subset_rfl
  unsat_iff := (and_iff_left fun u m hmem => absurd hmem (hevents u m)).symm
  assumeAllFalse := id

end Turn

section Runs

variable {f : Field} {goal n t : ℕ} {core : MXAssumptions Q D} {r : Outcome Q D} (hw : Decides w models)
include hw

theorem Scans.shrinks (h : Scans w f goal n t core r) : Shrinks w models core r := by
  induction h with
  | wrapped t core => exact shrinks_self (by simp) _
  | outside curElem t core hlt => exact shrinks_self (by simp) _
  | stopped curElem t core hlt hstop => exact shrinks_self (by simp) _
  | interrupted curElem t core hlt hstop hint => exact shrinks_interrupted hint _ _
  | kept curElem t core hlt hstop hint hsat r hr ih =>
    refine Shrinks.after (fun b u => ?_) ih
    refine shrinks_answered (lits_restored hlt).subset ?_ ?_ hint b u
    · rw [lits_restored]
      exact id
    · intro hall
      rw [restored, Field.assumeAllFalse_set]
      exact assumeAllFalse_erased hall
  | replaced curElem t core hlt hstop hint hunsat hsmall =>
    obtain ⟨hsub, hno, hall⟩ := hw.explanation _ _ hint hunsat
    exact shrinks_answered (hsub.trans lits_erased_subset) (fun _ => hno) (fun _ => hall) hint _ _
  | dropped curElem t core hlt hstop hint hunsat r hr ih =>
    refine Shrinks.after (fun b u => ?_) ih
    have hno := (hw.unsat_iff _ _ hint).mp hunsat
    exact shrinks_answered lits_erased_subset (fun _ => hno) assumeAllFalse_erased hint b u

theorem satisfiable_of_answer {m : MXAssumptions Q D} (hint : (w.doModelExpansion t m).interrupted = false)
    (hsat : (w.doModelExpansion t m).unsat = false) : Satisfiable models (lits m) := by
  by_contra hunsat
  rw [(hw.unsat_iff t m hint).mpr hunsat] at hsat
  cases hsat

theorem Scans.needed (h : Scans w f goal n t core r) (hquiet : ∀ e ∈ r.events, w.interrupts e = false)
    (hlast : r.again = false) (hle : n ≤ (f.get core).length)
    (hn : ∀ i, n ≤ i → i < (f.get core).length → Satisfiable models (lits (erased f core i)))
    (i : ℕ) (hi : i < (f.get r.core).length) : Satisfiable models (lits (erased f r.core i)) := by
  induction h generalizing i with
  | wrapped t core => exact hn i i.zero_le hi
  | outside curElem t core hlt => exact absurd hle hlt
  | stopped curElem t core hlt hstop =>
    have hcheck := hquiet (.check t) (by simp)
    rw [World.interrupts, hstop] at hcheck
    cases hcheck
  | interrupted curElem t core hlt hstop hint =>
    have hcall := hquiet (.call (t + 1) (erased f core curElem)) (by simp)
    rw [World.interrupts, hint] at hcall
    cases hcall
  | kept curElem t core hlt hstop hint hsat r hr ih =>
    have hlength : (f.get (restored f core curElem hlt)).length = (f.get core).length := by
      rw [restored_eq, Field.get_set, List.length_append, List.length_eraseIdx_of_lt hlt, List.length_singleton]
      omega
    refine ih (fun e he => hquiet e (List.mem_append_right _ he)) hlast (by omega) (fun j hj hj' => ?_) i hi
    rw [hlength] at hj'
    refine Satisfiable.mono (lits_erased_restored hlt hj hj') ?_
    split
    case isTrue hnext => exact hn (j + 1) (by omega) hnext
    case isFalse => exact satisfiable_of_answer hw hint hsat
  | replaced curElem t core hlt hstop hint hunsat hsmall => cases hlast
  | dropped curElem t core hlt hstop hint hunsat r hr ih =>
    have hlength : (f.get (erased f core curElem)).length = (f.get core).length - 1 := by
      rw [erased, Field.get_set, List.length_eraseIdx_of_lt hlt]
    refine ih (fun e he => hquiet e (List.mem_append_right _ he)) hlast (by omega) (fun j hj hj' => ?_) i hi
    rw [hlength] at hj'
    exact (hn (j + 1) (by omega) (by omega)).mono (lits_erased_erased hj)

theorem minimizeArray_shrinks (f : Field) (t : ℕ) (core : MXAssumptions Q D) :
    Shrinks w models core (minimizeArray w f t core) := by
  induction t, core using minimizeArray.induct w f with
  | case1 t core r hagain ih =>
    rw [minimizeArray, if_pos hagain]
    have hr : Shrinks w models core r := (scans_scan _ _ _).shrinks hw
    exact Shrinks.after (fun _ _ => ⟨hr.subset, hr.unsat_iff, hr.assumeAllFalse⟩) ih
  | case2 t core r hagain =>
    rw [minimizeArray, if_neg hagain]
    exact (scans_scan _ _ _).shrinks hw

theorem minimizeArray_needed (f : Field) (t : ℕ) (core : MXAssumptions Q D)
    (hquiet : ∀ e ∈ (minimizeArray w f t core).events, w.interrupts e = false) (i : ℕ)
    (hi : i < (f.get (minimizeArray w f t core).core).length) :
    Satisfiable models (lits (erased f (minimizeArray w f t core).core i)) := by
  induction t, core using minimizeArray.induct w f with
  | case1 t core r hagain ih =>
    rw [minimizeArray, if_pos hagain] at hquiet hi ⊢
    exact ih (fun e he => hquiet e (List.mem_append_right _ he)) hi
  | case2 t core r hagain =>
    rw [minimizeArray, if_neg hagain] at hquiet hi ⊢
    exact (scans_scan _ _ _).needed hw hquiet (eq_false_of_ne_true hagain) le_rfl
      (fun j hj hj' => absurd hj' hj.not_gt) i hi

end Runs

theorem sign_injective : Function.Injective Field.sign := by
  rintro (_ | _) (_ | _) h
  · rfl
  · cases h
  · cases h
  · rfl

theorem mem_field {core : MXAssumptions Q D} (hall : core.assumeAllFalse = []) {l : Literal Q D} (hl : l ∈ lits core)
    {f : Field} (hsign : l.2 = f.sign) : l.1 ∈ f.get core := by
  obtain ⟨g, hg, hmem⟩ | ⟨_, hmem⟩ := hl
  · rwa [sign_injective (hsign.symm.trans hg)]
  · rw [hall] at hmem
    cases hmem

theorem lits_without {core : MXAssumptions Q D} (hall : core.assumeAllFalse = []) {l : Literal Q D} (hl : l ∈ lits core)
    {f : Field} (hsign : l.2 = f.sign) :
    ∃ i, i < (f.get core).length ∧ lits core \ {l} ⊆ lits (erased f core i) := by
  obtain ⟨i, hi, hget⟩ := List.getElem_of_mem (mem_field hall hl hsign)
  refine ⟨i, hi, ?_⟩
  rintro l' ⟨hl', hne⟩
  obtain ⟨g, hg, hmem⟩ | ⟨_, hmem⟩ := hl'
  · have hstays : f = g → l'.1 ∈ (f.get core).eraseIdx i := by
      rintro rfl
      obtain ⟨j, hj, hget'⟩ := List.getElem_of_mem hmem
      rw [List.mem_eraseIdx_iff_getElem]
      refine ⟨j, hj, ?_, hget'⟩
      rintro rfl
      exact hne (Prod.ext (hget'.symm.trans hget) (hg.trans hsign.symm))
    refine .inl ⟨g, hg, ?_⟩
    cases f <;> cases g
    · exact hstays rfl
    · exact hmem
    · exact hmem
    · exact hstays rfl
  · rw [hall] at hmem
    cases hmem

-- what is asked for of the core
structure Returned (w : World Q D) (models : Set (DomainAtom Q D → Bool)) (markers : MXAssumptions Q D)
    (r : Outcome Q D) : Prop where
  subset : lits r.core ⊆ lits markers
  unsat : ¬ Satisfiable models (lits r.core)
  minimal : (∀ e ∈ r.events, w.interrupts e = false) → ∀ l ∈ lits r.core, Satisfiable models (lits r.core \ {l})

def Meets (w : World Q D) (models : Set (DomainAtom Q D → Bool)) (markers : MXAssumptions Q D) : Prop :=
  match minimizeAssumps w markers with
  | none => Satisfiable models (lits markers)
  | some r => Returned w models markers r

def Asked (w : World Q D) (markers : MXAssumptions Q D) (t : ℕ) (m : MXAssumptions Q D) : Prop :=
  ∃ r, minimizeAssumps w markers = some r ∧ .call t m ∈ r.events

-- no stop of the solver hides an answer that mattered
structure HarmlessStops (w : World Q D) (models : Set (DomainAtom Q D → Bool)) (markers : MXAssumptions Q D) :
    Prop where
  first : (w.doModelExpansion 0 markers).interrupted = true →
    if (w.doModelExpansion 0 markers).unsat then ¬ Satisfiable models ∅ else Satisfiable models (lits markers)
  later : ∀ t m, Asked w markers t m → (w.doModelExpansion t m).interrupted = true → ¬ Satisfiable models (lits m)

section Whole

variable (hw : Decides w models) {markers : MXAssumptions Q D}
include hw

omit hw in
theorem minimizeAssumps_eq_some {r : Outcome Q D} (h : minimizeAssumps w markers = some r) :
    (w.doModelExpansion 0 markers).unsat = true ∧ ∃ first second,
      minimizeArray w .assumeTrue 1 (w.doModelExpansion 0 markers).unsat_explanation = first ∧
      minimizeArray w .assumeFalse first.time first.core = second ∧
      r = second.after (.call 0 markers :: first.events) := by
  unfold minimizeAssumps at h
  cases hunsat : (w.doModelExpansion 0 markers).unsat with
  | false => simp [hunsat] at h
  | true =>
    simp only [hunsat, Bool.not_true, Bool.false_eq_true, ↓reduceIte, Option.some.injEq] at h
    exact ⟨rfl, _, _, rfl, rfl, h.symm⟩

theorem explanation_unsat (hstops : HarmlessStops w models markers)
    (hunsat : (w.doModelExpansion 0 markers).unsat = true) :
    lits (w.doModelExpansion 0 markers).unsat_explanation ⊆ lits markers ∧
      ¬ Satisfiable models (lits (w.doModelExpansion 0 markers).unsat_explanation) := by
  cases hint : (w.doModelExpansion 0 markers).interrupted with
  | false =>
    obtain ⟨hsub, hno, _⟩ := hw.explanation 0 markers hint hunsat
    exact ⟨hsub, hno⟩
  | true =>
    have hfirst := hstops.first hint
    rw [if_pos hunsat] at hfirst
    rw [hw.no_explanation 0 markers hint, lits_empty]
    exact ⟨Set.empty_subset _, hfirst⟩

theorem minimal_of_quiet {core : MXAssumptions Q D} (hall : core.assumeAllFalse = []) {first second : Outcome Q D}
    (hfirst : minimizeArray w .assumeTrue 1 core = first)
    (hsecond : minimizeArray w .assumeFalse first.time first.core = second)
    (hquiet : ∀ e ∈ first.events, w.interrupts e = false) (hquiet' : ∀ e ∈ second.events, w.interrupts e = false)
    {l : Literal Q D} (hl : l ∈ lits second.core) : Satisfiable models (lits second.core \ {l}) := by
  have hshrinks : Shrinks w models core first := hfirst ▸ minimizeArray_shrinks hw .assumeTrue 1 core
  have hshrinks' : Shrinks w models first.core second :=
    hsecond ▸ minimizeArray_shrinks hw .assumeFalse first.time first.core
  have hall' := hshrinks.assumeAllFalse hall
  cases hsign : l.2 with
  | true =>
    -- what the second loop keeps is among what the first has kept
    obtain ⟨i, hi, hwithout⟩ := lits_without hall' (hshrinks'.subset hl) (f := .assumeTrue) hsign
    subst hfirst
    exact (minimizeArray_needed hw .assumeTrue 1 core hquiet i hi).mono
      ((Set.sdiff_subset_sdiff_left hshrinks'.subset).trans hwithout)
  | false =>
    obtain ⟨i, hi, hwithout⟩ := lits_without (hshrinks'.assumeAllFalse hall') hl (f := .assumeFalse) hsign
    subst hsecond
    exact (minimizeArray_needed hw .assumeFalse first.time first.core hquiet' i hi).mono hwithout

theorem returned_iff {r : Outcome Q D} (h : minimizeAssumps w markers = some r) :
    Returned w models markers r ↔ HarmlessStops w models markers := by
  obtain ⟨hunsat, first, second, hfirst, hsecond, rfl⟩ := minimizeAssumps_eq_some h
  have hshrinks : Shrinks w models (w.doModelExpansion 0 markers).unsat_explanation first :=
    hfirst ▸ minimizeArray_shrinks hw .assumeTrue 1 _
  have hshrinks' : Shrinks w models first.core second :=
    hsecond ▸ minimizeArray_shrinks hw .assumeFalse first.time first.core
  constructor
  · intro hreturned
    obtain ⟨hno, hlater'⟩ := hshrinks'.unsat_iff.mp hreturned.unsat
    obtain ⟨hno, hlater⟩ := hshrinks.unsat_iff.mp hno
    have hempty (hint : (w.doModelExpansion 0 markers).interrupted = true) : ¬ Satisfiable models ∅ := by
      rwa [hw.no_explanation 0 markers hint, lits_empty] at hno
    refine ⟨fun hint => (if_pos hunsat).mpr (hempty hint), ?_⟩
    rintro t m ⟨r, hr, hmem⟩ hint
    obtain rfl := Option.some.inj (h.symm.trans hr)
    obtain ⟨rfl, rfl⟩ | hmem | hmem : (t = 0 ∧ m = markers) ∨ .call t m ∈ first.events ∨ .call t m ∈ second.events := by
      simpa [Outcome.after] using hmem
    · exact fun hsat => hempty hint (hsat.mono (Set.empty_subset _))
    · exact hlater t m hmem hint
    · exact hlater' t m hmem hint
  · intro hstops
    obtain ⟨hsub, hno⟩ := explanation_unsat hw hstops hunsat
    have hasked (t m) (hmem : .call t m ∈ first.events ∨ .call t m ∈ second.events) : Asked w markers t m :=
      ⟨_, h, by simpa [Outcome.after] using .inr hmem⟩
    refine ⟨hshrinks'.subset.trans (hshrinks.subset.trans hsub), ?_, fun hquiet l hl => ?_⟩
    · refine hshrinks'.unsat_iff.mpr ⟨hshrinks.unsat_iff.mpr ⟨hno, ?_⟩, ?_⟩
      · exact fun t m hmem => hstops.later t m (hasked t m (.inl hmem))
      · exact fun t m hmem => hstops.later t m (hasked t m (.inr hmem))
    · have hcall : (w.doModelExpansion 0 markers).interrupted = false :=
        hquiet (.call 0 markers) (by simp [Outcome.after])
      refine minimal_of_quiet hw (hw.explanation 0 markers hcall hunsat).2.2 hfirst hsecond ?_ ?_ hl
      · exact fun e he => hquiet e (by simp [Outcome.after, he])
      · exact fun e he => hquiet e (by simp [Outcome.after, he])

end Whole

section Stopped

def allFalse : Set (DomainAtom Unit Unit → Bool) := {fun _ => false}

-- a solver for the theory that every atom is false
def answering (stops : ℕ → Bool) : World Unit Unit where
  doModelExpansion t m :=
    if stops t then ⟨false, true, ⟨[], [], []⟩⟩ else ⟨! m.assumeTrue.isEmpty, false, ⟨[], [], m.assumeTrue⟩⟩
  terminateRequested _ := false

theorem satisfiable_allFalse {m : MXAssumptions Unit Unit} : Satisfiable allFalse (lits m) ↔ m.assumeTrue = [] := by
  constructor
  · rintro ⟨M, rfl, hM⟩
    rw [List.eq_nil_iff_forall_not_mem]
    exact fun a ha => Bool.false_ne_true (hM (a, true) (.inl ⟨.assumeTrue, rfl, ha⟩))
  · intro hempty
    refine ⟨fun _ => false, Set.mem_singleton _, ?_⟩
    rintro ⟨a, _⟩ (⟨_ | _, rfl, ha⟩ | ⟨hfalse, _⟩)
    · rw [Field.get, hempty] at ha
      cases ha
    · rfl
    · exact hfalse.symm

theorem decides_answering (stops : ℕ → Bool) : Decides (answering stops) allFalse where
  unsat_iff t m hint := by
    have hgoes : stops t = false := by
      cases hstops : stops t with
      | false => rfl
      | true => simp [answering, hstops] at hint
    simp [answering, hgoes, satisfiable_allFalse]
  explanation t m hint hunsat := by
    have hgoes : stops t = false := by
      cases hstops : stops t with
      | false => rfl
      | true => simp [answering, hstops] at hint
    simp only [answering, hgoes, Bool.false_eq_true, ↓reduceIte] at hunsat ⊢
    refine ⟨?_, by simpa [satisfiable_allFalse] using hunsat, trivial⟩
    rintro l (⟨_ | _, hsign, hl⟩ | ⟨_, hl⟩)
    · exact .inl ⟨.assumeTrue, hsign, hl⟩
    · cases hl
    · cases hl
  no_explanation t m hint := by
    cases hstops : stops t with
    | false => simp [answering, hstops] at hint
    | true => simp [answering, hstops]

def oneMarker : MXAssumptions Unit Unit := ⟨[], [], [⟨(), []⟩]⟩

end Stopped

end Meaning

end MinimizeMarkers
