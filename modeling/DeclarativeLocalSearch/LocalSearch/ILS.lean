import DeclarativeLocalSearch.LocalSearch.MoveModelling

namespace LocalSearch

open Structure

variable {Sol Next : Type}

inductive LocalSearchType where
  | firstImprove
  | bestImprove
  | tabu
  | lns
  | ils
  deriving DecidableEq, Repr

namespace ILS

-- every inner search reads a clock of its own; the tenure of an inner tabu search is never set
structure Neighbourhoods (Sol Next : Type) where
  listLSType : List LocalSearchType
  listmovemodelling : List (ℕ → MoveModelling Sol Next)
  limit : ℕ → ℕ
  tabuTenure : ℕ → ℕ

structure InnerSearch (Sol Next : Type) where
  lstype : LocalSearchType
  move : ℕ → MoveModelling Sol Next
  time : ℕ
  result : Search Sol

structure State (Sol Next : Type) where
  currentSol : Option Sol
  currentObjVal : Int
  bestSol : Option Sol
  bestObjVal : Int
  moveindex : Option ℕ
  iterationsWithoutImprovement : ℕ
  visited : List Sol
  inner : List (InnerSearch Sol Next)

namespace State

def incumbent (st : State Sol Next) : Incumbent.State Sol Int :=
  ⟨st.bestSol, st.bestObjVal, st.visited⟩

def Reports (obj : Sol → Int) (st : State Sol Next) : Prop :=
  Incumbent.Reports obj st.incumbent

end State

section Search

variable (obj : Sol → Int) (nb : Neighbourhoods Sol Next)

def getNextMove (currentmoveindex : Option ℕ) : ℕ :=
  let i := match currentmoveindex with
    | none => 0
    | some k => k + 1
  if i = nb.listmovemodelling.length then 0 else i

def runInner (t : ℕ) (lstype : LocalSearchType) (mm : MoveModelling Sol Next) (ini : Sol) :
    Option (Search Sol) :=
  match lstype with
  | .bestImprove => BestImprovementSearch.doSearch obj mm (nb.limit t) ini
  | .tabu => TabuSearch.doSearch obj mm (nb.tabuTenure t) (nb.limit t) ini
  | _ => FirstImprovementSearch.doSearch obj mm (nb.limit t) ini

def doSingleNeighbourhoodSearch (t : ℕ) (lstype : LocalSearchType)
    (move : ℕ → MoveModelling Sol Next) (currentSol : Sol) (st : State Sol Next) :
    Option (Int × State Sol Next) :=
  (runInner obj nb t lstype (move t) currentSol).map fun ls =>
    (ls.bestObjVal - ls.iniObjVal,
      { st with
        currentSol := ls.bestSol
        currentObjVal := ls.bestObjVal
        visited := st.visited ++ ls.visited
        inner := st.inner ++ [⟨lstype, move, t, ls⟩] })

def updateBest (st : State Sol Next) : State Sol Next :=
  if st.currentObjVal < st.bestObjVal then
    { st with bestObjVal := st.currentObjVal, bestSol := st.currentSol }
  else st

def loop : ℕ → State Sol Next → Option (State Sol Next)
  | 0, st => some st
  | t + 1, st =>
    let moveindex := getNextMove nb st.moveindex
    match nb.listLSType[moveindex]?, nb.listmovemodelling[moveindex]?, st.currentSol with
    | some lstype, some move, some currentSol =>
      match doSingleNeighbourhoodSearch obj nb t lstype move currentSol
          { st with moveindex := some moveindex } with
      | none => none
      | some (deltaobj, st') =>
        if deltaobj < 0 then
          loop t (updateBest { st' with iterationsWithoutImprovement := 0 })
        else
          let st'' := { st' with
            iterationsWithoutImprovement := st'.iterationsWithoutImprovement + 1 }
          if st''.iterationsWithoutImprovement > nb.listmovemodelling.length then some st''
          else loop t st''
    | _, _, _ => none

def start (ini : Sol) : State Sol Next where
  currentSol := some ini
  currentObjVal := obj ini
  bestSol := none
  bestObjVal := obj ini
  moveindex := none
  iterationsWithoutImprovement := 0
  visited := [ini]
  inner := []

def doSearch (limit : ℕ) (ini : Sol) : Option (State Sol Next) := loop obj nb limit (start obj ini)

def InnerSearch.Faithful (i : InnerSearch Sol Next) (e : Taken Sol) : Prop :=
  match i.lstype with
  | .bestImprove => BestImprovementSearch.Faithful obj (i.move i.time) e
  | .tabu => True
  | _ => FirstImprovementSearch.Faithful obj (i.move i.time) e

def InnerSearch.improves (i : InnerSearch Sol Next) : Prop :=
  i.result.bestObjVal < i.result.iniObjVal

theorem runInner_returns {t : ℕ} {lstype : LocalSearchType} {move : ℕ → MoveModelling Sol Next}
    {ini : Sol} {ls : Search Sol} (h : runInner obj nb t lstype (move t) ini = some ls) :
    ls.Returns obj (InnerSearch.Faithful obj ⟨lstype, move, t, ls⟩) ini := by
  cases lstype with
  | bestImprove => exact BestImprovementSearch.doSearch_returns obj (move t) h
  | tabu => exact TabuSearch.doSearch_returns obj (move t) h
  | firstImprove => exact FirstImprovementSearch.doSearch_returns obj (move t) h
  | lns => exact FirstImprovementSearch.doSearch_returns obj (move t) h
  | ils => exact FirstImprovementSearch.doSearch_returns obj (move t) h

structure Sound (ini : Sol) (st : State Sol Next) : Prop where
  tracks : Incumbent.Tracks obj ini st.incumbent
  current : ∃ s, st.currentSol = some s ∧ obj s = st.bestObjVal
  found : st.bestSol ≠ none ↔ ∃ i ∈ st.inner, i.improves

def InnerFaithful (st : State Sol Next) : Prop :=
  ∀ i ∈ st.inner, ∀ e ∈ i.result.taken, InnerSearch.Faithful obj i e

theorem sound_start (ini : Sol) : Sound obj ini (start obj ini : State Sol Next) :=
  ⟨Incumbent.tracks_start obj ini, ⟨ini, rfl, rfl⟩, by simp [start]⟩

theorem sound_improved {ini : Sol} {st : State Sol Next} (hs : Sound obj ini st)
    {i : InnerSearch Sol Next} (hr : i.result.Reports obj) (hi : i.result.iniObjVal = st.bestObjVal)
    (himp : i.improves) (k : ℕ) (m : Option ℕ) :
    Sound obj ini (updateBest
      ⟨i.result.bestSol, i.result.bestObjVal, st.bestSol, st.bestObjVal, m, k,
        st.visited ++ i.result.visited, st.inner ++ [i]⟩) := by
  have hlt : i.result.bestObjVal < st.bestObjVal := hi ▸ himp
  obtain ⟨s, hb, hm, ha⟩ := hr.best
  have htr := Incumbent.tracks_absorb hs.tracks hr
  rw [Incumbent.absorb, show i.result.incumbent.best = some s from hb] at htr
  dsimp only at htr
  rw [if_pos (show i.result.incumbent.bestVal < st.incumbent.bestVal from hlt)] at htr
  have hbs : i.result.bestSol = some s := hb
  rw [updateBest, if_pos hlt]
  refine ⟨?_, ⟨s, hbs, ha⟩, ?_⟩
  · rw [State.incumbent, hbs]
    exact htr
  · simp only [hbs, ne_eq, reduceCtorEq, not_false_eq_true, true_iff]
    exact ⟨i, by simp, himp⟩

theorem sound_unimproved {ini : Sol} {st : State Sol Next} (hs : Sound obj ini st)
    {i : InnerSearch Sol Next} (hr : i.result.Reports obj) (hi : i.result.iniObjVal = st.bestObjVal)
    (hle : i.result.bestObjVal ≤ i.result.iniObjVal) (himp : ¬ i.improves) (k : ℕ)
    (m : Option ℕ) :
    Sound obj ini
      ⟨i.result.bestSol, i.result.bestObjVal, st.bestSol, st.bestObjVal, m, k,
        st.visited ++ i.result.visited, st.inner ++ [i]⟩ := by
  have heq : i.result.bestObjVal = st.bestObjVal := hi ▸ le_antisymm hle (not_lt.mp himp)
  obtain ⟨s, hb, hm, ha⟩ := hr.best
  have htr := Incumbent.tracks_absorb hs.tracks hr
  rw [Incumbent.absorb, show i.result.incumbent.best = some s from hb] at htr
  dsimp only at htr
  rw [if_neg (show ¬ i.result.incumbent.bestVal < st.incumbent.bestVal from heq.not_lt)] at htr
  refine ⟨htr, ⟨s, hb, ha.trans heq⟩, ?_⟩
  refine hs.found.trans ?_
  constructor
  · rintro ⟨j, hj, hji⟩
    exact ⟨j, by simp [hj], hji⟩
  · rintro ⟨j, hj, hji⟩
    rcases List.mem_append.mp hj with hj | hj
    · exact ⟨j, hj, hji⟩
    · exact absurd (List.mem_singleton.mp hj ▸ hji) himp

theorem updateBest_inner (st : State Sol Next) : (updateBest st).inner = st.inner := by
  unfold updateBest
  split <;> rfl

theorem loop_inner (n : ℕ) {st st' : State Sol Next} (h : loop obj nb n st = some st') :
    ∀ i ∈ st.inner, i ∈ st'.inner := by
  induction n generalizing st with
  | zero =>
    rw [← Option.some.inj h]
    exact fun _ hi => hi
  | succ t ih =>
    rw [loop] at h
    dsimp only at h
    split at h
    · split at h
      · cases h
      · rename_i deltaobj st1 hd
        obtain ⟨ls, -, he⟩ := Option.map_eq_some_iff.mp hd
        simp only [Prod.mk.injEq] at he
        obtain ⟨-, rfl⟩ := he
        split at h
        · exact fun i hi => ih h i (by rw [updateBest_inner]; simp [hi])
        · split at h
          · rw [← Option.some.inj h]
            exact fun i hi => by simp [hi]
          · exact fun i hi => ih h i (by simp [hi])
    · cases h

theorem loop_sound (n : ℕ) {st st' : State Sol Next} (h : loop obj nb n st = some st')
    (hf : InnerFaithful obj st') {ini : Sol} (hs : Sound obj ini st) : Sound obj ini st' := by
  induction n generalizing st with
  | zero => rwa [← Option.some.inj h]
  | succ t ih =>
    rw [loop] at h
    dsimp only at h
    split at h
    · rename_i lstype move currentSol _ _ hcur
      split at h
      · cases h
      · rename_i deltaobj st1 hd
        obtain ⟨ls, hrun, he⟩ := Option.map_eq_some_iff.mp hd
        simp only [Prod.mk.injEq] at he
        obtain ⟨rfl, rfl⟩ := he
        have hret := runInner_returns obj nb hrun
        let i : InnerSearch Sol Next := ⟨lstype, move, t, ls⟩
        obtain ⟨s, hsc, hobj⟩ := hs.current
        have hini : ls.iniObjVal = st.bestObjVal := by
          rw [hret.iniObjVal, ← hobj]
          exact congrArg obj (Option.some.inj (hcur.symm.trans hsc))
        have faithful : i ∈ st'.inner → ∀ e ∈ ls.taken, InnerSearch.Faithful obj i e :=
          fun hi => hf i hi
        split at h
        · rename_i hneg
          have hi := loop_inner obj nb t h i (by rw [updateBest_inner]; simp [i])
          have hr := hret.reports (faithful hi)
          have himp : i.improves := by change ls.bestObjVal < ls.iniObjVal; omega
          exact ih h (sound_improved obj hs (i := i) hr hini himp _ _)
        · rename_i hneg
          have himp : ¬ i.improves := by change ¬ ls.bestObjVal < ls.iniObjVal; omega
          have key : i ∈ st'.inner → _ := fun hi => sound_unimproved obj hs (i := i)
            (hret.reports (faithful hi)) hini
            ((hret.notWorse (faithful hi)).trans hret.iniObjVal.ge) himp
            (st.iterationsWithoutImprovement + 1) (some (getNextMove nb st.moveindex))
          split at h
          · rw [← Option.some.inj h]
            exact key (by rw [← Option.some.inj h]; simp [i])
          · exact ih h (key (loop_inner obj nb t h i (by simp [i])))
    · cases h

theorem doSearch_reports_iff {limit : ℕ} {ini : Sol} {st : State Sol Next}
    (h : doSearch obj nb limit ini = some st) (hf : InnerFaithful obj st) :
    st.Reports obj ↔ ∃ i ∈ st.inner, i.improves := by
  have hs := loop_sound obj nb limit h hf (sound_start obj ini)
  rw [State.Reports, Incumbent.reports_iff hs.tracks]
  exact hs.found

end Search

end ILS

end LocalSearch

namespace LocalSearch

open Structure

variable {Sol Next : Type}

theorem doSearch_reports (obj : Sol → Int) :
    (∀ (mm : MoveModelling Sol Next) (limit : ℕ) (ini : Sol) (st : Search Sol),
      FirstImprovementSearch.doSearch obj mm limit ini = some st →
      (∀ e ∈ st.taken, FirstImprovementSearch.Faithful obj mm e) → st.Reports obj) ∧
    (∀ (mm : MoveModelling Sol Next) (limit : ℕ) (ini : Sol) (st : Search Sol),
      BestImprovementSearch.doSearch obj mm limit ini = some st →
      (∀ e ∈ st.taken, BestImprovementSearch.Faithful obj mm e) → st.Reports obj) ∧
    (∀ (mm : MoveModelling Sol Next) (tabuTenure limit : ℕ) (ini : Sol) (st : Search Sol),
      TabuSearch.doSearch obj mm tabuTenure limit ini = some st → st.Reports obj) ∧
    (∀ (nb : ILS.Neighbourhoods Sol Next) (limit : ℕ) (ini : Sol) (st : ILS.State Sol Next),
      ILS.doSearch obj nb limit ini = some st → ILS.InnerFaithful obj st →
      (st.Reports obj ↔ ∃ i ∈ st.inner, i.improves)) :=
  ⟨fun mm _ _ _ h hf => (FirstImprovementSearch.doSearch_returns obj mm h).reports hf,
    fun mm _ _ _ h hf => (BestImprovementSearch.doSearch_returns obj mm h).reports hf,
    fun mm _ _ _ _ h => (TabuSearch.doSearch_returns obj mm h).reports fun _ _ => trivial,
    fun nb _ _ _ h hf => ILS.doSearch_reports_iff obj nb h hf⟩

section Descent

def height (s : ℕ) : Int := s

def descent (delta : Option (ℕ → ℕ → ElementTuple → Int)) : MoveModelling ℕ ℕ where
  queryValidMoves _ s := if s = 0 then [] else [[.int 1]]
  queryDeltaObj := delta
  theoNext _ s _ := some (s - 1)
  queryGetNextCost _ s := s
  getNeighborSolutionWithoutMX _ s := some s

def slope : ℕ → ℕ → ElementTuple → Int := fun _ s _ => height (s - 1) - height s

def descents : ILS.Neighbourhoods ℕ ℕ where
  listLSType := [.firstImprove, .tabu]
  listmovemodelling := [fun _ => descent none, fun _ => descent (some slope)]
  limit _ := 2
  tabuTenure _ := 15

theorem descent_first_faithful (e : Taken ℕ) :
    FirstImprovementSearch.Faithful height (descent none) e := by
  intro _ nextsol newsol _ hn
  rw [← Option.some.inj hn]
  rfl

theorem descent_best_faithful (e : Taken ℕ) :
    BestImprovementSearch.Faithful height (descent (some slope)) e := by
  intro delta newsol hd hn
  rw [← Option.some.inj hd, ← Option.some.inj hn]
  rfl

theorem doSearch_reports_descent :
    (∃ st, FirstImprovementSearch.doSearch height (descent none) 3 2 = some st ∧
      st.Reports height) ∧
    (∃ st, BestImprovementSearch.doSearch height (descent (some slope)) 3 2 = some st ∧
      st.Reports height) ∧
    (∃ st, TabuSearch.doSearch height (descent (some slope)) 15 3 1 = some st ∧
      st.Reports height) ∧
    ∃ st, ILS.doSearch height descents 1 2 = some st ∧ st.Reports height := by
  let first := (FirstImprovementSearch.doSearch height (descent none) 3 2).get rfl
  let best := (BestImprovementSearch.doSearch height (descent (some slope)) 3 2).get rfl
  let tabu := (TabuSearch.doSearch height (descent (some slope)) 15 3 1).get rfl
  let last := (ILS.doSearch height descents 1 2).get rfl
  refine ⟨⟨first, rfl, (doSearch_reports height).1 (descent none) 3 2 first rfl ?_⟩,
    ⟨best, rfl, (doSearch_reports height).2.1 (descent (some slope)) 3 2 best rfl ?_⟩,
    ⟨tabu, rfl, (doSearch_reports height).2.2.1 (descent (some slope)) 15 3 1 tabu rfl⟩,
    ⟨last, rfl, ((doSearch_reports height).2.2.2 descents 1 2 last rfl ?_).mpr ?_⟩⟩
  · exact fun e _ => descent_first_faithful e
  · exact fun e _ => descent_best_faithful e
  · intro i hi e _
    rcases List.mem_cons.mp hi with rfl | hi
    · exact descent_first_faithful e
    · cases hi
  · exact ⟨_, List.mem_cons_self, show (0 : Int) < 2 by decide⟩

end Descent

section Unreported

def still : ILS.Neighbourhoods ℕ ℕ where
  listLSType := [.firstImprove, .tabu]
  listmovemodelling := [fun _ => { descent none with queryValidMoves := fun _ _ => [] },
    fun _ => { descent none with queryValidMoves := fun _ _ => [] }]
  limit _ := 2
  tabuTenure _ := 15

-- costs and deltas that promise an improvement the next solution does not bring
def promise (delta : Option (ℕ → ℕ → ElementTuple → Int)) : MoveModelling ℕ ℕ where
  queryValidMoves _ s := if s = 0 then [[.int 1]] else []
  queryDeltaObj := delta
  theoNext _ s _ := some (s + 4)
  queryGetNextCost _ _ := -1
  getNeighborSolutionWithoutMX _ s := some s

theorem doSearch_unreported :
    (¬ ∀ (nb : ILS.Neighbourhoods ℕ ℕ) (limit ini : ℕ) (st : ILS.State ℕ ℕ),
      ILS.doSearch height nb limit ini = some st → st.Reports height) ∧
    (¬ ∀ (mm : MoveModelling ℕ ℕ) (limit ini : ℕ) (st : Search ℕ),
      FirstImprovementSearch.doSearch height mm limit ini = some st → st.Reports height) ∧
    ¬ ∀ (mm : MoveModelling ℕ ℕ) (limit ini : ℕ) (st : Search ℕ),
      BestImprovementSearch.doSearch height mm limit ini = some st → st.Reports height := by
  refine ⟨fun h => ?_, fun h => ?_, fun h => ?_⟩
  · obtain ⟨s, hs, -⟩ := (h still 4 2 _ rfl).best
    cases hs
  · obtain ⟨s, hs, -, ha⟩ := (h (promise none) 4 0 _ rfl).best
    cases hs
    exact absurd ha (by decide)
  · have := (h (promise (some fun _ _ _ => -1)) 4 0 _ rfl).least 0 List.mem_cons_self
    exact absurd this (by decide)

end Unreported

end LocalSearch
