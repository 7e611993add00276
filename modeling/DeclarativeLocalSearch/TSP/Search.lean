import DeclarativeLocalSearch.LocalSearch.Descent
import DeclarativeLocalSearch.TSP.Delta

namespace TSP

open LocalSearch Structure

variable {City : Type} [LinearOrder City] [OrderBot City]

-- a query for the valid moves and one for their delta, and a theory for the next path
structure Neighbourhood (City Move : Type) where
  getValidMoves : V City → Move → Prop
  getDeltaObj : V City → Move → ℤ
  nextDecPath : V City → Move → City → City → Prop

def neighbourhood2opt : Neighbourhood City (City × City × City × City) where
  getValidMoves s m := getValidMoves2opt s m.1 m.2.1 m.2.2.1 m.2.2.2
  getDeltaObj s m := getDeltaObj2opt s m.1 m.2.1 m.2.2.1 m.2.2.2
  nextDecPath s m := nextDecPath2opt s m.1 m.2.1 m.2.2.1 m.2.2.2

def neighbourhoodOropt1 : Neighbourhood City (City × City × City × City × City) where
  getValidMoves s m := getValidMovesOropt1 s m.1 m.2.1 m.2.2.1 m.2.2.2.1 m.2.2.2.2
  getDeltaObj s m := getDeltaObjOropt1 s m.1 m.2.1 m.2.2.1 m.2.2.2.1 m.2.2.2.2
  nextDecPath s m := nextDecPathOropt1 s m.1 m.2.1 m.2.2.1 m.2.2.2.1 m.2.2.2.2

def neighbourhoodOropt2 : Neighbourhood City (City × City × City × City × City × City) where
  getValidMoves s m := getValidMovesOropt2 s m.1 m.2.1 m.2.2.1 m.2.2.2.1 m.2.2.2.2.1 m.2.2.2.2.2
  getDeltaObj s m := getDeltaObjOropt2 s m.1 m.2.1 m.2.2.1 m.2.2.2.1 m.2.2.2.2.1 m.2.2.2.2.2
  nextDecPath s m := nextDecPathOropt2 s m.1 m.2.1 m.2.2.1 m.2.2.2.1 m.2.2.2.2.1 m.2.2.2.2.2

section Input

omit [LinearOrder City] [OrderBot City]

-- the same instance with another path
def V.SameInput (s s' : V City) : Prop :=
  ∃ path reachable reach, s' = { s with decPath := path, reachable := reachable, reach := reach }

theorem V.SameInput.refl (s : V City) : s.SameInput s := ⟨_, _, _, rfl⟩

end Input

theorem V.SameInput.withPath {s s' : V City} (h : s.SameInput s') (path : City → City → Prop) :
    s.SameInput (s'.withPath path) := by
  obtain ⟨path', reachable, reach, rfl⟩ := h
  exact ⟨_, _, _, rfl⟩

variable [Fintype City]

open Classical in
noncomputable def objValue (s : V City) : ℤ := Obj s

open Classical in
omit [LinearOrder City] [OrderBot City] in
theorem objValue_nonneg (s : V City) : 0 ≤ objValue s :=
  Finset.sum_nonneg fun e _ => Int.natCast_nonneg (s.distance e.1 e.2).1

omit [LinearOrder City] [OrderBot City] in
theorem obj_eq_objValue (s : V City) [DecidableRel s.decPath] : Obj s = objValue s := by
  unfold objValue Obj
  congr

variable {Move Next : Type}

-- the queries answer what they say, and the expansion of the next path finds the model that it has
structure Implements (N : Neighbourhood City Move) (encode : Move → ElementTuple) (mm : MoveModelling (V City) Next) :
    Prop where
  moves : ∀ t s m, m ∈ mm.queryValidMoves t s ↔ ∃ x, encode x = m ∧ N.getValidMoves s x
  delta : ∃ delta, mm.queryDeltaObj = some delta ∧ ∀ t s x, delta t s (encode x) = N.getDeltaObj s x
  neighbor : ∀ t s x, T (s.withPath (N.nextDecPath s x)) →
    mm.getNeighborSolution t s (encode x) = some (s.withPath (N.nextDecPath s x))

-- every valid move leads to a tour, and makes the difference that its delta says
structure Neighbourhood.Exact (N : Neighbourhood City Move) (ini : V City) : Prop where
  tour : ∀ s, T s → ∀ x, N.getValidMoves s x → T (s.withPath (N.nextDecPath s x))
  negative : ∀ s x, N.getValidMoves s x → N.getDeltaObj s x < 0
  delta : ∀ s, ini.SameInput s → T s → ∀ x, N.getValidMoves s x →
    objValue (s.withPath (N.nextDecPath s x)) = objValue s + N.getDeltaObj s x

-- what is found: tours of the instance only, the best one that was seen, and one that no move improves once there
-- was time enough
structure Finds (N : Neighbourhood City Move) (ini : V City) (limit : ℕ) (st : Search (V City)) : Prop where
  tours : ∀ s ∈ st.visited, T s ∧ ini.SameInput s
  reports : st.Reports objValue
  optimum : (objValue ini).toNat < limit → ∀ s, st.bestSol = some s → ∀ x, ¬ N.getValidMoves s x

-- the current solution is the best one of the tours that were seen
structure Touring (ini : V City) (st : Search (V City)) : Prop where
  initialSol : st.initialSol = ini
  tours : ∀ s ∈ st.visited, T s ∧ ini.SameInput s
  current : st.currentSol ∈ st.visited
  currentobj : st.currentobj = objValue st.currentSol
  bestObjVal : st.bestObjVal = st.currentobj
  bestSol : st.bestSol.getD ini = st.currentSol
  tracks : Incumbent.Tracks objValue ini st.incumbent

section Search

variable {N : Neighbourhood City Move} {encode : Move → ElementTuple} {mm : MoveModelling (V City) Next} {ini : V City}
  {st st' : Search (V City)} {t : ℕ} {x : Move}

theorem touring_doSearch (h : T ini) : Touring ini (Search.doSearch objValue ini) where
  initialSol := rfl
  tours s hs := by
    rw [List.mem_singleton.mp hs]
    exact ⟨h, V.SameInput.refl ini⟩
  current := List.mem_singleton_self ini
  currentobj := rfl
  bestObjVal := rfl
  bestSol := rfl
  tracks := Incumbent.tracks_start objValue ini

theorem next_objValue (hN : N.Exact ini) (h : Touring ini st) (hx : N.getValidMoves st.currentSol x) :
    objValue (st.currentSol.withPath (N.nextDecPath st.currentSol x)) < st.currentobj := by
  obtain ⟨htour, hinput⟩ := h.tours _ h.current
  have hnegative := hN.negative _ x hx
  rw [hN.delta _ hinput htour x hx, h.currentobj]
  omega

-- the search after a valid move
def Search.along (N : Neighbourhood City Move) (encode : Move → ElementTuple) (t : ℕ) (st : Search (V City)) (x : Move)
    (newobj : ℤ) : Search (V City) :=
  st.moveTo t (encode x) (st.currentSol.withPath (N.nextDecPath st.currentSol x)) newobj

theorem Touring.along (hN : N.Exact ini) (h : Touring ini st) (hx : N.getValidMoves st.currentSol x) {newobj : ℤ}
    (hobj : newobj = objValue (st.currentSol.withPath (N.nextDecPath st.currentSol x))) :
    Touring ini (Search.along N encode t st x newobj) := by
  obtain ⟨htour, hinput⟩ := h.tours _ h.current
  have hless : newobj < st.bestObjVal := hobj ▸ h.bestObjVal ▸ next_objValue hN h hx
  have htracks := Incumbent.tracks_offer h.tracks (st.currentSol.withPath (N.nextDecPath st.currentSol x))
  rw [← hobj] at htracks
  refine ⟨h.initialSol, fun s hs => ?_, ?_, hobj, ?_, ?_, ?_⟩
  · rcases List.mem_append.mp hs with hs | hs
    · exact h.tours s hs
    · rw [List.mem_singleton.mp hs]
      exact ⟨hN.tour _ htour x hx, hinput.withPath _⟩
  · exact List.mem_append_right _ (List.mem_singleton_self _)
  · simp only [Search.along, Search.moveTo, if_pos hless]
  · simp only [Search.along, Search.moveTo, if_pos hless, Option.getD_some]
  · rw [Search.along, Search.incumbent_moveTo]
    exact htracks

-- an iteration ends the search at a solution without valid moves, or goes along one
def Advances (N : Neighbourhood City Move) (encode : Move → ElementTuple) (ini : V City)
    (loop : ℕ → Search (V City) → Option (Search (V City))) : Prop :=
  (∀ st, loop 0 st = some st) ∧ ∀ t st, Touring ini st →
    (loop (t + 1) st = some st ∧ ∀ x, ¬ N.getValidMoves st.currentSol x) ∨
    ∃ x newobj, N.getValidMoves st.currentSol x ∧
      newobj = objValue (st.currentSol.withPath (N.nextDecPath st.currentSol x)) ∧
      loop (t + 1) st = loop t (Search.along N encode t st x newobj)

theorem Advances.loop_touring {loop : ℕ → Search (V City) → Option (Search (V City))}
    (hloop : Advances N encode ini loop) (hN : N.Exact ini) (n : ℕ) (h : Touring ini st) :
    ∃ st', loop n st = some st' ∧ Touring ini st' ∧
      ((objValue st.currentSol).toNat < n → ∀ x, ¬ N.getValidMoves st'.currentSol x) := by
  induction n generalizing st with
  | zero => exact ⟨st, hloop.1 st, h, fun hlt => absurd hlt (Nat.not_lt_zero _)⟩
  | succ t ih =>
    rcases hloop.2 t st h with ⟨hstop, hnone⟩ | ⟨x, newobj, hx, hobj, hnext⟩
    · exact ⟨st, hstop, h, fun _ => hnone⟩
    · obtain ⟨st', heq, htouring, hopt⟩ := @ih (Search.along N encode t st x newobj) (h.along hN hx hobj)
      refine ⟨st', hnext.trans heq, htouring, fun hlt => hopt ?_⟩
      have hless := next_objValue hN h hx
      have hnonneg := objValue_nonneg (st.currentSol.withPath (N.nextDecPath st.currentSol x))
      rw [h.currentobj] at hless
      change (objValue (st.currentSol.withPath (N.nextDecPath st.currentSol x))).toNat < t
      omega

theorem Touring.finds {limit : ℕ} (h : Touring ini st)
    (hopt : (objValue ini).toNat < limit → ∀ x, ¬ N.getValidMoves st.currentSol x) :
    Finds N ini limit st.copyInitial where
  tours := h.tours
  reports := by
    rw [Search.Reports, Search.incumbent_copyInitial, h.initialSol]
    exact Incumbent.reports_close h.tracks
  optimum hlt s hs := by
    have heq : st.bestSol.getD st.initialSol = s := Option.some.inj hs
    rw [h.initialSol, h.bestSol] at heq
    exact heq ▸ hopt hlt

theorem first_advances (hmm : Implements N encode mm) (hN : N.Exact ini) :
    Advances N encode ini fun n st => FirstImprovementSearch.loop objValue mm n none st := by
  refine ⟨fun st => rfl, fun t st h => ?_⟩
  dsimp only
  rw [FirstImprovementSearch.loop, Option.getD_none]
  cases hmoves : mm.queryValidMoves t st.currentSol with
  | nil =>
    refine Or.inl ⟨rfl, fun x hx => ?_⟩
    simpa [hmoves] using (hmm.moves t st.currentSol (encode x)).mpr ⟨x, rfl, hx⟩
  | cons m moves =>
    obtain ⟨x, rfl, hx⟩ := (hmm.moves t st.currentSol m).mp (hmoves ▸ List.mem_cons_self)
    obtain ⟨delta, hdelta, hvalue⟩ := hmm.delta
    have htour := hN.tour _ (h.tours _ h.current).1 x hx
    have haccept := (@FirstImprovementSearch.tryMove_accept_iff _ _ objValue mm t st (encode x) _).mpr
      ⟨next_objValue hN h hx, Or.inl ⟨delta, hdelta, hmm.neighbor t st.currentSol x htour,
        (hvalue t st.currentSol x).trans_lt (hN.negative _ x hx), rfl⟩⟩
    simp only [haccept]
    exact Or.inr ⟨x, _, hx, rfl, rfl⟩

theorem best_advances (hmm : Implements N encode mm) (hN : N.Exact ini) :
    Advances N encode ini (BestImprovementSearch.loop mm) := by
  refine ⟨fun st => rfl, fun t st h => ?_⟩
  obtain ⟨delta, hdelta, hvalue⟩ := hmm.delta
  have hnegative : ∀ m ∈ mm.queryValidMoves t st.currentSol, delta t st.currentSol m < 0 := by
    intro m hm
    obtain ⟨x, rfl, hx⟩ := (hmm.moves t st.currentSol m).mp hm
    exact (hvalue t st.currentSol x).trans_lt (hN.negative _ x hx)
  rcases @BestImprovementSearch.foldl_scanMove_cases (delta t st.currentSol) (mm.queryValidMoves t st.currentSol)
    ⟨100000, none⟩ with ⟨-, hall⟩ | ⟨m, hleast, -, -⟩
  · have hmoves : mm.queryValidMoves t st.currentSol = [] :=
      List.eq_nil_iff_forall_not_mem.mpr fun m hm => by
        have hge : (100000 : ℤ) ≤ _ := hall m hm
        have hlt := hnegative m hm
        omega
    refine Or.inl ⟨?_, fun x hx => by simpa [hmoves] using (hmm.moves t st.currentSol (encode x)).mpr ⟨x, rfl, hx⟩⟩
    simp [BestImprovementSearch.loop, BestImprovementSearch.scan, hmoves]
  · have hm : m ∈ mm.queryValidMoves t st.currentSol := by
      obtain ⟨l, l', heq, -⟩ := hleast
      rw [heq]
      exact List.mem_append_right _ List.mem_cons_self
    obtain ⟨x, rfl, hx⟩ := (hmm.moves t st.currentSol m).mp hm
    obtain ⟨htour, hinput⟩ := h.tours _ h.current
    have hstep := (@BestImprovementSearch.step_iff _ _ mm t st _).mpr ⟨delta, _, _, hdelta, hleast, hnegative _ hm,
      hmm.neighbor t st.currentSol x (hN.tour _ htour x hx), rfl⟩
    refine Or.inr ⟨x, _, hx, ?_, BestImprovementSearch.loop_step mm hstep⟩
    rw [hvalue, hN.delta _ hinput htour x hx, h.currentobj]

end Search

section Exact

variable {ini : V City}

omit [Fintype City] in
theorem tour_of_presents {s : V City} (h : T s) {path : City → City → Prop} (hp : ∃ l, Tour.Presents path ⊥ l) :
    T (s.withPath path) := (satisfiesAgain_of_presents h hp).1

open Classical in
theorem neighbourhoodOropt1_exact : neighbourhoodOropt1.Exact ini where
  tour _ hs _ hx := tour_of_presents hs (orOpt1_presents hs hx)
  negative _ _ hx := hx.2.2.2.2.2.2.2
  delta s _ hs x hx := by
    have hdelta := orOpt1_delta hs hx
    rwa [obj_eq_objValue, obj_eq_objValue] at hdelta

open Classical in
theorem neighbourhoodOropt2_exact : neighbourhoodOropt2.Exact ini where
  tour _ hs _ hx := tour_of_presents hs (orOpt2_presents hs hx)
  negative _ _ hx := hx.2.2.2.2.2.2.2.2.2
  delta s _ hs x hx := by
    have hdelta := orOpt2_delta hs hx
    rwa [obj_eq_objValue, obj_eq_objValue] at hdelta

open Classical in
theorem neighbourhood2opt_exact (hsymm : ∀ x y, ini.dist x y = ini.dist y x) : neighbourhood2opt.Exact ini where
  tour _ hs _ hx := tour_of_presents hs (twoOpt_presents hs hx)
  negative _ _ hx := hx.2.2.2.2.2.2
  delta s hinput hs x hx := by
    obtain ⟨path, reachable, reach, rfl⟩ := hinput
    have hdelta := twoOpt_delta hs hx
    have hsame : SameTurned2opt { ini with decPath := path, reachable := reachable, reach := reach } x.2.1 x.2.2.1 :=
      sameTurned2opt_of_symm hsymm
    rw [SameTurned2opt] at hsame
    rw [obj_eq_objValue, obj_eq_objValue, hsame] at hdelta
    exact add_right_cancel hdelta

end Exact

-- with either search and any limit
def FindsTours (N : Neighbourhood City Move) (mm : MoveModelling (V City) Next) (ini : V City) : Prop :=
  ∀ limit, (∃ st, FirstImprovementSearch.doSearch objValue mm limit ini = some st ∧ Finds N ini limit st) ∧
    ∃ st, BestImprovementSearch.doSearch objValue mm limit ini = some st ∧ Finds N ini limit st

theorem Neighbourhood.Exact.findsTours {N : Neighbourhood City Move} {encode : Move → ElementTuple}
    {mm : MoveModelling (V City) Next} {ini : V City} (hN : N.Exact ini) (hmm : Implements N encode mm) (h : T ini) :
    FindsTours N mm ini := by
  refine fun limit => ⟨?_, ?_⟩
  · obtain ⟨st, hloop, htouring, hopt⟩ := (first_advances hmm hN).loop_touring hN limit (touring_doSearch h)
    exact ⟨_, congrArg (Option.map Search.copyInitial) hloop, htouring.finds hopt⟩
  · obtain ⟨st, hloop, htouring, hopt⟩ := (best_advances hmm hN).loop_touring hN limit (touring_doSearch h)
    -- reading the objective of the best solution again changes nothing
    have hsame : BestImprovementSearch.reevaluate objValue st.copyInitial = st.copyInitial := by
      have hbest : objValue (st.copyInitial.bestSol.getD st.copyInitial.initialSol) = st.bestObjVal := by
        rw [Search.copyInitial, Option.getD_some, htouring.initialSol, htouring.bestSol, htouring.bestObjVal,
          htouring.currentobj]
      rw [BestImprovementSearch.reevaluate, hbest]
      rfl
    refine ⟨st.copyInitial, ?_, htouring.finds hopt⟩
    rw [BestImprovementSearch.doSearch, hloop, Option.map_some, hsame]

section Ring

open Classical in
-- the moves in some order
noncomputable def anySearch [Fintype Move] (N : Neighbourhood City Move) (encode : Move → ElementTuple) :
    MoveModelling (V City) (V City × (City → City → Prop)) where
  queryValidMoves _ s := ((Finset.univ.filter fun x => N.getValidMoves s x).toList).map encode
  queryDeltaObj := some fun _ s => Function.extend encode (N.getDeltaObj s) 0
  theoNext _ s := Function.extend encode (fun x => some (s, N.nextDecPath s x)) fun _ => none
  queryGetNextCost _ next := objValue (next.1.withPath next.2)
  getNeighborSolutionWithoutMX _ next := if T (next.1.withPath next.2) then some (next.1.withPath next.2) else none

theorem anySearch_implements [Fintype Move] (N : Neighbourhood City Move) {encode : Move → ElementTuple}
    (hencode : Function.Injective encode) : Implements N encode (anySearch N encode) where
  moves t s m := by simp [anySearch, and_comm]
  delta := ⟨_, rfl, fun _ _ _ => hencode.extend_apply _ _ _⟩
  neighbor t s x htour := by
    simp only [MoveModelling.getNeighborSolution, anySearch, hencode.extend_apply, Option.bind_some, if_pos htour]

def city (c : Fin 6) : DomainElement := .int c

def fourCities (m : Fin 6 × Fin 6 × Fin 6 × Fin 6) : ElementTuple :=
  [city m.1, city m.2.1, city m.2.2.1, city m.2.2.2]

def fiveCities (m : Fin 6 × Fin 6 × Fin 6 × Fin 6 × Fin 6) : ElementTuple := city m.1 :: fourCities m.2

def sixCities (m : Fin 6 × Fin 6 × Fin 6 × Fin 6 × Fin 6 × Fin 6) : ElementTuple := city m.1 :: fiveCities m.2

theorem fourCities_injective : Function.Injective fourCities := fun a b h => by
  simpa [fourCities, city, Prod.ext_iff, Fin.ext_iff] using h

theorem fiveCities_injective : Function.Injective fiveCities := fun a b h => by
  simpa [fiveCities, fourCities, city, Prod.ext_iff, Fin.ext_iff] using h

theorem sixCities_injective : Function.Injective sixCities := fun a b h => by
  simpa [sixCities, fiveCities, fourCities, city, Prod.ext_iff, Fin.ext_iff] using h

end Ring

end TSP
