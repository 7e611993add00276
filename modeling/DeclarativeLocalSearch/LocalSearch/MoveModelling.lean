import DeclarativeLocalSearch.Foundation.Incumbent
import DeclarativeLocalSearch.Structure.DomainElement

namespace LocalSearch

open Structure

variable {Sol Next : Type}

-- the first argument of an answer is the number of clock readings left before the time limit
structure MoveModelling (Sol Next : Type) where
  queryValidMoves : ℕ → Sol → List ElementTuple
  queryDeltaObj : Option (ℕ → Sol → ElementTuple → Int)
  theoNext : ℕ → Sol → ElementTuple → Option Next
  queryGetNextCost : ℕ → Next → Int
  getNeighborSolutionWithoutMX : ℕ → Next → Option Sol

def MoveModelling.getNeighborSolution (mm : MoveModelling Sol Next) (t : ℕ) (s : Sol)
    (m : ElementTuple) : Option Sol :=
  (mm.theoNext t s m).bind (mm.getNeighborSolutionWithoutMX t)

structure Taken (Sol : Type) where
  time : ℕ
  source : Sol
  move : ElementTuple

structure Search (Sol : Type) where
  initialSol : Sol
  iniObjVal : Int
  currentSol : Sol
  currentobj : Int
  bestSol : Option Sol
  bestObjVal : Int
  visited : List Sol
  taken : List (Taken Sol)

namespace Search

def incumbent (st : Search Sol) : Incumbent.State Sol Int :=
  ⟨st.bestSol, st.bestObjVal, st.visited⟩

-- a given initial solution is two-valued, so that expanding it again yields it
def doSearch (queryGetObj : Sol → Int) (ini : Sol) : Search Sol where
  initialSol := ini
  iniObjVal := queryGetObj ini
  currentSol := ini
  currentobj := queryGetObj ini
  bestSol := none
  bestObjVal := queryGetObj ini
  visited := [ini]
  taken := []

def moveTo (st : Search Sol) (t : ℕ) (m : ElementTuple) (newsol : Sol) (newobj : Int) :
    Search Sol :=
  { st with
    currentSol := newsol
    currentobj := newobj
    bestSol := if newobj < st.bestObjVal then some newsol else st.bestSol
    bestObjVal := if newobj < st.bestObjVal then newobj else st.bestObjVal
    visited := st.visited ++ [newsol]
    taken := st.taken ++ [⟨t, st.currentSol, m⟩] }

def copyInitial (st : Search Sol) : Search Sol :=
  { st with bestSol := some (st.bestSol.getD st.initialSol) }

theorem incumbent_moveTo (st : Search Sol) (t : ℕ) (m : ElementTuple) (newsol : Sol)
    (newobj : Int) :
    (st.moveTo t m newsol newobj).incumbent = Incumbent.offer st.incumbent newsol newobj := by
  unfold Incumbent.offer
  by_cases h : newobj < st.bestObjVal <;> simp [incumbent, moveTo, h]

theorem incumbent_copyInitial (st : Search Sol) :
    st.copyInitial.incumbent = Incumbent.close st.incumbent st.initialSol := rfl

def Sound (obj : Sol → Int) (faithful : Taken Sol → Prop) (ini : Sol) (st : Search Sol) : Prop :=
  st.initialSol = ini ∧ st.iniObjVal = obj ini ∧
    ((∀ e ∈ st.taken, faithful e) →
      st.currentobj = obj st.currentSol ∧ Incumbent.Tracks obj ini st.incumbent)

theorem sound_doSearch (obj : Sol → Int) (faithful : Taken Sol → Prop) (ini : Sol) :
    Sound obj faithful ini (doSearch obj ini) :=
  ⟨rfl, rfl, fun _ => ⟨rfl, Incumbent.tracks_start obj ini⟩⟩

theorem sound_moveTo {obj : Sol → Int} {faithful : Taken Sol → Prop} {ini : Sol} {st : Search Sol}
    (h : Sound obj faithful ini st) {t : ℕ} {m : ElementTuple} {newsol : Sol} {newobj : Int}
    (hv : faithful ⟨t, st.currentSol, m⟩ → st.currentobj = obj st.currentSol →
      newobj = obj newsol) :
    Sound obj faithful ini (st.moveTo t m newsol newobj) := by
  obtain ⟨hi, ho, h⟩ := h
  refine ⟨hi, ho, fun ht => ?_⟩
  have hold : ∀ e ∈ st.taken, faithful e := fun e he => ht e (by simp [moveTo, he])
  obtain ⟨hc, htr⟩ := h hold
  have hnew := hv (ht _ (by simp [moveTo])) hc
  refine ⟨hnew, ?_⟩
  rw [incumbent_moveTo, hnew]
  exact Incumbent.tracks_offer htr newsol

def Reports (obj : Sol → Int) (st : Search Sol) : Prop :=
  Incumbent.Reports obj st.incumbent

theorem reports_copyInitial {obj : Sol → Int} {faithful : Taken Sol → Prop} {ini : Sol}
    {st : Search Sol} (h : Sound obj faithful ini st) (ht : ∀ e ∈ st.taken, faithful e) :
    Reports obj st.copyInitial := by
  rw [Reports, incumbent_copyInitial, h.1]
  exact Incumbent.reports_close (h.2.2 ht).2

structure Returns (obj : Sol → Int) (faithful : Taken Sol → Prop) (ini : Sol) (st : Search Sol) :
    Prop where
  iniObjVal : st.iniObjVal = obj ini
  reports : (∀ e ∈ st.taken, faithful e) → st.Reports obj
  notWorse : (∀ e ∈ st.taken, faithful e) → st.bestObjVal ≤ obj ini

theorem returns_copyInitial {obj : Sol → Int} {faithful : Taken Sol → Prop} {ini : Sol}
    {st : Search Sol} (h : Sound obj faithful ini st) :
    Returns obj faithful ini st.copyInitial :=
  ⟨h.2.1, fun ht => have hr : Reports obj st.copyInitial := reports_copyInitial h ht; hr,
    fun ht => (h.2.2 ht).2.least ini (h.2.2 ht).2.started⟩

end Search

end LocalSearch

namespace LocalSearch

open Structure

variable {Sol Next : Type} (obj : Sol → Int) (mm : MoveModelling Sol Next)

namespace FirstImprovementSearch

inductive Attempt (Sol : Type) where
  | crash
  | stop
  | reject
  | accept (newsol : Sol) (newobj : Int)

def tryMove (t : ℕ) (st : Search Sol) (m : ElementTuple) : Attempt Sol :=
  match mm.queryDeltaObj with
  | some delta =>
    match mm.getNeighborSolution t st.currentSol m with
    | none => .stop
    | some newsol =>
      if delta t st.currentSol m < 0 ∧ obj newsol < st.currentobj then
        .accept newsol (obj newsol)
      else .reject
  | none =>
    match mm.theoNext t st.currentSol m with
    | none => .stop
    | some nextsol =>
      let newobj := mm.queryGetNextCost t nextsol
      if newobj - st.currentobj < 0 then
        -- queryGetObj is evaluated on the new solution before its null test
        match mm.getNeighborSolutionWithoutMX t nextsol with
        | none => .crash
        | some newsol => .accept newsol newobj
      else .reject

-- pending moves: none at the test of the outer loop, the rest of the table at the inner one
def loop : ℕ → Option (List ElementTuple) → Search Sol → Option (Search Sol)
  | 0, _, st => some st
  | t + 1, pending, st =>
    match pending.getD (mm.queryValidMoves t st.currentSol) with
    | [] => some st
    | m :: moves =>
      match tryMove obj mm t st m with
      | .crash => none
      | .stop => some st
      | .reject => loop t (some moves) st
      | .accept newsol newobj => loop t none (st.moveTo t m newsol newobj)

def doSearch (limit : ℕ) (ini : Sol) : Option (Search Sol) :=
  (loop obj mm limit none (Search.doSearch obj ini)).map Search.copyInitial

def Faithful (e : Taken Sol) : Prop :=
  mm.queryDeltaObj = none → ∀ nextsol newsol, mm.theoNext e.time e.source e.move = some nextsol →
    mm.getNeighborSolutionWithoutMX e.time nextsol = some newsol →
    mm.queryGetNextCost e.time nextsol = obj newsol

theorem tryMove_accept {t : ℕ} {st : Search Sol} {m : ElementTuple} {newsol : Sol} {newobj : Int}
    (h : tryMove obj mm t st m = .accept newsol newobj)
    (hf : Faithful obj mm ⟨t, st.currentSol, m⟩) : newobj = obj newsol := by
  unfold tryMove at h
  cases hq : mm.queryDeltaObj with
  | some delta =>
    rw [hq] at h
    cases hn : mm.getNeighborSolution t st.currentSol m with
    | none => simp [hn] at h
    | some s =>
      simp only [hn] at h
      split at h
      · simp only [Attempt.accept.injEq] at h
        rw [← h.1, ← h.2]
      · cases h
  | none =>
    rw [hq] at h
    cases hx : mm.theoNext t st.currentSol m with
    | none => simp [hx] at h
    | some nextsol =>
      simp only [hx] at h
      split at h
      · cases hn : mm.getNeighborSolutionWithoutMX t nextsol with
        | none => simp [hn] at h
        | some s =>
          simp only [hn, Attempt.accept.injEq] at h
          rw [← h.1, ← h.2]
          exact hf hq nextsol s hx hn
      · cases h

theorem loop_sound (n : ℕ) (pending : Option (List ElementTuple)) {st st' : Search Sol}
    (h : loop obj mm n pending st = some st') {ini : Sol}
    (hs : st.Sound obj (Faithful obj mm) ini) : st'.Sound obj (Faithful obj mm) ini := by
  induction n generalizing pending st with
  | zero => simpa [loop, ← Option.some.inj h] using hs
  | succ t ih =>
    rw [loop] at h
    cases hp : pending.getD (mm.queryValidMoves t st.currentSol) with
    | nil => simpa [hp, ← Option.some.inj (by simpa [hp] using h)] using hs
    | cons m moves =>
      rw [hp] at h
      dsimp only at h
      cases ha : tryMove obj mm t st m with
      | crash => simp [ha] at h
      | stop =>
        rw [ha] at h
        rwa [← Option.some.inj h]
      | reject =>
        rw [ha] at h
        exact ih _ h hs
      | accept newsol newobj =>
        rw [ha] at h
        exact ih _ h (Search.sound_moveTo hs fun hf _ => tryMove_accept obj mm ha hf)

theorem doSearch_returns {limit : ℕ} {ini : Sol} {st : Search Sol}
    (h : doSearch obj mm limit ini = some st) : st.Returns obj (Faithful obj mm) ini := by
  obtain ⟨st', hl, rfl⟩ := Option.map_eq_some_iff.mp h
  exact Search.returns_copyInitial
    (loop_sound obj mm limit none hl (Search.sound_doSearch obj _ ini))

end FirstImprovementSearch

namespace BestImprovementSearch

structure Scan where
  bestimprove : Int
  bestMove : Option ElementTuple

def scanMove (delta : ElementTuple → Int) (acc : Scan) (m : ElementTuple) : Scan :=
  if delta m < acc.bestimprove then ⟨delta m, some m⟩ else acc

-- the query for the delta is only needed, and only dereferenced, for an actual move
def scan (t : ℕ) (st : Search Sol) : Option Scan :=
  match mm.queryValidMoves t st.currentSol, mm.queryDeltaObj with
  | [], _ => some ⟨100000, none⟩
  | _ :: _, none => none
  | moves, some delta => some (moves.foldl (scanMove (delta t st.currentSol)) ⟨100000, none⟩)

def loop : ℕ → Search Sol → Option (Search Sol)
  | 0, st => some st
  | t + 1, st =>
    match scan mm t st with
    | none => none
    | some ⟨bestimprove, bestMove⟩ =>
      if bestimprove < 0 then
        match bestMove with
        | none => none
        | some m =>
          match mm.getNeighborSolution t st.currentSol m with
          | none => some st
          | some newsol => loop t (st.moveTo t m newsol (st.currentobj + bestimprove))
      else some st

def reevaluate (st : Search Sol) : Search Sol :=
  { st with bestObjVal := obj (st.bestSol.getD st.initialSol) }

def doSearch (limit : ℕ) (ini : Sol) : Option (Search Sol) :=
  (loop mm limit (Search.doSearch obj ini)).map fun st => reevaluate obj st.copyInitial

def Faithful (e : Taken Sol) : Prop :=
  ∀ delta newsol, mm.queryDeltaObj = some delta →
    mm.getNeighborSolution e.time e.source e.move = some newsol →
    delta e.time e.source e.move = obj newsol - obj e.source

theorem foldl_scanMove (delta : ElementTuple → Int) (moves : List ElementTuple) (acc : Scan)
    (h : ∀ m, acc.bestMove = some m → acc.bestimprove = delta m) (m : ElementTuple)
    (hm : (moves.foldl (scanMove delta) acc).bestMove = some m) :
    (moves.foldl (scanMove delta) acc).bestimprove = delta m := by
  induction moves generalizing acc with
  | nil => exact h m hm
  | cons a moves ih =>
    refine ih (scanMove delta acc a) ?_ hm
    intro b hb
    unfold scanMove at hb ⊢
    split at hb
    · rw [if_pos ‹_›]
      exact congrArg delta (Option.some.inj hb)
    · rw [if_neg ‹_›]
      exact h b hb

theorem scan_spec {t : ℕ} {st : Search Sol} {bestimprove : Int} {m : ElementTuple}
    (h : scan mm t st = some ⟨bestimprove, some m⟩) :
    ∃ delta, mm.queryDeltaObj = some delta ∧ bestimprove = delta t st.currentSol m := by
  unfold scan at h
  split at h
  · simp at h
  · simp at h
  · rename_i delta hq _
    refine ⟨delta, hq, ?_⟩
    have h' := Option.some.inj h
    have := foldl_scanMove (delta t st.currentSol) (mm.queryValidMoves t st.currentSol)
      ⟨100000, none⟩ (by simp) m (by rw [h'])
    rwa [h'] at this

theorem loop_sound (n : ℕ) {st st' : Search Sol} (h : loop mm n st = some st') {ini : Sol}
    (hs : st.Sound obj (Faithful obj mm) ini) : st'.Sound obj (Faithful obj mm) ini := by
  induction n generalizing st with
  | zero => simpa [loop, ← Option.some.inj h] using hs
  | succ t ih =>
    rw [loop] at h
    rcases hscan : scan mm t st with _ | ⟨bestimprove, bestMove⟩
    · simp [hscan] at h
    · rw [hscan] at h
      dsimp only at h
      split at h
      · cases bestMove with
        | none => simp at h
        | some m =>
          dsimp only at h
          cases hn : mm.getNeighborSolution t st.currentSol m with
          | none =>
            rw [hn] at h
            rwa [← Option.some.inj h]
          | some newsol =>
            rw [hn] at h
            refine ih h (Search.sound_moveTo hs fun hf hc => ?_)
            obtain ⟨delta, hq, hb⟩ := scan_spec mm hscan
            have hd := hf delta newsol hq hn
            dsimp only at hd
            rw [hb, hd, hc]
            omega
      · rwa [← Option.some.inj h]

theorem reevaluate_returns {ini : Sol} {st : Search Sol}
    (h : st.copyInitial.Returns obj (Faithful obj mm) ini) :
    (reevaluate obj st.copyInitial).Returns obj (Faithful obj mm) ini := by
  have hv : ∀ (_ : ∀ e ∈ st.taken, Faithful obj mm e),
      (reevaluate obj st.copyInitial).bestObjVal = st.copyInitial.bestObjVal := by
    intro hf
    obtain ⟨s, hs, -, ha⟩ := (h.reports hf).best
    change obj (st.copyInitial.bestSol.getD st.initialSol) = _
    rw [show st.copyInitial.bestSol = some s from hs]
    exact ha
  refine ⟨h.iniObjVal, fun hf => ?_, fun hf => (hv hf).le.trans (h.notWorse hf)⟩
  obtain ⟨s, hs, hm, ha⟩ := (h.reports hf).best
  exact ⟨⟨s, hs, hm, ha.trans (hv hf).symm⟩,
    fun v hvis => (hv hf).le.trans ((h.reports hf).least v hvis)⟩

theorem doSearch_returns {limit : ℕ} {ini : Sol} {st : Search Sol}
    (h : doSearch obj mm limit ini = some st) : st.Returns obj (Faithful obj mm) ini := by
  obtain ⟨st', hl, rfl⟩ := Option.map_eq_some_iff.mp h
  exact reevaluate_returns obj mm (Search.returns_copyInitial
    (loop_sound obj mm limit hl (Search.sound_doSearch obj _ ini)))

end BestImprovementSearch

namespace TabuSearch

def elemsAreEqual : DomainElement → DomainElement → Bool
  | .int a, .int b => a == b
  | .double a, .double b => a == b
  | .string a, .string b => a == b
  | .compound _ _, _ => true
  | _, _ => false

def movesAreEqual (move1 move2 : ElementTuple) : Bool :=
  (move1.zip move2).all fun p => elemsAreEqual p.1 p.2

def getMoveFromTabuList (tabuList : List ElementTuple) (m : ElementTuple) : Bool :=
  tabuList.any fun n => movesAreEqual n m

def updateTabuList (tabuTenure : ℕ) (tabuList : List ElementTuple) (m : ElementTuple) :
    Option (List ElementTuple) :=
  if tabuList.length ≥ tabuTenure then
    match tabuList with
    | [] => none
    | _ :: rest => some (rest ++ [m])
  else some (tabuList ++ [m])

structure Scan where
  bestMove : ElementTuple
  bestImprovement : Int
  bestSolutionWithMove : Option ElementTuple
  toogoodmove : Bool

def scanMove (delta : ElementTuple → Int) (currentObj bestObjVal : Int)
    (tabuList : List ElementTuple) (acc : Scan) (m : ElementTuple) : Scan :=
  if getMoveFromTabuList tabuList m then
    -- the solution that belongs to a tabu move is not recorded
    if currentObj + delta m < bestObjVal then
      { acc with bestImprovement := delta m, bestMove := m, toogoodmove := true }
    else acc
  else if delta m < acc.bestImprovement then
    { acc with bestImprovement := delta m, bestMove := m, bestSolutionWithMove := some m }
  else acc

def getBestMove (tabuTenure t : ℕ) (st : Search Sol) (tabuList moves : List ElementTuple) :
    Option (Option ElementTuple × List ElementTuple) :=
  match mm.queryDeltaObj with
  | none => none
  | some delta =>
    let acc := moves.foldl
      (scanMove (delta t st.currentSol) (obj st.currentSol) st.bestObjVal tabuList)
      ⟨[], 100000, none, false⟩
    if acc.bestImprovement = 100000 then
      match tabuList with
      | [] => none
      | m :: rest => some (some m, rest)
    else if acc.toogoodmove = false then
      (updateTabuList tabuTenure tabuList acc.bestMove).map fun tl =>
        (acc.bestSolutionWithMove, tl)
    else some (acc.bestSolutionWithMove, tabuList)

def loop (tabuTenure : ℕ) : ℕ → List ElementTuple → Search Sol → Option (Search Sol)
  | 0, _, st => some st
  | t + 1, tabuList, st =>
    match mm.queryValidMoves t st.currentSol with
    | [] => some st
    | moves =>
      match getBestMove obj mm tabuTenure t st tabuList moves with
      | none => none
      | some (none, _) => none
      | some (some m, tabuList') =>
        match mm.getNeighborSolution t st.currentSol m with
        | none => some st
        | some newsol => loop tabuTenure t tabuList' (st.moveTo t m newsol (obj newsol))

def doSearch (tabuTenure limit : ℕ) (ini : Sol) : Option (Search Sol) :=
  (loop obj mm tabuTenure limit [] (Search.doSearch obj ini)).map Search.copyInitial

theorem loop_sound (tabuTenure n : ℕ) (tabuList : List ElementTuple) {st st' : Search Sol}
    (h : loop obj mm tabuTenure n tabuList st = some st') {ini : Sol}
    (hs : st.Sound obj (fun _ => True) ini) : st'.Sound obj (fun _ => True) ini := by
  induction n generalizing tabuList st with
  | zero => simpa [loop, ← Option.some.inj h] using hs
  | succ t ih =>
    rw [loop] at h
    split at h
    · rwa [← Option.some.inj h]
    · split at h
      · cases h
      · cases h
      · split at h
        · rwa [← Option.some.inj h]
        · exact ih _ h (Search.sound_moveTo hs fun _ _ => rfl)

theorem doSearch_returns {tabuTenure limit : ℕ} {ini : Sol} {st : Search Sol}
    (h : doSearch obj mm tabuTenure limit ini = some st) : st.Returns obj (fun _ => True) ini := by
  obtain ⟨st', hl, rfl⟩ := Option.map_eq_some_iff.mp h
  exact Search.returns_copyInitial
    (loop_sound obj mm tabuTenure limit [] hl (Search.sound_doSearch obj _ ini))

end TabuSearch

end LocalSearch
