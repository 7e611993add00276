import DeclarativeLocalSearch.Foundation.Descent
import DeclarativeLocalSearch.Foundation.Incumbent
import DeclarativeLocalSearch.LocalSearch.LargeNeighbourhoodSearch

namespace LocalSearch

open Structure

variable {Sol : Type}

def LNSMove.getaRandomVar (m : LNSMove Sol) (rand : ℕ) : Option ElementTuple :=
  m.randomVariablesDomain.bind fun domain => domain[rand % domain.length]?

namespace LargeNeighbourhoodSearch

structure Parameters where
  minDisturbSize : ℤ
  maxDisturbSize : ℤ
  maxItersNoImprove : ℕ
  timeLimitMinimizeStep : ℕ

def parameters : Parameters := ⟨10, 50, 10, 6000⟩

-- the answers in an iteration, by the number of clock readings that are left: the random numbers, and the models
-- that the minimisation finds within its time limit
structure Environment (Sol : Type) where
  queryGetObj : Sol → Int
  rand : ℕ → ℕ
  randVar : ℕ → ℕ
  minimizeRandomly : ℕ → ℕ → Sol → ℤ → List Sol
  minimizeFromMove : ℕ → ℕ → Sol → ℕ → Option ElementTuple → List Sol

structure Run (Sol : Type) where
  moves : LargeNeighbourhoodSearch Sol
  currentSol : Sol
  currentobj : Int
  bestSol : Option Sol
  bestObjVal : Int
  strength : ℤ
  increasedTimeLimit : ℕ
  iterationsWithoutImprovement : ℕ
  visited : List Sol

def Run.incumbent (st : Run Sol) : Incumbent.State Sol Int := ⟨st.bestSol, st.bestObjVal, st.visited⟩

-- none where no move is enabled; the number 1000 is the random disturbance
def getRandomMove (s : LargeNeighbourhoodSearch Sol) (rand : ℕ) : Option ℕ :=
  if s.lEnabledMoves.length = 0 then none
  else
    let moveindex := rand % (s.lEnabledMoves.length + 1)
    if moveindex = s.lEnabledMoves.length then some 1000 else s.lEnabledMoves[moveindex]?

section Search

variable (p : Parameters) (env : Environment Sol)

-- the first of the models, a crash where there is none
def disturbSolutionRandomly (t : ℕ) (st : Run Sol) : Option Sol :=
  (env.minimizeRandomly t st.increasedTimeLimit st.currentSol st.strength).head?

def disturbFromMove (t : ℕ) (st : Run Sol) (moveindex : ℕ) : Option Sol :=
  match st.moves.lConcreteMovemodelling[moveindex]? with
  | none => none
  | some m =>
    match m.queryGetRandVarDomain with
    | none => (env.minimizeFromMove t p.timeLimitMinimizeStep st.currentSol moveindex none).head?
    | some _ => (m.getaRandomVar (env.randVar t)).bind fun de =>
      (env.minimizeFromMove t p.timeLimitMinimizeStep st.currentSol moveindex (some de)).head?

def disturb (t : ℕ) (st : Run Sol) (moveindex : ℕ) : Option Sol :=
  if moveindex = 1000 then disturbSolutionRandomly env t st else disturbFromMove p env t st moveindex

def Run.strengthen (st : Run Sol) : Run Sol :=
  if p.maxItersNoImprove ≤ st.iterationsWithoutImprovement then
    { st with strength := st.strength + 1, increasedTimeLimit := st.increasedTimeLimit + 10 }
  else st

def Run.moveTo (st : Run Sol) (newsol : Sol) : Run Sol :=
  if env.queryGetObj newsol < st.currentobj then
    { st with
      currentSol := newsol
      currentobj := env.queryGetObj newsol
      moves := st.moves.signalChangeCurrentSolution newsol
      visited := st.visited ++ [newsol] }
  else { st with visited := st.visited ++ [newsol] }

def Run.updateBest (newobj : Int) (st : Run Sol) : Run Sol :=
  if newobj < st.bestObjVal then
    { st with bestObjVal := newobj, bestSol := some st.currentSol, iterationsWithoutImprovement := 0 }
  else { st with iterationsWithoutImprovement := st.iterationsWithoutImprovement + 1 }

inductive Iteration (Sol : Type) where
  | crash
  | stop
  | next (st : Run Sol)

-- a solution that is returned is never null
def iteration (t : ℕ) (st : Run Sol) : Iteration Sol :=
  if p.maxDisturbSize ≤ (st.strengthen p).strength then .stop
  else
    match getRandomMove st.moves (env.rand t) with
    | none => .stop
    | some moveindex =>
      match disturb p env t (st.strengthen p) moveindex with
      | none => .crash
      | some newsol => .next (((st.strengthen p).moveTo env newsol).updateBest (env.queryGetObj newsol))

def loop : ℕ → Run Sol → Option (Run Sol)
  | 0, st => some st
  | t + 1, st =>
    match iteration p env t st with
    | .crash => none
    | .stop => some st
    | .next st' => loop t st'

def start (listmovemodelling : List (Option (RandVarDomain Sol))) (ini : Sol) : Run Sol where
  moves := (processInputData listmovemodelling).signalChangeCurrentSolution ini
  currentSol := ini
  currentobj := env.queryGetObj ini
  bestSol := none
  bestObjVal := env.queryGetObj ini
  strength := p.minDisturbSize
  increasedTimeLimit := p.timeLimitMinimizeStep
  iterationsWithoutImprovement := 0
  visited := [ini]

def doSearch (listmovemodelling : List (Option (RandVarDomain Sol))) (limit : ℕ) (ini : Sol) : Option (Run Sol) :=
  (loop p env limit (start p env listmovemodelling ini)).map fun st => { st with bestSol := some (st.bestSol.getD ini) }

-- a move that is enabled knows its random variables for the solution, and has one
def Prepared (s : LargeNeighbourhoodSearch Sol) (currentsol : Sol) : Prop :=
  ∀ i ∈ s.lEnabledMoves, ∀ m, s.lConcreteMovemodelling[i]? = some m → ∀ query, m.queryGetRandVarDomain = some query →
    m.randomVariablesDomain = some (query currentsol) ∧ query currentsol ≠ []

-- the current solution is the best one of those that were seen
structure Sound (ini : Sol) (st : Run Sol) : Prop where
  moves : Invariant st.moves
  prepared : Prepared st.moves st.currentSol
  current : st.currentobj = env.queryGetObj st.currentSol
  best : st.bestObjVal = st.currentobj
  bestSol : st.bestSol.getD ini = st.currentSol
  tracks : Incumbent.Tracks env.queryGetObj ini st.incumbent

variable {p env} {st st' : Run Sol} {ini newsol : Sol} {t : ℕ}

theorem prepared_signal {s : LargeNeighbourhoodSearch Sol} (h : Invariant s) (currentsol : Sol) :
    Prepared (s.signalChangeCurrentSolution currentsol) currentsol := by
  intro i hi m hm query hquery
  obtain ⟨m', hm', henable⟩ := ((h.signalChangeCurrentSolution currentsol).enabled i).mp hi
  obtain rfl := Option.some.inj (hm.symm.trans hm')
  rw [signalChangeCurrentSolution_moves] at hm
  obtain ⟨m', -, rfl⟩ := Option.map_eq_some_iff.mp hm
  cases hq : m'.queryGetRandVarDomain with
  | none => simp [signalled, hq] at hquery
  | some query' =>
    obtain rfl : query' = query := by simpa [signalled, hq] using hquery
    simp only [signalled, hq, Bool.and_eq_true, Bool.not_eq_true', List.isEmpty_eq_false_iff] at henable
    exact ⟨by simp only [signalled, hq], henable.2⟩

theorem sound_start (listmovemodelling : List (Option (RandVarDomain Sol))) (ini : Sol) :
    Sound env ini (start p env listmovemodelling ini) where
  moves := (invariant_processInputData listmovemodelling).signalChangeCurrentSolution ini
  prepared := prepared_signal (invariant_processInputData listmovemodelling) ini
  current := rfl
  best := rfl
  bestSol := rfl
  tracks := Incumbent.tracks_start env.queryGetObj ini

theorem Sound.strengthen (h : Sound env ini st) : Sound env ini (st.strengthen p) := by
  unfold Run.strengthen
  split_ifs
  · exact ⟨h.moves, h.prepared, h.current, h.best, h.bestSol, h.tracks⟩
  · exact h

theorem receive_eq (hbest : st.bestObjVal = st.currentobj) (newsol : Sol) :
    (st.moveTo env newsol).updateBest (env.queryGetObj newsol) =
      if env.queryGetObj newsol < st.currentobj then
        { st with
          currentSol := newsol
          currentobj := env.queryGetObj newsol
          moves := st.moves.signalChangeCurrentSolution newsol
          visited := st.visited ++ [newsol]
          bestObjVal := env.queryGetObj newsol
          bestSol := some newsol
          iterationsWithoutImprovement := 0 }
      else
        { st with
          visited := st.visited ++ [newsol]
          iterationsWithoutImprovement := st.iterationsWithoutImprovement + 1 } := by
  by_cases hlt : env.queryGetObj newsol < st.currentobj <;> simp [Run.updateBest, Run.moveTo, hlt, hbest]

theorem Sound.receive (h : Sound env ini st) (newsol : Sol) :
    Sound env ini ((st.moveTo env newsol).updateBest (env.queryGetObj newsol)) := by
  have htracks := Incumbent.tracks_offer h.tracks newsol
  rw [Incumbent.offer, show st.incumbent.bestVal = st.currentobj from h.best] at htracks
  rw [receive_eq h.best]
  split_ifs at htracks ⊢
  · exact ⟨h.moves.signalChangeCurrentSolution newsol, prepared_signal h.moves newsol, rfl, rfl, rfl, htracks⟩
  · rw [← h.best] at htracks
    exact ⟨h.moves, h.prepared, h.current, h.best, h.bestSol, htracks⟩

theorem iteration_next (h : iteration p env t st = .next st') :
    (st.strengthen p).strength < p.maxDisturbSize ∧
      ∃ moveindex newsol, getRandomMove st.moves (env.rand t) = some moveindex ∧
        disturb p env t (st.strengthen p) moveindex = some newsol ∧
        st' = ((st.strengthen p).moveTo env newsol).updateBest (env.queryGetObj newsol) := by
  unfold iteration at h
  split_ifs at h with hstrength
  refine ⟨Int.not_le.mp hstrength, ?_⟩
  cases hmove : getRandomMove st.moves (env.rand t) with
  | none => simp [hmove] at h
  | some moveindex =>
    cases hnew : disturb p env t (st.strengthen p) moveindex with
    | none => simp [hmove, hnew] at h
    | some newsol => exact ⟨moveindex, newsol, rfl, hnew, by simpa [hmove, hnew] using h.symm⟩

theorem Sound.next (h : Sound env ini st) (hnext : iteration p env t st = .next st') : Sound env ini st' := by
  obtain ⟨-, moveindex, newsol, -, -, rfl⟩ := iteration_next hnext
  exact h.strengthen.receive newsol

theorem loop_sound (n : ℕ) (h : Sound env ini st) (hloop : loop p env n st = some st') : Sound env ini st' := by
  induction n generalizing st with
  | zero => exact Option.some.inj hloop ▸ h
  | succ t ih =>
    rw [loop] at hloop
    cases hit : iteration p env t st with
    | crash => simp [hit] at hloop
    | stop =>
      rw [hit] at hloop
      exact Option.some.inj hloop ▸ h
    | next st₁ =>
      rw [hit] at hloop
      exact ih (h.next hit) hloop

-- the minimisation always finds a model
structure Environment.Answers (env : Environment Sol) : Prop where
  random : ∀ t limit s strength, env.minimizeRandomly t limit s strength ≠ []
  move : ∀ t limit s i de, env.minimizeFromMove t limit s i de ≠ []

theorem getRandomMove_cases {s : LargeNeighbourhoodSearch Sol} {rand moveindex : ℕ}
    (h : getRandomMove s rand = some moveindex) : moveindex = 1000 ∨ moveindex ∈ s.lEnabledMoves := by
  unfold getRandomMove at h
  dsimp only at h
  split_ifs at h
  · exact Or.inl (Option.some.inj h).symm
  · exact Or.inr (List.mem_of_getElem? h)

theorem getaRandomVar_ne_none {m : LNSMove Sol} {domain : List ElementTuple} (h : m.randomVariablesDomain = some domain)
    (hne : domain ≠ []) (rand : ℕ) : m.getaRandomVar rand ≠ none := by
  rw [LNSMove.getaRandomVar, h, Option.bind_some, ne_eq, List.getElem?_eq_none_iff, Nat.not_le]
  exact Nat.mod_lt _ (List.length_pos_of_ne_nil hne)

theorem disturb_ne_none (henv : env.Answers) (h : Sound env ini st) {rand moveindex : ℕ}
    (hmove : getRandomMove st.moves rand = some moveindex) : disturb p env t st moveindex ≠ none := by
  unfold disturb
  split_ifs with hrandom
  · rw [disturbSolutionRandomly, ne_eq, List.head?_eq_none_iff]
    exact henv.random _ _ _ _
  · have hmem := (getRandomMove_cases hmove).resolve_left hrandom
    obtain ⟨m, hm, -⟩ := (h.moves.enabled moveindex).mp hmem
    simp only [disturbFromMove, hm]
    cases hq : m.queryGetRandVarDomain with
    | none =>
      rw [ne_eq, List.head?_eq_none_iff]
      exact henv.move _ _ _ _ _
    | some query =>
      obtain ⟨hdomain, hne⟩ := h.prepared moveindex hmem m hm query hq
      obtain ⟨de, hde⟩ := Option.ne_none_iff_exists'.mp (getaRandomVar_ne_none hdomain hne (env.randVar t))
      simp only [hde, Option.bind_some, ne_eq, List.head?_eq_none_iff]
      exact henv.move _ _ _ _ _

theorem strengthen_moves (p : Parameters) (st : Run Sol) : (st.strengthen p).moves = st.moves := by
  unfold Run.strengthen
  split_ifs <;> rfl

theorem iteration_ne_crash (henv : env.Answers) (h : Sound env ini st) : iteration p env t st ≠ .crash := by
  unfold iteration
  split_ifs
  · simp
  · cases hmove : getRandomMove st.moves (env.rand t) with
    | none => simp
    | some moveindex =>
      obtain ⟨newsol, hnew⟩ := Option.ne_none_iff_exists'.mp
        (disturb_ne_none (p := p) henv (h.strengthen (p := p)) (t := t) (strengthen_moves p st ▸ hmove))
      simp [hnew]

theorem loop_ne_none (henv : env.Answers) (n : ℕ) (h : Sound env ini st) : loop p env n st ≠ none := by
  induction n generalizing st with
  | zero => simp [loop]
  | succ t ih =>
    rw [loop]
    cases hit : iteration p env t st with
    | crash => exact absurd hit (iteration_ne_crash henv h)
    | stop => simp
    | next st' => exact ih (h.next hit)

section Bound

variable (p env) (least : Int)

def step (t : ℕ) (st : Run Sol) : Option (Run Sol) :=
  match iteration p env t st with
  | .next st' => some st'
  | .crash | .stop => none

-- how many iterations can follow: an improvement allows maxItersNoImprove of them, and each unit of strength one
def Run.remaining (st : Run Sol) : ℕ :=
  (st.currentobj - least).toNat * p.maxItersNoImprove + (p.maxItersNoImprove - st.iterationsWithoutImprovement) +
    (p.maxDisturbSize - st.strength).toNat

variable {p env least}

theorem step_next (h : step p env t st = some st') : iteration p env t st = .next st' := by
  unfold step at h
  cases hit : iteration p env t st with
  | crash => simp [hit] at h
  | stop => simp [hit] at h
  | next st₁ => simpa [hit] using h

theorem strengthen_remaining (h : (st.strengthen p).strength < p.maxDisturbSize) :
    (st.strengthen p).currentobj = st.currentobj ∧
      (st.strengthen p).iterationsWithoutImprovement = st.iterationsWithoutImprovement ∧
      ((st.strengthen p).remaining p least < st.remaining p least ∨
        st.iterationsWithoutImprovement < p.maxItersNoImprove ∧ st.strengthen p = st) := by
  unfold Run.strengthen at h ⊢
  split_ifs at h ⊢ with hiters
  · refine ⟨rfl, rfl, Or.inl ?_⟩
    simp only [Run.remaining] at h ⊢
    omega
  · exact ⟨rfl, rfl, Or.inr ⟨Nat.not_le.mp hiters, rfl⟩⟩

theorem receive_remaining (hleast : ∀ s, least ≤ env.queryGetObj s) (h : Sound env ini st) (newsol : Sol) :
    ((st.moveTo env newsol).updateBest (env.queryGetObj newsol)).remaining p least ≤ st.remaining p least ∧
      (st.iterationsWithoutImprovement < p.maxItersNoImprove →
        ((st.moveTo env newsol).updateBest (env.queryGetObj newsol)).remaining p least < st.remaining p least) := by
  have hnew := hleast newsol
  rw [receive_eq h.best]
  split_ifs with hlt <;> simp only [Run.remaining]
  · -- one unit of the objective pays for all the iterations that may follow an improvement
    have hpay : ((env.queryGetObj newsol - least).toNat + 1) * p.maxItersNoImprove ≤
        (st.currentobj - least).toNat * p.maxItersNoImprove := Nat.mul_le_mul_right _ (by omega)
    rw [Nat.add_mul, Nat.one_mul] at hpay
    omega
  · omega

theorem step_remaining (hleast : ∀ s, least ≤ env.queryGetObj s) (h : Sound env ini st)
    (hstep : step p env t st = some st') : st'.remaining p least < st.remaining p least := by
  obtain ⟨hstrength, -, newsol, -, -, rfl⟩ := iteration_next (step_next hstep)
  obtain ⟨-, -, hless | ⟨hiters, heq⟩⟩ := @strengthen_remaining _ p st least hstrength
  · exact Nat.lt_of_le_of_lt (receive_remaining hleast h.strengthen newsol).1 hless
  · rw [heq]
    exact (receive_remaining hleast h newsol).2 hiters

theorem run_sound (clock : ℕ → ℕ) (h : Sound env ini st) {n : ℕ}
    (hrun : Descent.after (fun i => step p env (clock i)) st n = some st') : Sound env ini st' :=
  Descent.invariant (I := Sound env ini) h (fun _ _ _ hs hstep => hs.next (step_next hstep)) hrun

theorem run_remaining (clock : ℕ → ℕ) (hleast : ∀ s, least ≤ env.queryGetObj s) (h : Sound env ini st) {n : ℕ}
    (hrun : Descent.after (fun i => step p env (clock i)) st n = some st') :
    n + st'.remaining p least ≤ st.remaining p least := by
  induction n generalizing st' with
  | zero =>
    obtain rfl := Option.some.inj hrun
    omega
  | succ n ih =>
    obtain ⟨st₁, hst₁, hstep⟩ := Option.bind_eq_some_iff.mp hrun
    have hless := step_remaining hleast (run_sound clock h hst₁) hstep
    have := ih hst₁
    omega

end Bound

end Search

section Lowering

-- each disturbance finds the number below
def lowering : Environment ℕ where
  queryGetObj s := s
  rand t := t
  randVar t := t
  minimizeRandomly _ _ s _ := [s - 1]
  minimizeFromMove _ _ s _ _ := [s - 1]

theorem lowering_answers : lowering.Answers := ⟨by simp [lowering], by simp [lowering]⟩

def positive : RandVarDomain ℕ := fun s => if s = 0 then [] else [[.int s]]

end Lowering

-- without a time limit the search ends: every improvement pays for a bounded number of iterations
theorem iterations_bounded (p : Parameters) (env : Environment Sol) {least : Int}
    (hleast : ∀ s, least ≤ env.queryGetObj s) (listmovemodelling : List (Option (RandVarDomain Sol))) (ini : Sol)
    (clock : ℕ → ℕ) {n : ℕ} {st : Run Sol}
    (hrun : Descent.after (fun i => step p env (clock i)) (start p env listmovemodelling ini) n = some st) :
    n ≤ ((env.queryGetObj ini - least).toNat + 1) * p.maxItersNoImprove +
      (p.maxDisturbSize - p.minDisturbSize).toNat := by
  have hle := run_remaining clock hleast (sound_start listmovemodelling ini) hrun
  rw [Nat.add_mul, Nat.one_mul]
  exact (Nat.le_add_right n _).trans hle

theorem iterations_bounded_lowering :
    2 ≤ ((lowering.queryGetObj 2 - 0).toNat + 1) * parameters.maxItersNoImprove +
      (parameters.maxDisturbSize - parameters.minDisturbSize).toNat := by
  have hsome : (Descent.after (fun i => step parameters lowering (id i))
    (start parameters lowering [none, some positive] 2) 2).isSome := rfl
  obtain ⟨st, hst⟩ := Option.isSome_iff_exists.mp hsome
  exact iterations_bounded parameters lowering (by simp [lowering]) [none, some positive] 2 id hst

end LargeNeighbourhoodSearch

end LocalSearch
