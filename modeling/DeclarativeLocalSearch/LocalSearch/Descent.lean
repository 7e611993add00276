import DeclarativeLocalSearch.LocalSearch.MoveModelling
import DeclarativeLocalSearch.Foundation.Descent

namespace LocalSearch

open Structure

variable {Sol Next : Type} (obj : Sol → Int) (mm : MoveModelling Sol Next)

namespace FirstImprovementSearch

abbrev Config (Sol : Type) := Option (List ElementTuple) × Search Sol

-- one attempt of the loop, without the test of the time limit
def step (t : ℕ) : Config Sol → Option (Config Sol)
  | (pending, st) =>
    match pending.getD (mm.queryValidMoves t st.currentSol) with
    | [] => none
    | m :: moves =>
      match tryMove obj mm t st m with
      | .crash | .stop => none
      | .reject => some (some moves, st)
      | .accept newsol newobj => some (none, st.moveTo t m newsol newobj)

def start (ini : Sol) : Config Sol := (none, Search.doSearch obj ini)

theorem loop_step {t : ℕ} {c c' : Config Sol} (h : step obj mm t c = some c') :
    loop obj mm (t + 1) c.1 c.2 = loop obj mm t c'.1 c'.2 := by
  obtain ⟨pending, st⟩ := c
  unfold step at h
  rw [loop]
  cases hp : pending.getD (mm.queryValidMoves t st.currentSol) with
  | nil => simp [hp] at h
  | cons m moves =>
    simp only [hp] at h ⊢
    cases ha : tryMove obj mm t st m <;> simp only [ha, reduceCtorEq, Option.some.injEq] at h ⊢
    · rw [← h]
    · rw [← h]

theorem loop_end {t : ℕ} {c : Config Sol} (h : step obj mm t c = none) :
    loop obj mm (t + 1) c.1 c.2 = some c.2 ∨ loop obj mm (t + 1) c.1 c.2 = none := by
  obtain ⟨pending, st⟩ := c
  unfold step at h
  rw [loop]
  cases hp : pending.getD (mm.queryValidMoves t st.currentSol) with
  | nil => exact Or.inl rfl
  | cons m moves =>
    simp only [hp] at h ⊢
    cases ha : tryMove obj mm t st m <;> simp [ha] at h ⊢

theorem loop_run {n : ℕ} {c : Config Sol} {st : Search Sol} (h : loop obj mm n c.1 c.2 = some st) :
    ∃ k ≤ n, ∃ c', Descent.after (fun i => step obj mm (n - 1 - i)) c k = some c' ∧ c'.2 = st :=
  Descent.exists_after_of_loop (fun n c => loop obj mm n c.1 c.2) Prod.snd (fun _ => rfl)
    (fun _ _ _ => loop_step obj mm) (fun _ _ => loop_end obj mm) h

-- a step that accepts a move is an iteration of the outer loop that does not end the search
def Lowers (t : ℕ) (c : Config Sol) : Prop :=
  ∀ st', step obj mm t c = some (none, st') → obj st'.currentSol < obj c.2.currentSol

-- without a query for the delta, a move whose next cost is below the objective that is kept leads to a solution
-- that is better than the current one
def Trusted (t : ℕ) (c : Config Sol) : Prop :=
  mm.queryDeltaObj = none → ∀ m moves nextsol newsol,
    c.1.getD (mm.queryValidMoves t c.2.currentSol) = m :: moves → mm.theoNext t c.2.currentSol m = some nextsol →
    mm.queryGetNextCost t nextsol < c.2.currentobj → mm.getNeighborSolutionWithoutMX t nextsol = some newsol →
    obj newsol < obj c.2.currentSol

-- with a query for the delta, the objective of an accepted solution is read from that solution
def Kept (c : Config Sol) : Prop := mm.queryDeltaObj ≠ none → c.2.currentobj = obj c.2.currentSol

variable {obj mm} {t : ℕ} {pending : Option (List ElementTuple)} {st : Search Sol} {c c' : Config Sol}

theorem step_cases (h : step obj mm t (pending, st) = some c') :
    ∃ m moves, pending.getD (mm.queryValidMoves t st.currentSol) = m :: moves ∧
      (c' = (some moves, st) ∨ ∃ newsol newobj, tryMove obj mm t st m = .accept newsol newobj ∧
        c' = (none, st.moveTo t m newsol newobj)) := by
  unfold step at h
  cases hp : pending.getD (mm.queryValidMoves t st.currentSol) with
  | nil => simp [hp] at h
  | cons m moves =>
    refine ⟨m, moves, rfl, ?_⟩
    simp only [hp] at h
    cases ha : tryMove obj mm t st m with
    | crash => simp [ha] at h
    | stop => simp [ha] at h
    | reject => exact Or.inl (by simpa [ha] using h.symm)
    | accept newsol newobj => exact Or.inr ⟨newsol, newobj, rfl, by simpa [ha] using h.symm⟩

theorem step_accept {m : ElementTuple} {moves : List ElementTuple} {newsol : Sol} {newobj : Int}
    (hp : pending.getD (mm.queryValidMoves t st.currentSol) = m :: moves)
    (ha : tryMove obj mm t st m = .accept newsol newobj) :
    step obj mm t (pending, st) = some (none, st.moveTo t m newsol newobj) := by
  simp only [step, hp, ha]

theorem tryMove_accept_iff {m : ElementTuple} {newsol : Sol} {newobj : Int} :
    tryMove obj mm t st m = .accept newsol newobj ↔ newobj < st.currentobj ∧
      ((∃ delta, mm.queryDeltaObj = some delta ∧ mm.getNeighborSolution t st.currentSol m = some newsol ∧
        delta t st.currentSol m < 0 ∧ newobj = obj newsol) ∨
      mm.queryDeltaObj = none ∧ ∃ nextsol, mm.theoNext t st.currentSol m = some nextsol ∧
        newobj = mm.queryGetNextCost t nextsol ∧ mm.getNeighborSolutionWithoutMX t nextsol = some newsol) := by
  unfold tryMove
  cases hq : mm.queryDeltaObj with
  | some delta =>
    cases hn : mm.getNeighborSolution t st.currentSol m with
    | none => simp
    | some s =>
      dsimp only
      split_ifs with hlt
      · simp only [Attempt.accept.injEq, Option.some.injEq]
        constructor
        · rintro ⟨rfl, rfl⟩
          exact ⟨hlt.2, Or.inl ⟨delta, rfl, rfl, hlt.1, rfl⟩⟩
        · rintro ⟨-, ⟨_, -, rfl, -, rfl⟩ | ⟨hnone, -⟩⟩
          · exact ⟨rfl, rfl⟩
          · cases hnone
      · refine iff_of_false nofun ?_
        rintro ⟨hobj, ⟨_, hd, hs, hdelta, rfl⟩ | ⟨hnone, -⟩⟩
        · obtain rfl := Option.some.inj hd
          obtain rfl := Option.some.inj hs
          exact hlt ⟨hdelta, hobj⟩
        · cases hnone
  | none =>
    cases hx : mm.theoNext t st.currentSol m with
    | none => simp
    | some nextsol =>
      dsimp only
      split_ifs with hlt
      · cases hn : mm.getNeighborSolutionWithoutMX t nextsol with
        | none => simp [hn]
        | some s =>
          simp only [Attempt.accept.injEq]
          constructor
          · rintro ⟨rfl, rfl⟩
            exact ⟨by omega, Or.inr ⟨trivial, nextsol, rfl, rfl, hn⟩⟩
          · rintro ⟨-, ⟨_, hd, -⟩ | ⟨-, nextsol', hnext, rfl, hs⟩⟩
            · cases hd
            · obtain rfl := Option.some.inj hnext
              exact ⟨Option.some.inj (hn.symm.trans hs), rfl⟩
      · refine iff_of_false nofun ?_
        rintro ⟨hobj, ⟨_, hd, -⟩ | ⟨-, nextsol', hnext, rfl, -⟩⟩
        · cases hd
        · obtain rfl := Option.some.inj hnext
          omega

theorem step_kept (hc : Kept obj mm c) (h : step obj mm t c = some c') : Kept obj mm c' := by
  obtain ⟨m, moves, -, rfl | ⟨newsol, newobj, ha, rfl⟩⟩ := @step_cases _ _ _ _ _ c.1 c.2 _ h
  · exact hc
  · intro hq
    rcases (tryMove_accept_iff.mp ha).2 with ⟨_, -, -, -, hobj⟩ | ⟨hnone, -⟩
    · exact hobj
    · exact absurd hnone hq

theorem lowers_iff (hc : Kept obj mm c) : Lowers obj mm t c ↔ Trusted obj mm t c := by
  constructor
  · intro hlowers hq m moves nextsol newsol hp hnext hcost hsol
    have ha : tryMove obj mm t c.2 m = .accept newsol (mm.queryGetNextCost t nextsol) :=
      tryMove_accept_iff.mpr ⟨hcost, Or.inr ⟨hq, nextsol, hnext, rfl, hsol⟩⟩
    exact hlowers _ (step_accept hp ha)
  · intro htrusted st' h
    obtain ⟨m, moves, hp, heq | ⟨newsol, newobj, ha, heq⟩⟩ := @step_cases _ _ _ _ _ c.1 c.2 _ h
    · cases heq
    · obtain rfl := (Prod.mk.inj heq).2
      obtain ⟨hlt, ⟨_, hq, -, -, rfl⟩ | ⟨hq, nextsol, hnext, rfl, hsol⟩⟩ := tryMove_accept_iff.mp ha
      · rw [hc (by simp [hq])] at hlt
        exact hlt
      · exact htrusted hq m moves nextsol newsol hp hnext hlt hsol

section Run

variable (obj mm) (clock : ℕ → ℕ) (ini : Sol)

-- the search without a time limit; the n-th reading of the clock is clock n
def run : ℕ → Option (Config Sol) := Descent.after (fun n => step obj mm (clock n)) (start obj ini)

def Terminates : Prop := Descent.Ends (fun n => step obj mm (clock n)) (start obj ini)

def Reached (n : ℕ) (c : Config Sol) : Prop := run obj mm clock ini n = some c

variable {obj mm clock ini}

theorem Reached.kept {n : ℕ} (h : Reached obj mm clock ini n c) : Kept obj mm c :=
  Descent.invariant (I := Kept obj mm) (fun _ => rfl) (fun _ _ _ => step_kept) h

theorem terminates_of_accepts {ρ : Type} {r : ρ → ρ → Prop} (hr : WellFounded r) (f : Search Sol → ρ)
    (h : ∀ n c st', Reached obj mm clock ini n c → step obj mm (clock n) c = some (none, st') → r (f st') (f c.2)) :
    Terminates obj mm clock ini := by
  have hwf : WellFounded (Prod.Lex r fun a b : WithTop ℕ => a < b) :=
    (Prod.lex ⟨r, hr⟩ ⟨_, wellFounded_lt (α := WithTop ℕ)⟩).wf
  refine Descent.ends_of_decreasing hwf (fun c => (f c.2, c.1.elim ⊤ fun moves => (moves.length : ℕ))) ?_
  intro n c c' hc hstep
  obtain ⟨m, moves, hp, rfl | ⟨newsol, newobj, -, rfl⟩⟩ := @step_cases _ _ _ _ _ c.1 c.2 _ hstep
  · refine Prod.Lex.right _ ?_
    cases hpending : c.1 with
    | none => exact WithTop.coe_lt_top _
    | some l =>
      obtain rfl : l = m :: moves := by simpa [hpending] using hp
      exact WithTop.coe_lt_coe.mpr (Nat.lt_succ_self _)
  · exact Prod.Lex.left _ _ (h n c _ hc hstep)

theorem terminates_of_lowers [Finite Sol] (h : ∀ n c, Reached obj mm clock ini n c → Lowers obj mm (clock n) c) :
    Terminates obj mm clock ini :=
  terminates_of_accepts (Descent.wellFounded_value obj) Search.currentSol fun n c st' hc => h n c hc st'

-- the moves that are left are valid moves of some solution
def Valid (t : ℕ) (c : Config Sol) : Prop := ∀ moves, c.1 = some moves → ∀ m ∈ moves, ∃ s, m ∈ mm.queryValidMoves t s

theorem mem_valid {t : ℕ} {m : ElementTuple} (hc : @Valid _ _ mm t c)
    (hm : m ∈ c.1.getD (mm.queryValidMoves t c.2.currentSol)) : ∃ s, m ∈ mm.queryValidMoves t s := by
  cases hpending : c.1 with
  | none => exact ⟨c.2.currentSol, by simpa [hpending] using hm⟩
  | some moves => exact hc moves hpending m (by simpa [hpending] using hm)

theorem step_valid {t : ℕ} (hc : @Valid _ _ mm t c) (h : step obj mm t c = some c') : @Valid _ _ mm t c' := by
  obtain ⟨m, moves, hp, rfl | ⟨newsol, newobj, -, rfl⟩⟩ := @step_cases _ _ _ _ _ c.1 c.2 _ h
  · intro moves' heq m' hm'
    obtain rfl := Option.some.inj heq
    exact mem_valid hc (hp ▸ List.mem_cons_of_mem m hm')
  · exact nofun

theorem exists_least [Finite Sol] (t : ℕ) : ∃ k : Int, (∀ s, k ≤ obj s) ∧ ∀ s s' m nextsol,
    m ∈ mm.queryValidMoves t s' → mm.theoNext t s m = some nextsol → k ≤ mm.queryGetNextCost t nextsol := by
  have hcosts : (⋃ s, ⋃ s', {x | x ∈ (mm.queryValidMoves t s').filterMap fun m =>
      (mm.theoNext t s m).map (mm.queryGetNextCost t)}).Finite :=
    Set.finite_iUnion fun s => Set.finite_iUnion fun s' => List.finite_toSet _
  obtain ⟨k, hk⟩ := ((Set.finite_range obj).union hcosts).bddBelow
  refine ⟨k, fun s => hk (Or.inl ⟨s, rfl⟩), fun s s' m nextsol hm hnext => hk (Or.inr ?_)⟩
  refine Set.mem_iUnion.mpr ⟨s, Set.mem_iUnion.mpr ⟨s', List.mem_filterMap.mpr ⟨m, hm, ?_⟩⟩⟩
  rw [hnext, Option.map_some]

theorem terminates_fixed [Finite Sol] {t : ℕ} (hclock : ∀ n, clock n = t) : Terminates obj mm clock ini := by
  obtain ⟨k, hobj, hcost⟩ := @exists_least _ _ obj mm _ t
  have hwf : WellFounded fun a b : Int => k ≤ a ∧ a < b :=
    Subrelation.wf (r := InvImage (· < ·) fun a : Int => (a - k).toNat) (fun h => by
      rw [InvImage]
      omega) (InvImage.wf _ Nat.lt_wfRel.wf)
  refine terminates_of_accepts hwf Search.currentobj fun n c st' hc hstep => ?_
  have hvalid : @Valid _ _ mm t c := by
    refine Descent.invariant (I := @Valid _ _ mm t) (by exact nofun) (fun n a b ha hab => ?_) hc
    rw [hclock] at hab
    exact step_valid ha hab
  obtain ⟨m, moves, hp, heq | ⟨newsol, newobj, ha, heq⟩⟩ := @step_cases _ _ _ _ _ c.1 c.2 _ hstep
  · cases heq
  · obtain rfl := (Prod.mk.inj heq).2
    obtain ⟨hlt, ⟨_, -, -, -, rfl⟩ | ⟨-, nextsol, hnext, rfl, -⟩⟩ := tryMove_accept_iff.mp ha
    · exact ⟨hobj newsol, hlt⟩
    · refine ⟨?_, hlt⟩
      rw [hclock] at hp hnext ⊢
      obtain ⟨s, hs⟩ := mem_valid hvalid (m := m) (hp ▸ List.mem_cons_self)
      exact hcost _ s m nextsol hs hnext

end Run

end FirstImprovementSearch

namespace BestImprovementSearch

-- one iteration of the loop, without the test of the time limit
def step (t : ℕ) (st : Search Sol) : Option (Search Sol) :=
  match scan mm t st with
  | none => none
  | some ⟨bestimprove, bestMove⟩ =>
    if bestimprove < 0 then
      bestMove.bind fun m => (mm.getNeighborSolution t st.currentSol m).map fun newsol =>
        st.moveTo t m newsol (st.currentobj + bestimprove)
    else none

theorem loop_step {t : ℕ} {st st' : Search Sol} (h : step mm t st = some st') :
    loop mm (t + 1) st = loop mm t st' := by
  unfold step at h
  rw [loop]
  split at h
  · cases h
  · rename_i bestimprove bestMove hscan
    split_ifs at h with hlt
    obtain ⟨m, rfl, h⟩ := Option.bind_eq_some_iff.mp h
    obtain ⟨newsol, hnew, rfl⟩ := Option.map_eq_some_iff.mp h
    simp only [hscan, hlt, if_true, hnew]

theorem loop_end {t : ℕ} {st : Search Sol} (h : step mm t st = none) :
    loop mm (t + 1) st = some st ∨ loop mm (t + 1) st = none := by
  unfold step at h
  rw [loop]
  cases hscan : scan mm t st with
  | none => exact Or.inr rfl
  | some acc =>
    obtain ⟨bestimprove, bestMove⟩ := acc
    simp only [hscan] at h
    dsimp only
    split_ifs at h ⊢ with hlt
    · cases bestMove with
      | none => exact Or.inr rfl
      | some m =>
        have hnew : mm.getNeighborSolution t st.currentSol m = none := by simpa using h
        exact Or.inl (by simp [hnew])
    · exact Or.inl rfl

theorem loop_run {n : ℕ} {st st' : Search Sol} (h : loop mm n st = some st') :
    ∃ k ≤ n, ∃ a, Descent.after (fun i => step mm (n - 1 - i)) st k = some a ∧ a = st' :=
  Descent.exists_after_of_loop (loop mm) id (fun _ => rfl) (fun _ _ _ => loop_step mm)
    (fun _ _ => loop_end mm) h

-- m is the first of the moves whose delta is least
def FirstLeast (delta : ElementTuple → Int) (moves : List ElementTuple) (m : ElementTuple) : Prop :=
  ∃ l l', moves = l ++ m :: l' ∧ (∀ n ∈ l, delta m < delta n) ∧ ∀ n ∈ l', delta m ≤ delta n

def Lowers (t : ℕ) (st : Search Sol) : Prop :=
  ∀ st', step mm t st = some st' → obj st'.currentSol < obj st.currentSol

-- the first move of the least delta, if that is negative, leads to a solution that is better than the current one
def Trusted (t : ℕ) (st : Search Sol) : Prop :=
  ∀ delta m newsol, mm.queryDeltaObj = some delta →
    FirstLeast (delta t st.currentSol) (mm.queryValidMoves t st.currentSol) m → delta t st.currentSol m < 0 →
    mm.getNeighborSolution t st.currentSol m = some newsol → obj newsol < obj st.currentSol

section Scan

variable {delta : ElementTuple → Int} {moves : List ElementTuple} {acc : Scan} {m : ElementTuple}

theorem FirstLeast.cons {a : ElementTuple} (h : FirstLeast delta moves m) (hlt : delta m < delta a) :
    FirstLeast delta (a :: moves) m := by
  obtain ⟨l, l', rfl, hl, hl'⟩ := h
  exact ⟨a :: l, l', rfl, List.forall_mem_cons.mpr ⟨hlt, hl⟩, hl'⟩

theorem foldl_scanMove_cases : (moves.foldl (scanMove delta) acc = acc ∧ ∀ n ∈ moves, acc.bestimprove ≤ delta n) ∨
    ∃ m, FirstLeast delta moves m ∧ delta m < acc.bestimprove ∧
      moves.foldl (scanMove delta) acc = ⟨delta m, some m⟩ := by
  induction moves generalizing acc with
  | nil => exact Or.inl ⟨rfl, fun n hn => absurd hn List.not_mem_nil⟩
  | cons a moves ih =>
    rw [List.foldl_cons, scanMove]
    split_ifs with hlt
    · refine Or.inr ?_
      rcases @ih ⟨delta a, some a⟩ with ⟨hacc, hle⟩ | ⟨m, hm, hlt', hacc⟩
      · exact ⟨a, ⟨[], moves, rfl, fun n hn => absurd hn List.not_mem_nil, hle⟩, hlt, hacc⟩
      · exact ⟨m, hm.cons hlt', Int.lt_trans hlt' hlt, hacc⟩
    · refine (@ih acc).imp (fun hacc => ⟨hacc.1, ?_⟩) ?_
      · exact List.forall_mem_cons.mpr ⟨Int.not_lt.mp hlt, hacc.2⟩
      · rintro ⟨m, hm, hlt', hacc⟩
        exact ⟨m, hm.cons (by omega), hlt', hacc⟩

theorem foldl_scanMove_keeps (h : ∀ n ∈ moves, acc.bestimprove ≤ delta n) :
    moves.foldl (scanMove delta) acc = acc := by
  refine foldl_scanMove_cases.elim And.left ?_
  rintro ⟨m, ⟨l, l', rfl, -⟩, hlt, -⟩
  exact absurd (h m (by simp)) (Int.not_le.mpr hlt)

theorem lt_foldl_scanMove {x : Int} (h : ∀ n ∈ moves, x < delta n) (hx : x < acc.bestimprove) :
    x < (moves.foldl (scanMove delta) acc).bestimprove := by
  rcases @foldl_scanMove_cases delta moves acc with ⟨hacc, -⟩ | ⟨m, ⟨l, l', rfl, -⟩, -, hacc⟩
  · rwa [hacc]
  · rw [hacc]
    exact h m (by simp)

theorem foldl_scanMove_firstLeast (h : FirstLeast delta moves m) (hlt : delta m < acc.bestimprove) :
    moves.foldl (scanMove delta) acc = ⟨delta m, some m⟩ := by
  obtain ⟨l, l', rfl, hl, hl'⟩ := h
  rw [List.foldl_append, List.foldl_cons, scanMove, if_pos (lt_foldl_scanMove hl hlt)]
  exact foldl_scanMove_keeps hl'

end Scan

variable {obj mm} {t : ℕ} {st st' : Search Sol}

theorem step_iff : step mm t st = some st' ↔
    ∃ delta m newsol, mm.queryDeltaObj = some delta ∧
      FirstLeast (delta t st.currentSol) (mm.queryValidMoves t st.currentSol) m ∧ delta t st.currentSol m < 0 ∧
      mm.getNeighborSolution t st.currentSol m = some newsol ∧
      st' = st.moveTo t m newsol (st.currentobj + delta t st.currentSol m) := by
  have hscan : ∀ (delta : ℕ → Sol → ElementTuple → Int), mm.queryDeltaObj = some delta → scan mm t st =
      some ((mm.queryValidMoves t st.currentSol).foldl (scanMove (delta t st.currentSol)) ⟨100000, none⟩) := by
    intro delta hq
    unfold scan
    rw [hq]
    cases mm.queryValidMoves t st.currentSol <;> rfl
  constructor
  · intro h
    cases hq : mm.queryDeltaObj with
    | none =>
      unfold step scan at h
      rw [hq] at h
      cases hmoves : mm.queryValidMoves t st.currentSol <;> simp [hmoves] at h
    | some delta =>
      rw [step, hscan delta hq] at h
      rcases @foldl_scanMove_cases (delta t st.currentSol) (mm.queryValidMoves t st.currentSol)
        ⟨100000, none⟩ with ⟨hacc, -⟩ | ⟨m, hm, -, hacc⟩
      · simp [hacc] at h
      · rw [hacc] at h
        dsimp only at h
        split_ifs at h with hneg
        obtain ⟨newsol, hnew, rfl⟩ := Option.map_eq_some_iff.mp (by simpa using h)
        exact ⟨delta, m, newsol, rfl, hm, hneg, hnew, rfl⟩
  · rintro ⟨delta, m, newsol, hq, hm, hneg, hnew, rfl⟩
    have hlt : delta t st.currentSol m < 100000 := by omega
    rw [step, hscan delta hq, foldl_scanMove_firstLeast hm hlt]
    simp [hneg, hnew]

theorem lowers_iff : Lowers obj mm t st ↔ Trusted obj mm t st := by
  constructor
  · intro hlowers delta m newsol hq hm hneg hnew
    exact hlowers _ (step_iff.mpr ⟨delta, m, newsol, hq, hm, hneg, hnew, rfl⟩)
  · intro htrusted st' h
    obtain ⟨delta, m, newsol, hq, hm, hneg, hnew, rfl⟩ := step_iff.mp h
    exact htrusted delta m newsol hq hm hneg hnew

section Run

variable (obj mm) (clock : ℕ → ℕ) (ini : Sol)

def run : ℕ → Option (Search Sol) := Descent.after (fun n => step mm (clock n)) (Search.doSearch obj ini)

def Terminates : Prop := Descent.Ends (fun n => step mm (clock n)) (Search.doSearch obj ini)

def Reached (n : ℕ) (st : Search Sol) : Prop := run obj mm clock ini n = some st

variable {obj mm clock ini}

theorem terminates_of_lowers [Finite Sol] (h : ∀ n st, Reached obj mm clock ini n st → Lowers obj mm (clock n) st) :
    Terminates obj mm clock ini :=
  Descent.ends_of_decreasing (Descent.wellFounded_value obj) Search.currentSol fun n st st' hst => h n st hst st'

end Run

end BestImprovementSearch

section Descends

variable (clock : ℕ → ℕ) (ini : Sol)

def FirstDescends : Prop :=
  FirstImprovementSearch.Terminates obj mm clock ini ∧ ∀ n c, FirstImprovementSearch.Reached obj mm clock ini n c →
    FirstImprovementSearch.Lowers obj mm (clock n) c

def BestDescends : Prop :=
  BestImprovementSearch.Terminates obj mm clock ini ∧ ∀ n st, BestImprovementSearch.Reached obj mm clock ini n st →
    BestImprovementSearch.Lowers obj mm (clock n) st

end Descends

-- one solution, and a move that is said to improve it by one
def endless : MoveModelling Unit Unit where
  queryValidMoves _ _ := [[]]
  queryDeltaObj := some fun _ _ _ => -1
  theoNext _ s _ := some s
  queryGetNextCost _ _ := 0
  getNeighborSolutionWithoutMX _ s := some s

end LocalSearch
