import DeclarativeLocalSearch.Foundation.Window
import DeclarativeLocalSearch.LocalSearch.BestMove

namespace LocalSearch

open Structure

variable {Sol Next : Type} (obj : Sol → Int) (mm : MoveModelling Sol Next)

namespace TabuSearch

-- one pass of the loop of doSearch: what was scanned, the move that was executed and the tabu list after it
structure Iteration where
  choice : Choice
  moves : List ElementTuple
  move : ElementTuple
  tabuList : List ElementTuple

def iteration (tabuTenure t : ℕ) (tabuList : List ElementTuple) (st : Search Sol) : Option (Iteration × Search Sol) :=
  match mm.queryDeltaObj, mm.queryValidMoves t st.currentSol with
  | none, _ => none
  | _, [] => none
  | some delta, m :: moves =>
    let choice : Choice := ⟨delta t st.currentSol, obj st.currentSol, st.bestObjVal, tabuTenure, tabuList⟩
    match choice.bestMove (m :: moves) with
    | some ⟨_, some m', tabuList'⟩ =>
      (mm.getNeighborSolution t st.currentSol m').map fun newsol =>
        (⟨choice, m :: moves, m', tabuList'⟩, st.moveTo t m' newsol (obj newsol))
    | _ => none

def iterations (tabuTenure : ℕ) : ℕ → List ElementTuple → Search Sol → List Iteration × Search Sol
  | 0, _, st => ([], st)
  | t + 1, tabuList, st =>
    match iteration obj mm tabuTenure t tabuList st with
    | none => ([], st)
    | some (i, st') =>
      let rest := iterations tabuTenure t i.tabuList st'
      (i :: rest.1, rest.2)

def lastTabuList : List ElementTuple → List Iteration → List ElementTuple
  | tabuList, [] => tabuList
  | _, i :: its => lastTabuList i.tabuList its

theorem loop_iterations (tabuTenure n : ℕ) (tabuList : List ElementTuple) {st st' : Search Sol}
    (h : loop obj mm tabuTenure n tabuList st = some st') : st' = (iterations obj mm tabuTenure n tabuList st).2 := by
  induction n generalizing tabuList st with
  | zero => exact (Option.some.inj h).symm
  | succ t ih =>
    rw [loop] at h
    rw [iterations, iteration]
    cases hmoves : mm.queryValidMoves t st.currentSol with
    | nil =>
      rw [hmoves] at h
      cases mm.queryDeltaObj <;> exact (Option.some.inj h).symm
    | cons m moves =>
      rw [hmoves] at h
      dsimp only at h
      rw [getBestMove_eq] at h
      cases hdelta : mm.queryDeltaObj with
      | none =>
        rw [hdelta] at h
        cases h
      | some delta =>
        rw [hdelta, Option.bind_some] at h
        dsimp only
        generalize Choice.bestMove _ (m :: moves) = best at h ⊢
        rcases best with _ | ⟨_, _ | m', tabuList'⟩
        · cases h
        · cases h
        · dsimp only [Option.map_some] at h ⊢
          cases hnext : mm.getNeighborSolution t st.currentSol m' with
          | none =>
            rw [hnext] at h
            exact (Option.some.inj h).symm
          | some newsol =>
            rw [hnext] at h
            exact ih tabuList' h

namespace Iteration

variable (i : Iteration)

-- the executed move is the youngest of the list, and the oldest one is gone when the list was full
def Appended : Prop :=
  i.tabuList = (if i.choice.tabuTenure ≤ i.choice.tabuList.length then i.choice.tabuList.tail else i.choice.tabuList) ++
    [i.move]

-- the executed move was taken out of the list, as the oldest one
def Removed : Prop := i.choice.tabuList = i.move :: i.tabuList

def Undisturbed : Prop := ∀ m ∈ i.moves, ¬ i.choice.Aspirated m

def Found : Prop := ∃ m ∈ i.moves, ¬ i.choice.Tabu m ∧ i.choice.delta m < 100000

instance (i : Iteration) : Decidable i.Appended := inferInstanceAs (Decidable (_ = _))

instance (i : Iteration) : Decidable i.Removed := inferInstanceAs (Decidable (_ = _))

def Chosen : Prop := ∃ m, i.choice.bestMove i.moves = some ⟨m, some i.move, i.tabuList⟩

variable {i}

theorem Chosen.cases (h : i.Chosen) :
    (i.Removed ∧ ¬ (i.Undisturbed ∧ i.Found)) ∨
    (i.Undisturbed ∧ i.Found ∧ updateTabuList i.choice.tabuTenure i.choice.tabuList i.move = some i.tabuList) ∨
    ¬ i.Undisturbed ∧ ¬ i.choice.Tabu i.move ∧ i.tabuList = i.choice.tabuList := by
  obtain ⟨m, hm⟩ := h
  rw [Choice.bestMove, Choice.conclude] at hm
  split_ifs at hm with hsentinel hgood
  · refine Or.inl ⟨?_, ?_⟩
    · cases htl : i.choice.tabuList with
      | nil => rw [htl] at hm; cases hm
      | cons m' rest =>
        rw [htl] at hm
        obtain ⟨-, hmove, hrest⟩ := BestMove.mk.inj (Option.some.inj hm)
        rw [Removed, htl, Option.some.inj hmove, hrest]
    · rintro ⟨hfree, n, hn, hntabu, hlt⟩
      rcases @Choice.scan_free _ _ Choice.start hfree with ⟨-, hle⟩ | ⟨n', -, -, hlt', -, hscan⟩
      · exact absurd (hle n hn hntabu) (Int.not_le.mpr hlt)
      · rw [hscan] at hsentinel
        exact absurd hsentinel (Int.ne_of_lt hlt')
  · obtain ⟨tl, htl, heq⟩ := Option.map_eq_some_iff.mp hm
    obtain ⟨-, hsol, rfl⟩ := BestMove.mk.inj heq
    have hfree : i.Undisturbed := fun m' hm' hasp => by
      rw [Choice.scan_toogoodmove.mpr (Or.inr ⟨m', hm', hasp⟩)] at hgood
      exact absurd hgood.symm Bool.false_ne_true
    rcases @Choice.scan_free _ _ Choice.start hfree with ⟨hscan, -⟩ | ⟨n, hn, hntabu, hlt, -, hscan⟩
    · rw [hscan] at hsentinel
      exact absurd rfl hsentinel
    · rw [hscan] at htl hsol
      obtain rfl : n = i.move := Option.some.inj hsol
      exact Or.inr (Or.inl ⟨hfree, ⟨_, hn, hntabu, hlt⟩, htl⟩)
  · obtain ⟨-, hsol, htl⟩ := BestMove.mk.inj (Option.some.inj hm)
    refine Or.inr (Or.inr ⟨fun hfree => hgood ?_, @Choice.scan_solution _ _ Choice.start (fun _ h => by cases h) _ hsol,
      htl.symm⟩)
    refine eq_false_of_ne_true fun htrue => ?_
    obtain ⟨m', hm', hasp⟩ := (Choice.scan_toogoodmove.mp htrue).resolve_left Bool.false_ne_true
    exact hfree m' hm' hasp

theorem appended_of_update
    (h : updateTabuList i.choice.tabuTenure i.choice.tabuList i.move = some i.tabuList) : i.Appended := by
  unfold updateTabuList at h
  rw [Appended]
  split_ifs at h with hfull
  · rw [if_pos hfull]
    cases htl : i.choice.tabuList with
    | nil => rw [htl] at h; exact absurd h nofun
    | cons m rest =>
      rw [htl] at h
      exact (Option.some.inj h).symm
  · rw [if_neg hfull]
    exact (Option.some.inj h).symm

theorem not_removed_of_appended (h : i.Appended) : ¬ i.Removed := fun hremoved => by
  have hlength := congrArg List.length h
  rw [hremoved, List.length_append, List.length_singleton] at hlength
  split_ifs at hlength
  · rw [List.tail_cons] at hlength
    omega
  · rw [List.length_cons] at hlength
    omega

theorem Chosen.appended_iff (h : i.Chosen) : i.Appended ↔ i.Undisturbed ∧ i.Found := by
  rcases h.cases with ⟨hremoved, hnot⟩ | ⟨hfree, hfound, hupdate⟩ | ⟨hnot, hntabu, htl⟩
  · exact iff_of_false (fun happended => not_removed_of_appended happended hremoved) hnot
  · exact iff_of_true (appended_of_update hupdate) ⟨hfree, hfound⟩
  · refine iff_of_false (fun happended => hntabu ?_) fun h => hnot h.1
    have hmem : i.move ∈ i.tabuList := happended ▸ List.mem_append_right _ (List.mem_singleton_self _)
    exact Choice.tabu_of_mem (htl ▸ hmem)

def event (i : Iteration) : Window.Event ElementTuple := if i.Removed then .drop i.move else .push i.move

theorem event_element (i : Iteration) : i.event.element = i.move := by
  unfold event
  split_ifs <;> rfl

theorem Chosen.step (h : i.Chosen) (hfree : i.Undisturbed) :
    Window.Step i.choice.tabuTenure i.event i.choice.tabuList i.tabuList := by
  rcases h.cases with ⟨hremoved, -⟩ | ⟨-, -, hupdate⟩ | ⟨hnot, -⟩
  · rw [event, if_pos hremoved, hremoved]
    exact .drop
  · rw [event, if_neg (not_removed_of_appended (appended_of_update hupdate))]
    unfold updateTabuList at hupdate
    split_ifs at hupdate with hfull
    · cases htl : i.choice.tabuList with
      | nil => rw [htl] at hupdate; exact absurd hupdate nofun
      | cons m rest =>
        rw [htl] at hupdate hfull
        exact Option.some.inj hupdate ▸ .evict hfull
    · exact Option.some.inj hupdate ▸ .push (Nat.lt_of_not_le hfull)
  · exact absurd hfree hnot

theorem Chosen.length_le (h : i.Chosen) (hle : i.choice.tabuList.length ≤ i.choice.tabuTenure) :
    i.tabuList.length ≤ i.choice.tabuTenure := by
  rcases h.cases with ⟨hremoved, -⟩ | ⟨hfree, -⟩ | ⟨-, -, htl⟩
  · rw [hremoved] at hle
    exact Nat.le_of_succ_le hle
  · exact (h.step hfree).length_le hle
  · rwa [htl]

theorem Chosen.tenure (h : i.Chosen) (hempty : i.choice.tabuList = []) : i.choice.tabuTenure ≠ 0 := by
  rcases h.cases with ⟨hremoved, -⟩ | ⟨-, -, hupdate⟩ | ⟨hnot, -⟩
  · exact absurd (hempty.symm.trans hremoved) nofun
  · exact (Choice.updateTabuList_isSome (c := i.choice)).mp ⟨_, hupdate⟩ hempty
  · refine absurd (fun m _ hasp => ?_) hnot
    have htabu : getMoveFromTabuList i.choice.tabuList m = true := hasp.1
    rw [hempty] at htabu
    exact absurd htabu Bool.false_ne_true

end Iteration

-- the iterations follow each other
def Linked (tabuTenure : ℕ) : List ElementTuple → List Iteration → Prop
  | _, [] => True
  | tabuList, i :: its =>
    i.choice.tabuList = tabuList ∧ i.choice.tabuTenure = tabuTenure ∧ i.Chosen ∧ Linked tabuTenure i.tabuList its

section Linked

variable {tabuTenure : ℕ} {tabuList : List ElementTuple} {l its : List Iteration} {i : Iteration}

theorem lastTabuList_append (tabuList : List ElementTuple) (l its : List Iteration) :
    lastTabuList tabuList (l ++ its) = lastTabuList (lastTabuList tabuList l) its := by
  induction l generalizing tabuList with
  | nil => rfl
  | cons i l ih => exact ih _

theorem linked_append : Linked tabuTenure tabuList (l ++ its) ↔
    Linked tabuTenure tabuList l ∧ Linked tabuTenure (lastTabuList tabuList l) its := by
  induction l generalizing tabuList with
  | nil => exact (and_iff_right trivial).symm
  | cons i l ih =>
    rw [List.cons_append, Linked, ih, Linked, lastTabuList, and_assoc, and_assoc, and_assoc]

theorem Linked.length_le (h : Linked tabuTenure tabuList its) (hle : tabuList.length ≤ tabuTenure) :
    (lastTabuList tabuList its).length ≤ tabuTenure := by
  induction its generalizing tabuList with
  | nil => exact hle
  | cons i its ih =>
    obtain ⟨rfl, rfl, hchosen, hlinked⟩ := h
    exact ih hlinked (hchosen.length_le hle)

theorem Linked.run (h : Linked tabuTenure tabuList its) (hfree : ∀ i ∈ its, i.Undisturbed) :
    Window.Run tabuTenure (its.map Iteration.event) tabuList (lastTabuList tabuList its) := by
  induction its generalizing tabuList with
  | nil => exact .nil
  | cons i its ih =>
    obtain ⟨rfl, rfl, hchosen, hlinked⟩ := h
    obtain ⟨hi, hits⟩ := List.forall_mem_cons.mp hfree
    exact .cons (hchosen.step hi) (ih hlinked hits)

theorem Linked.chosen (h : Linked tabuTenure tabuList its) : ∀ i ∈ its, i.Chosen := by
  induction its generalizing tabuList with
  | nil => exact fun i hi => absurd hi List.not_mem_nil
  | cons i its ih => exact List.forall_mem_cons.mpr ⟨h.2.2.1, ih h.2.2.2⟩

theorem Linked.recent (h : Linked tabuTenure tabuList (l ++ i :: its)) (hfree : ∀ j ∈ i :: its, j.Undisturbed)
    (hlt : its.length < tabuTenure) :
    getMoveFromTabuList (lastTabuList tabuList (l ++ i :: its)) i.move = true ∨
      ∃ j ∈ i :: its, j.Removed ∧ j.move = i.move := by
  have hrun := (linked_append.mp h).2.run hfree
  rw [lastTabuList_append]
  refine (@Window.Run.recent _ _ _ [] _ _ _ hrun (by rwa [List.length_map])).imp (fun hmem => ?_) fun hmem => ?_
  · rw [Iteration.event_element] at hmem
    exact List.any_eq_true.mpr ⟨_, hmem, Choice.movesAreEqual_self _⟩
  · rw [← List.map_cons, Iteration.event_element] at hmem
    obtain ⟨j, hj, hevent⟩ := List.mem_map.mp hmem
    unfold Iteration.event at hevent
    split_ifs at hevent with hremoved
    exact ⟨j, hj, hremoved, Window.Event.drop.inj hevent⟩

end Linked

theorem iteration_chosen {tabuTenure t : ℕ} {tabuList : List ElementTuple} {st st' : Search Sol} {i : Iteration}
    (h : iteration obj mm tabuTenure t tabuList st = some (i, st')) :
    i.choice.tabuList = tabuList ∧ i.choice.tabuTenure = tabuTenure ∧ i.Chosen := by
  unfold iteration at h
  split at h
  · cases h
  · cases h
  · dsimp only at h
    split at h
    · rename_i hbest
      obtain ⟨newsol, -, heq⟩ := Option.map_eq_some_iff.mp h
      obtain ⟨rfl, -⟩ := Prod.mk.inj heq
      exact ⟨rfl, rfl, _, hbest⟩
    · cases h

theorem iterations_linked (tabuTenure n : ℕ) (tabuList : List ElementTuple) (st : Search Sol) :
    Linked tabuTenure tabuList (iterations obj mm tabuTenure n tabuList st).1 := by
  induction n generalizing tabuList st with
  | zero => trivial
  | succ t ih =>
    rw [iterations]
    cases h : iteration obj mm tabuTenure t tabuList st with
    | none => trivial
    | some x =>
      obtain ⟨hlist, htenure, hchosen⟩ := iteration_chosen obj mm h
      exact ⟨hlist, htenure, hchosen, ih _ _⟩

def firstIterations (tabuTenure limit n : ℕ) (ini : Sol) : List Iteration :=
  (iterations obj mm tabuTenure limit [] (Search.doSearch obj ini)).1.take n

-- the tabu list is a window of the moves, as long as no scan meets an aspirated move
theorem iterations_window (tabuTenure limit n : ℕ) (ini : Sol) :
    (lastTabuList [] (firstIterations obj mm tabuTenure limit n ini)).length ≤ tabuTenure ∧
      (tabuTenure = 0 → firstIterations obj mm tabuTenure limit n ini = []) ∧
      (∀ i ∈ firstIterations obj mm tabuTenure limit n ini, i.Appended ↔ i.Undisturbed ∧ i.Found) ∧
      ∀ l i l', firstIterations obj mm tabuTenure limit n ini = l ++ i :: l' → l'.length < tabuTenure →
        (∀ j ∈ i :: l', j.Undisturbed) →
        getMoveFromTabuList (lastTabuList [] (firstIterations obj mm tabuTenure limit n ini)) i.move = true ∨
          ∃ j ∈ i :: l', j.Removed ∧ j.move = i.move := by
  generalize hits : firstIterations obj mm tabuTenure limit n ini = its
  have hlinked : Linked tabuTenure [] its := by
    rw [← hits, firstIterations]
    refine (@linked_append _ _ _ ((iterations obj mm tabuTenure limit [] (Search.doSearch obj ini)).1.drop n)).mp ?_ |>.1
    rw [List.take_append_drop]
    exact iterations_linked obj mm tabuTenure limit [] (Search.doSearch obj ini)
  clear hits
  refine ⟨hlinked.length_le (Nat.zero_le _), fun hzero => ?_, fun i hi => (hlinked.chosen i hi).appended_iff, ?_⟩
  · cases its with
    | nil => rfl
    | cons i its =>
      obtain ⟨hlist, htenure, hchosen, -⟩ := hlinked
      exact absurd (htenure.trans hzero) (hchosen.tenure hlist)
  · rintro l i l' rfl hlt hfree
    exact hlinked.recent hfree hlt

-- the solutions are numbers, the higher the better, and a move adds one or two to them
def steps : MoveModelling ℕ ℕ where
  queryValidMoves _ s := if s = 0 then [[.int 1]] else [[.int 1], [.int 2]]
  queryDeltaObj := some fun _ _ m => if m = [.int 1] then -1 else -2
  theoNext _ s m := some (if m = [.int 1] then s + 1 else s + 2)
  queryGetNextCost _ s := -s
  getNeighborSolutionWithoutMX _ s := some s

def below (s : ℕ) : Int := -s

-- the second move is executed, is not tabu and does not become tabu
theorem iterations_notAppended : ¬ ∀ (obj : ℕ → Int) (mm : MoveModelling ℕ ℕ) (tabuTenure limit : ℕ) (ini : ℕ),
    ∀ i ∈ (iterations obj mm tabuTenure limit [] (Search.doSearch obj ini)).1,
      ¬ i.choice.Aspirated i.move → ¬ i.Removed → i.Appended := by
  intro h
  exact absurd (h below steps 15 2 0) (by decide +kernel)

end TabuSearch

end LocalSearch
