import DeclarativeLocalSearch.LocalSearch.MoveModelling

namespace LocalSearch

open Structure

variable {Sol Next : Type}

namespace TabuSearch

-- what a scan of the moves reads
structure Choice where
  delta : ElementTuple → Int
  currentObj : Int
  bestObjVal : Int
  tabuTenure : ℕ
  tabuList : List ElementTuple

-- the move that is chosen, the move that was applied in the solution that is returned, and the new tabu list
structure BestMove where
  move : ElementTuple
  solutionWithMove : Option ElementTuple
  tabuList : List ElementTuple

namespace Choice

variable (c : Choice)

def scan (acc : Scan) (moves : List ElementTuple) : Scan :=
  moves.foldl (scanMove c.delta c.currentObj c.bestObjVal c.tabuList) acc

def start : Scan := ⟨[], 100000, none, false⟩

-- after the scan: the fallback on the tabu list, the move that is made tabu, or the aspirated one
def conclude (acc : Scan) : Option BestMove :=
  if acc.bestImprovement = 100000 then
    match c.tabuList with
    | [] => none
    | m :: rest => some ⟨m, some m, rest⟩
  else if acc.toogoodmove = false then
    (updateTabuList c.tabuTenure c.tabuList acc.bestMove).map fun tl =>
      ⟨acc.bestMove, acc.bestSolutionWithMove, tl⟩
  else some ⟨acc.bestMove, acc.bestSolutionWithMove, c.tabuList⟩

def bestMove (moves : List ElementTuple) : Option BestMove := c.conclude (c.scan start moves)

def Tabu (m : ElementTuple) : Prop := getMoveFromTabuList c.tabuList m = true

-- tabu, but better than the best solution so far
def Aspirated (m : ElementTuple) : Prop := c.Tabu m ∧ c.currentObj + c.delta m < c.bestObjVal

def Eligible (m : ElementTuple) : Prop := ¬ c.Tabu m ∨ c.currentObj + c.delta m < c.bestObjVal

instance (m : ElementTuple) : Decidable (c.Tabu m) := inferInstanceAs (Decidable (_ = true))

instance (m : ElementTuple) : Decidable (c.Aspirated m) := inferInstanceAs (Decidable (_ ∧ _))

-- a move of the list that is least among the eligible ones; any of the list when there is none of these
structure IsBest (moves : List ElementTuple) (m : ElementTuple) : Prop where
  mem : m ∈ moves
  least : ∀ m' ∈ moves, c.Eligible m' → c.Eligible m ∧ c.delta m ≤ c.delta m'

def Chooses (moves : List ElementTuple) : Prop :=
  ∃ b, c.bestMove moves = some b ∧ b.solutionWithMove = some b.move ∧ c.IsBest moves b.move

end Choice

theorem getBestMove_eq (obj : Sol → Int) (mm : MoveModelling Sol Next) (tabuTenure t : ℕ) (st : Search Sol)
    (tabuList moves : List ElementTuple) :
    getBestMove obj mm tabuTenure t st tabuList moves = mm.queryDeltaObj.bind fun delta =>
      (Choice.bestMove ⟨delta t st.currentSol, obj st.currentSol, st.bestObjVal, tabuTenure, tabuList⟩ moves).map
        fun b => (b.solutionWithMove, b.tabuList) := by
  unfold getBestMove Choice.bestMove Choice.scan Choice.start
  cases mm.queryDeltaObj with
  | none => rfl
  | some delta =>
    rw [Option.bind_some]
    dsimp only
    generalize moves.foldl _ _ = acc
    unfold Choice.conclude
    split_ifs with hfallback hgood
    · cases tabuList <;> rfl
    · rw [Option.map_map]
      rfl
    · rfl

namespace Choice

variable {c : Choice} {moves : List ElementTuple} {acc : Scan}

theorem scan_cons (m : ElementTuple) (moves : List ElementTuple) :
    c.scan acc (m :: moves) = c.scan (scanMove c.delta c.currentObj c.bestObjVal c.tabuList acc m) moves := rfl

theorem scan_append (l l' : List ElementTuple) : c.scan acc (l ++ l') = c.scan (c.scan acc l) l' :=
  List.foldl_append

theorem scanMove_aspirated {m : ElementTuple} (h : c.Aspirated m) :
    scanMove c.delta c.currentObj c.bestObjVal c.tabuList acc m =
      { acc with bestImprovement := c.delta m, bestMove := m, toogoodmove := true } := by
  have htabu : getMoveFromTabuList c.tabuList m = true := h.1
  rw [scanMove, if_pos htabu, if_pos h.2]

theorem scanMove_tabu {m : ElementTuple} (htabu : c.Tabu m) (h : ¬ c.Aspirated m) :
    scanMove c.delta c.currentObj c.bestObjVal c.tabuList acc m = acc := by
  have htabu' : getMoveFromTabuList c.tabuList m = true := htabu
  rw [scanMove, if_pos htabu', if_neg fun hlt => h ⟨htabu, hlt⟩]

theorem scanMove_free {m : ElementTuple} (h : ¬ c.Tabu m) :
    scanMove c.delta c.currentObj c.bestObjVal c.tabuList acc m =
      if c.delta m < acc.bestImprovement then
        { acc with bestImprovement := c.delta m, bestMove := m, bestSolutionWithMove := some m }
      else acc := by
  have htabu : ¬ getMoveFromTabuList c.tabuList m = true := h
  rw [scanMove, if_neg htabu]

theorem scan_free (h : ∀ m ∈ moves, ¬ c.Aspirated m) :
    (c.scan acc moves = acc ∧ ∀ m ∈ moves, ¬ c.Tabu m → acc.bestImprovement ≤ c.delta m) ∨
    ∃ n ∈ moves, ¬ c.Tabu n ∧ c.delta n < acc.bestImprovement ∧ (∀ m ∈ moves, ¬ c.Tabu m → c.delta n ≤ c.delta m) ∧
      c.scan acc moves =
        { acc with bestImprovement := c.delta n, bestMove := n, bestSolutionWithMove := some n } := by
  induction moves generalizing acc with
  | nil => exact Or.inl ⟨rfl, fun m hm => absurd hm List.not_mem_nil⟩
  | cons m moves ih =>
    obtain ⟨hm, hmoves⟩ := List.forall_mem_cons.mp h
    rw [scan_cons]
    by_cases htabu : c.Tabu m
    · rw [scanMove_tabu htabu hm]
      refine (ih hmoves).imp (fun hacc => ⟨hacc.1, ?_⟩) ?_
      · exact List.forall_mem_cons.mpr ⟨fun hfree => absurd htabu hfree, hacc.2⟩
      · rintro ⟨n, hn, hfree, hlt, hleast, heq⟩
        exact ⟨n, List.mem_cons_of_mem m hn, hfree, hlt,
          List.forall_mem_cons.mpr ⟨fun hfree => absurd htabu hfree, hleast⟩, heq⟩
    · rw [scanMove_free htabu]
      split_ifs with hlt
      · rcases ih hmoves with ⟨hacc, hle⟩ | ⟨n, hn, hfree, hlt', hleast, heq⟩
        · exact Or.inr ⟨m, List.mem_cons_self, htabu, hlt,
            List.forall_mem_cons.mpr ⟨fun _ => Int.le_refl _, hle⟩, hacc⟩
        · exact Or.inr ⟨n, List.mem_cons_of_mem m hn, hfree, Int.lt_trans hlt' hlt,
            List.forall_mem_cons.mpr ⟨fun _ => Int.le_of_lt hlt', hleast⟩, heq⟩
      · refine (ih hmoves).imp (fun hacc => ⟨hacc.1, ?_⟩) ?_
        · exact List.forall_mem_cons.mpr ⟨fun _ => Int.not_lt.mp hlt, hacc.2⟩
        · rintro ⟨n, hn, hfree, hlt', hleast, heq⟩
          exact ⟨n, List.mem_cons_of_mem m hn, hfree, hlt', List.forall_mem_cons.mpr
            ⟨fun _ => Int.le_trans (Int.le_of_lt hlt') (Int.not_lt.mp hlt), hleast⟩, heq⟩

theorem scan_solution (hacc : ∀ m, acc.bestSolutionWithMove = some m → ¬ c.Tabu m) :
    ∀ m, (c.scan acc moves).bestSolutionWithMove = some m → ¬ c.Tabu m := by
  induction moves generalizing acc with
  | nil => exact hacc
  | cons a moves ih =>
    rw [scan_cons]
    refine ih ?_
    by_cases hasp : c.Aspirated a
    · rw [scanMove_aspirated hasp]
      exact hacc
    · by_cases htabu : c.Tabu a
      · rwa [scanMove_tabu htabu hasp]
      · rw [scanMove_free htabu]
        split_ifs
        · exact fun m hm => Option.some.inj hm ▸ htabu
        · exact hacc

theorem scan_toogoodmove : (c.scan acc moves).toogoodmove = true ↔
    acc.toogoodmove = true ∨ ∃ m ∈ moves, c.Aspirated m := by
  induction moves generalizing acc with
  | nil => simp [scan]
  | cons a moves ih =>
    rw [scan_cons, ih]
    by_cases hasp : c.Aspirated a
    · rw [scanMove_aspirated hasp]
      exact iff_of_true (Or.inl rfl) (Or.inr ⟨a, List.mem_cons_self, hasp⟩)
    · have hsame : (scanMove c.delta c.currentObj c.bestObjVal c.tabuList acc a).toogoodmove = acc.toogoodmove := by
        by_cases htabu : c.Tabu a
        · rw [scanMove_tabu htabu hasp]
        · rw [scanMove_free htabu]
          split_ifs <;> rfl
      rw [hsame, List.exists_mem_cons_iff, or_iff_right hasp]

theorem elemsAreEqual_self (d : DomainElement) : elemsAreEqual d d = true := by
  cases d <;> simp [elemsAreEqual]

theorem movesAreEqual_self (m : ElementTuple) : movesAreEqual m m = true := by
  induction m with
  | nil => rfl
  | cons d m ih =>
    rw [movesAreEqual, List.zip_cons_cons, List.all_cons, elemsAreEqual_self, Bool.true_and]
    exact ih

theorem tabu_of_mem {m : ElementTuple} (h : m ∈ c.tabuList) : c.Tabu m :=
  List.any_eq_true.mpr ⟨m, h, movesAreEqual_self m⟩

section Conditions

variable (c : Choice) (moves : List ElementTuple)

-- the oldest move of the tabu list is in the list and no eligible move is better
def FirstTabu : Prop := ∃ m rest, c.tabuList = m :: rest ∧ c.IsBest moves m

-- without aspirated moves: there is a move that is not tabu with a delta below the sentinel, and the tabu list
-- can take it, or all moves are tabu and the oldest tabu move is one of them
def WithoutAspirated : Prop :=
  ((∃ m ∈ moves, ¬ c.Tabu m ∧ c.delta m < 100000) ∧ (c.tabuList = [] → c.tabuTenure ≠ 0)) ∨
    (∀ m ∈ moves, c.Tabu m) ∧ ∃ m rest, c.tabuList = m :: rest ∧ m ∈ moves

-- after the last aspirated move comes a better one that is not tabu, and no move of the list is better than it
def BetterAfter (a : ElementTuple) (l : List ElementTuple) : Prop :=
  ∃ n ∈ l, ¬ c.Tabu n ∧ c.delta n < c.delta a ∧ c.delta n ≠ 100000 ∧ ∀ m ∈ moves, c.Eligible m → c.delta n ≤ c.delta m

-- the least delta from the last aspirated move on is the sentinel
def SentinelAfter (a : ElementTuple) (l : List ElementTuple) : Prop :=
  100000 ≤ c.delta a ∧ (∀ m ∈ l, ¬ c.Tabu m → 100000 ≤ c.delta m) ∧
    (c.delta a = 100000 ∨ ∃ n ∈ l, ¬ c.Tabu n ∧ c.delta n = 100000)

def AfterAspirated : Prop :=
  ∃ l a l', moves = l ++ a :: l' ∧ c.Aspirated a ∧ (∀ m ∈ l', ¬ c.Aspirated m) ∧
    (c.BetterAfter moves a l' ∨ c.SentinelAfter a l' ∧ c.FirstTabu moves)

end Conditions

theorem updateTabuList_isSome {m : ElementTuple} :
    (∃ tl, updateTabuList c.tabuTenure c.tabuList m = some tl) ↔ (c.tabuList = [] → c.tabuTenure ≠ 0) := by
  unfold updateTabuList
  split_ifs with hfull
  · cases h : c.tabuList with
    | nil => simpa [h] using hfull
    | cons m' rest => simp
  · refine iff_of_true ⟨_, rfl⟩ fun h hzero => hfull ?_
    rw [hzero]
    exact Nat.zero_le _

theorem eligible_of_free {m : ElementTuple} (h : ¬ c.Tabu m) : c.Eligible m := Or.inl h

theorem free_of_eligible {m : ElementTuple} (h : ¬ c.Aspirated m) (he : c.Eligible m) : ¬ c.Tabu m := fun htabu =>
  he.elim (fun hfree => hfree htabu) fun hlt => h ⟨htabu, hlt⟩

-- with the sentinel as the least delta, the oldest tabu move is taken
theorem conclude_sentinel (h : acc.bestImprovement = 100000) :
    (∃ b, c.conclude acc = some b ∧ b.solutionWithMove = some b.move ∧ c.IsBest moves b.move) ↔
      c.FirstTabu moves := by
  rw [conclude, if_pos h]
  cases htl : c.tabuList with
  | nil => exact iff_of_false (fun ⟨_, hb, _⟩ => absurd hb nofun) fun ⟨_, _, hl, _⟩ => absurd (htl.symm.trans hl) nofun
  | cons m rest =>
    constructor
    · rintro ⟨b, hb, -, hbest⟩
      obtain rfl := Option.some.inj hb
      exact ⟨m, rest, htl, hbest⟩
    · rintro ⟨m', rest', hl, hbest⟩
      obtain ⟨rfl, rfl⟩ := List.cons.inj (htl.symm.trans hl)
      exact ⟨_, rfl, rfl, hbest⟩

theorem conclude_free (hne : acc.bestImprovement ≠ 100000) (hgood : acc.toogoodmove = false)
    (hsol : acc.bestSolutionWithMove = some acc.bestMove) :
    (∃ b, c.conclude acc = some b ∧ b.solutionWithMove = some b.move ∧ c.IsBest moves b.move) ↔
      (c.tabuList = [] → c.tabuTenure ≠ 0) ∧ c.IsBest moves acc.bestMove := by
  rw [conclude, if_neg hne, if_pos hgood, ← updateTabuList_isSome (m := acc.bestMove)]
  constructor
  · rintro ⟨b, hb, -, hbest⟩
    obtain ⟨tl, htl, rfl⟩ := Option.map_eq_some_iff.mp hb
    exact ⟨⟨tl, htl⟩, hbest⟩
  · rintro ⟨⟨tl, htl⟩, hbest⟩
    exact ⟨_, Option.map_eq_some_iff.mpr ⟨tl, htl, rfl⟩, hsol, hbest⟩

theorem conclude_aspirated (hne : acc.bestImprovement ≠ 100000) (hgood : acc.toogoodmove = true) :
    (∃ b, c.conclude acc = some b ∧ b.solutionWithMove = some b.move ∧ c.IsBest moves b.move) ↔
      acc.bestSolutionWithMove = some acc.bestMove ∧ c.IsBest moves acc.bestMove := by
  rw [conclude, if_neg hne, if_neg (by simp [hgood])]
  constructor
  · rintro ⟨b, hb, hsol, hbest⟩
    obtain rfl := Option.some.inj hb
    exact ⟨hsol, hbest⟩
  · rintro ⟨hsol, hbest⟩
    exact ⟨_, rfl, hsol, hbest⟩

theorem isBest_of_tabu (h : ∀ m ∈ moves, ¬ c.Aspirated m) (htabu : ∀ m ∈ moves, c.Tabu m) {m : ElementTuple}
    (hm : m ∈ moves) : c.IsBest moves m :=
  ⟨hm, fun m' hm' he => absurd (htabu m' hm') (free_of_eligible (h m' hm') he)⟩

theorem chooses_without (h : ∀ m ∈ moves, ¬ c.Aspirated m) : c.Chooses moves ↔ c.WithoutAspirated moves := by
  rw [Chooses, bestMove]
  rcases @scan_free _ _ start h with ⟨hacc, hle⟩ | ⟨n, hn, hfree, hlt, hleast, hacc⟩
  · rw [hacc, conclude_sentinel rfl]
    constructor
    · rintro ⟨m, rest, hl, hbest⟩
      have htabu : c.Tabu m := tabu_of_mem (hl ▸ List.mem_cons_self)
      refine Or.inr ⟨fun m' hm' => ?_, m, rest, hl, hbest.mem⟩
      by_contra hfree
      exact free_of_eligible (h m hbest.mem) (hbest.least m' hm' (eligible_of_free hfree)).1 htabu
    · rintro (⟨⟨m, hm, hfree, hlt⟩, -⟩ | ⟨htabu, m, rest, hl, hm⟩)
      · exact absurd (hle m hm hfree) (Int.not_le.mpr hlt)
      · exact ⟨m, rest, hl, isBest_of_tabu h htabu hm⟩
  · have hbest : c.IsBest moves n :=
      ⟨hn, fun m hm he => ⟨eligible_of_free hfree, hleast m hm (free_of_eligible (h m hm) he)⟩⟩
    rw [hacc, conclude_free (Int.ne_of_lt hlt) rfl rfl]
    constructor
    · exact fun htenure => Or.inl ⟨⟨n, hn, hfree, hlt⟩, htenure.1⟩
    · rintro (⟨-, htenure⟩ | ⟨htabu, -⟩)
      · exact ⟨htenure, hbest⟩
      · exact absurd (htabu n hn) hfree

theorem chooses_after {l l' : List ElementTuple} {a : ElementTuple} (hsplit : moves = l ++ a :: l')
    (ha : c.Aspirated a) (h : ∀ m ∈ l', ¬ c.Aspirated m) :
    c.Chooses moves ↔ c.BetterAfter moves a l' ∨ c.SentinelAfter a l' ∧ c.FirstTabu moves := by
  have hamem : a ∈ moves := hsplit ▸ List.mem_append_right l List.mem_cons_self
  have hmem : ∀ m ∈ l', m ∈ moves := fun m hm => hsplit ▸ List.mem_append_right l (List.mem_cons_of_mem a hm)
  obtain ⟨acc, hacc⟩ : ∃ acc, acc = c.scan start l := ⟨_, rfl⟩
  have hsol : acc.bestSolutionWithMove ≠ some a := fun heq =>
    @scan_solution _ _ start nofun a (hacc ▸ heq) ha.1
  rw [Chooses, bestMove, hsplit, scan_append, ← hacc, scan_cons, scanMove_aspirated ha, ← hsplit]
  rcases @scan_free _ _ { acc with bestImprovement := c.delta a, bestMove := a, toogoodmove := true } h with
    ⟨hscan, hle⟩ | ⟨n, hn, hfree, hlt, hleast, hscan⟩
  · have hnot : ¬ c.BetterAfter moves a l' := fun ⟨n, hn, hfree, hlt, _⟩ =>
      absurd (hle n hn hfree) (Int.not_le.mpr hlt)
    rw [hscan, or_iff_right hnot]
    by_cases hsentinel : c.delta a = 100000
    · rw [conclude_sentinel hsentinel]
      refine (and_iff_right ⟨hsentinel.ge, fun m hm hfree => ?_, Or.inl hsentinel⟩).symm
      exact hsentinel.ge.trans (hle m hm hfree)
    · rw [conclude_aspirated hsentinel rfl]
      refine iff_of_false (fun hchosen => hsol hchosen.1) fun hafter => ?_
      obtain ⟨hge, -, heq⟩ := hafter.1
      obtain ⟨n, hn, hfree, hn'⟩ := heq.resolve_left hsentinel
      have hle' : c.delta a ≤ c.delta n := hle n hn hfree
      exact hsentinel (Int.le_antisymm (hn' ▸ hle') hge)
  · have hlt' : c.delta n < c.delta a := hlt
    rw [hscan]
    by_cases hsentinel : c.delta n = 100000
    · have hnot : ¬ c.BetterAfter moves a l' := by
        rintro ⟨n', hn', hfree', -, hne, hbest⟩
        have hle := hbest n (hmem n hn) (eligible_of_free hfree)
        exact hne (Int.le_antisymm (hsentinel ▸ hle) (hsentinel ▸ hleast n' hn' hfree'))
      rw [conclude_sentinel hsentinel, or_iff_right hnot]
      refine (and_iff_right ⟨?_, fun m hm hfree' => ?_, Or.inr ⟨n, hn, hfree, hsentinel⟩⟩).symm
      · exact hsentinel ▸ Int.le_of_lt hlt'
      · exact hsentinel ▸ hleast m hm hfree'
    · have hnot : ¬ c.SentinelAfter a l' := by
        rintro ⟨-, hge, heq⟩
        have hn' := hge n hn hfree
        rcases heq with ha' | ⟨m, hm, hfree', hm'⟩
        · exact absurd hn' (Int.not_le.mpr (ha' ▸ hlt'))
        · exact hsentinel (Int.le_antisymm (hm' ▸ hleast m hm hfree') hn')
      rw [conclude_aspirated hsentinel rfl, or_iff_left fun hafter => hnot hafter.1]
      constructor
      · exact fun hchosen => ⟨n, hn, hfree, hlt', hsentinel, fun m hm he => (hchosen.2.least m hm he).2⟩
      · rintro ⟨n', hn', hfree', -, -, hbest⟩
        refine ⟨rfl, hmem n hn, fun m hm he => ⟨eligible_of_free hfree, ?_⟩⟩
        exact Int.le_trans (hleast n' hn' hfree') (hbest m hm he)

theorem exists_last_aspirated (c : Choice) (moves : List ElementTuple) : (∀ m ∈ moves, ¬ c.Aspirated m) ∨
    ∃ l a l', moves = l ++ a :: l' ∧ c.Aspirated a ∧ ∀ m ∈ l', ¬ c.Aspirated m := by
  induction moves with
  | nil => exact Or.inl fun m hm => absurd hm List.not_mem_nil
  | cons m moves ih =>
    rcases ih with hnone | ⟨l, a, l', rfl, ha, hlast⟩
    · by_cases hm : c.Aspirated m
      · exact Or.inr ⟨[], m, moves, rfl, hm, hnone⟩
      · exact Or.inl (List.forall_mem_cons.mpr ⟨hm, hnone⟩)
    · exact Or.inr ⟨m :: l, a, l', rfl, ha, hlast⟩

theorem chooses_iff (c : Choice) (moves : List ElementTuple) :
    c.Chooses moves ↔ (∀ m ∈ moves, ¬ c.Aspirated m) ∧ c.WithoutAspirated moves ∨ c.AfterAspirated moves := by
  constructor
  · intro hchooses
    rcases exists_last_aspirated c moves with hnone | ⟨l, a, l', hsplit, ha, hlast⟩
    · exact Or.inl ⟨hnone, (chooses_without hnone).mp hchooses⟩
    · exact Or.inr ⟨l, a, l', hsplit, ha, hlast, (chooses_after hsplit ha hlast).mp hchooses⟩
  · rintro (⟨hnone, hwithout⟩ | ⟨l, a, l', hsplit, ha, hlast, hafter⟩)
    · exact (chooses_without hnone).mpr hwithout
    · exact (chooses_after hsplit ha hlast).mpr hafter

-- the only move is tabu and would improve on the best solution: it is returned without its solution
theorem chooses_aspirated :
    ¬ ∀ (c : Choice) (moves : List ElementTuple), moves ≠ [] → c.Chooses moves := by
  intro h
  obtain ⟨b, hb, hsol, -⟩ := h ⟨fun _ => -5, 0, 0, 15, [[.int 1]]⟩ [[.int 1]] (List.cons_ne_nil _ _)
  obtain rfl := Option.some.inj hb
  exact absurd hsol nofun

end Choice

end TabuSearch

end LocalSearch
