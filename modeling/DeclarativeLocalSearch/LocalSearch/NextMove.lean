import DeclarativeLocalSearch.LocalSearch.LargeNeighbourhoodSearch
import Mathlib.Data.Nat.Find

namespace LocalSearch

namespace LargeNeighbourhoodSearch

variable {Sol : Type}

-- the loop, from the index i on; no result: it does not end
def nextFrom (moves : List (LNSMove Sol)) (currentmoveindex : ℤ) : ℕ → ℕ → Option ℤ
  | 0, _ => none
  | n + 1, i =>
    match moves[i]? with
    | none => some (-1)
    | some move =>
      if move.enable then some i
      else
        let i := if i = moves.length - 1 then 0 else i
        if i = currentmoveindex then some (-1) else nextFrom moves currentmoveindex n (i + 1)

def getNextMove (s : LargeNeighbourhoodSearch Sol) (currentmoveindex : ℤ) (n : ℕ) : Option ℤ :=
  let i := currentmoveindex + 1
  let i := if i = s.lConcreteMovemodelling.length then 0 else i
  nextFrom s.lConcreteMovemodelling currentmoveindex n i.toNat

def Enabled (moves : List (LNSMove Sol)) (i : ℕ) : Prop := ∃ move, moves[i]? = some move ∧ move.enable = true

-- the first enabled index after the current one, which comes last itself
def IsNext (moves : List (LNSMove Sol)) (currentmoveindex r : ℤ) : Prop :=
  (r = -1 ∧ ∀ i, ¬ Enabled moves i) ∨
    ∃ k : ℕ, 0 < k ∧ k ≤ moves.length ∧ r = (currentmoveindex + k) % moves.length ∧ Enabled moves r.toNat ∧
      ∀ j : ℕ, 0 < j → j < k → ¬ Enabled moves ((currentmoveindex + j) % moves.length).toNat

def FindsNext (s : LargeNeighbourhoodSearch Sol) (currentmoveindex : ℤ) : Prop :=
  ∃ r, (∃ m, ∀ n ≥ m, s.getNextMove currentmoveindex n = some r) ∧
    IsNext s.lConcreteMovemodelling currentmoveindex r

section Loop

variable {moves : List (LNSMove Sol)} {c : ℤ} {i : ℕ}

theorem Enabled.lt (h : Enabled moves i) : i < moves.length := by
  obtain ⟨move, hi, -⟩ := h
  exact (List.getElem?_eq_some_iff.mp hi).1

theorem nextFrom_end (n : ℕ) (hi : moves.length ≤ i) : nextFrom moves c (n + 1) i = some (-1) := by
  rw [nextFrom, List.getElem?_eq_none hi]

theorem nextFrom_enabled (n : ℕ) (hi : Enabled moves i) : nextFrom moves c (n + 1) i = some i := by
  obtain ⟨move, hi, henable⟩ := hi
  rw [nextFrom, hi]
  exact if_pos henable

theorem nextFrom_disabled (n : ℕ) (hi : i < moves.length) (hnot : ¬ Enabled moves i) :
    nextFrom moves c (n + 1) i =
      if ((if i = moves.length - 1 then 0 else i : ℕ) : ℤ) = c then some (-1)
      else nextFrom moves c n ((if i = moves.length - 1 then 0 else i) + 1) := by
  have henable : moves[i].enable = false :=
    eq_false_of_ne_true fun h => hnot ⟨moves[i], List.getElem?_eq_getElem hi, h⟩
  rw [nextFrom, List.getElem?_eq_getElem hi]
  simp [henable]

theorem nextFrom_skip {j : ℕ} (hj : j < moves.length) (n : ℕ) (hij : i ≤ j)
    (hnone : ∀ l, i ≤ l → l < j → ¬ Enabled moves l ∧ (l : ℤ) ≠ c) :
    nextFrom moves c (n + (j - i)) i = nextFrom moves c n j := by
  induction hij using Nat.decreasingInduction with
  | self => rw [Nat.sub_self, Nat.add_zero]
  | of_succ i hi ih =>
    obtain ⟨hnot, hc⟩ := hnone i le_rfl hi
    have hlast : i ≠ moves.length - 1 := by omega
    have hfuel : n + (j - i) = n + (j - (i + 1)) + 1 := by omega
    rw [hfuel, nextFrom_disabled _ (by omega) hnot, if_neg hlast, if_neg hc]
    exact ih fun l hl => hnone l (by omega)

theorem nextFrom_finds {j : ℕ} (n : ℕ) (hij : i ≤ j) (hj : Enabled moves j)
    (hnone : ∀ l, i ≤ l → l < j → ¬ Enabled moves l ∧ (l : ℤ) ≠ c) :
    nextFrom moves c (n + 1 + (j - i)) i = some j := by
  rw [nextFrom_skip hj.lt _ hij hnone, nextFrom_enabled n hj]

theorem nextFrom_loops (hlength : 2 ≤ moves.length) (hnone : ∀ i, ¬ Enabled moves i)
    (hc : c = -1 ∨ c = (moves.length - 1 : ℕ)) (n : ℕ) : ∀ {i}, i < moves.length → nextFrom moves c n i = none := by
  induction n with
  | zero => exact fun _ => rfl
  | succ n ih =>
    intro i hi
    rw [nextFrom_disabled n hi (hnone i)]
    split_ifs with hlast hcurrent hcurrent
    · omega
    · exact ih (by omega)
    · omega
    · exact ih (by omega)

end Loop

section Next

variable {s : LargeNeighbourhoodSearch Sol} {c : ℤ}

theorem getNextMove_later (h : c + 1 < s.lConcreteMovemodelling.length) (n : ℕ) :
    s.getNextMove c n = nextFrom s.lConcreteMovemodelling c n (c + 1).toNat := by
  rw [getNextMove]
  exact congrArg (fun i : ℤ => nextFrom s.lConcreteMovemodelling c n i.toNat) (if_neg (Int.ne_of_lt h))

theorem getNextMove_wrap (h : c + 1 = s.lConcreteMovemodelling.length) (n : ℕ) :
    s.getNextMove c n = nextFrom s.lConcreteMovemodelling c n 0 := by
  rw [getNextMove]
  exact congrArg (fun i : ℤ => nextFrom s.lConcreteMovemodelling c n i.toNat) (if_pos h)

theorem findsNext_of_add {k : ℕ} {r : ℤ}
    (hr : ∀ n, s.getNextMove c (n + 1 + k) = some r) (hnext : IsNext s.lConcreteMovemodelling c r) : FindsNext s c := by
  refine ⟨r, ⟨1 + k, fun n hn => ?_⟩, hnext⟩
  obtain ⟨n, rfl⟩ := Nat.exists_eq_add_of_le hn
  rw [show 1 + k + n = n + 1 + k by omega, hr]

theorem findsNext_later (hc : -1 ≤ c) (h : ∃ i : ℕ, c < i ∧ Enabled s.lConcreteMovemodelling i) : FindsNext s c := by
  classical
  obtain ⟨hlt, henabled⟩ := Nat.find_spec h
  have hnone : ∀ l : ℕ, c < l → l < Nat.find h → ¬ Enabled s.lConcreteMovemodelling l :=
    fun l hl hfind hl' => Nat.find_min h hfind ⟨hl, hl'⟩
  have hlength := henabled.lt
  refine findsNext_of_add (k := Nat.find h - (c + 1).toNat) (r := Nat.find h) (fun n => ?_) (Or.inr ?_)
  · rw [getNextMove_later (by omega)]
    exact nextFrom_finds n (by omega) henabled fun l hl hfind => ⟨hnone l (by omega) hfind, by omega⟩
  · refine ⟨(Nat.find h - c).toNat, by omega, by omega, ?_, by simpa using henabled, fun j hj hjk => ?_⟩
    · rw [Int.toNat_of_nonneg (by omega), show c + (Nat.find h - c) = Nat.find h by omega]
      exact (Int.emod_eq_of_lt (by omega) (by omega)).symm
    · rw [Int.emod_eq_of_lt (by omega) (by omega)]
      exact hnone _ (by omega) (by omega)

theorem findsNext_last (hc : c + 1 = s.lConcreteMovemodelling.length) (h : ∃ i, Enabled s.lConcreteMovemodelling i) :
    FindsNext s c := by
  classical
  have henabled := Nat.find_spec h
  have hnone : ∀ l < Nat.find h, ¬ Enabled s.lConcreteMovemodelling l := fun l => Nat.find_min h
  have hlength := henabled.lt
  refine findsNext_of_add (k := Nat.find h - 0) (r := Nat.find h) (fun n => ?_) (Or.inr ?_)
  · rw [getNextMove_wrap hc]
    exact nextFrom_finds n (Nat.zero_le _) henabled fun l _ hfind => ⟨hnone l hfind, by omega⟩
  · refine ⟨Nat.find h + 1, Nat.succ_pos _, hlength, ?_, by simpa using henabled, fun j hj hjk => ?_⟩
    · rw [show c + (Nat.find h + 1 : ℕ) = Nat.find h + s.lConcreteMovemodelling.length by omega, Int.add_emod_right]
      exact (Int.emod_eq_of_lt (by omega) (by omega)).symm
    · rw [show c + j = ((j - 1 : ℕ) : ℤ) + s.lConcreteMovemodelling.length by omega, Int.add_emod_right,
        Int.emod_eq_of_lt (by omega) (by omega)]
      exact hnone _ (by omega)

theorem getNextMove_again {c : ℕ} (hc : c + 1 < s.lConcreteMovemodelling.length)
    (hnone : ∀ i, c < i → ¬ Enabled s.lConcreteMovemodelling i) (n : ℕ) :
    s.getNextMove c (n + 1 + (s.lConcreteMovemodelling.length - 1 - (c + 1))) =
      if c = 0 then some (-1) else nextFrom s.lConcreteMovemodelling c n 1 := by
  have hlast : s.lConcreteMovemodelling.length - 1 < s.lConcreteMovemodelling.length := by omega
  rw [getNextMove_later (by omega), show ((c : ℤ) + 1).toNat = c + 1 by omega,
    nextFrom_skip hlast _ (by omega) fun l hl hlt => ⟨hnone l (by omega), by omega⟩,
    nextFrom_disabled n hlast (hnone _ (by omega)), if_pos rfl]
  split_ifs with h h' h'
  · rfl
  · omega
  · omega
  · rfl

theorem getNextMove_earlier {c : ℕ} (hc : c + 1 < s.lConcreteMovemodelling.length)
    (hnone : ∀ i, c < i → ¬ Enabled s.lConcreteMovemodelling i) :
    ∃ (r : ℤ) (k : ℕ), (∀ n, s.getNextMove c (n + 1 + k) = some r) ∧
      ((r = -1 ∧ ∀ i, 0 < i → ¬ Enabled s.lConcreteMovemodelling i) ∨ ∃ j : ℕ, r = j ∧ 0 < j ∧ j ≤ c ∧
        Enabled s.lConcreteMovemodelling j ∧ ∀ i, 0 < i → i < j → ¬ Enabled s.lConcreteMovemodelling i) := by
  classical
  by_cases h : ∃ j, 0 < j ∧ Enabled s.lConcreteMovemodelling j
  · obtain ⟨hpos, henabled⟩ := Nat.find_spec h
    have hle : Nat.find h ≤ c := Nat.le_of_not_lt fun hlt => hnone _ hlt henabled
    have hfirst : ∀ i, 0 < i → i < Nat.find h → ¬ Enabled s.lConcreteMovemodelling i :=
      fun i hi hfind hi' => Nat.find_min h hfind ⟨hi, hi'⟩
    refine ⟨Nat.find h, Nat.find h - 1 + 1 + (s.lConcreteMovemodelling.length - 1 - (c + 1)), fun n => ?_,
      Or.inr ⟨_, rfl, hpos, hle, henabled, hfirst⟩⟩
    rw [← Nat.add_assoc, ← Nat.add_assoc, getNextMove_again hc hnone, if_neg (by omega)]
    exact nextFrom_finds n hpos henabled fun l hl hfind => ⟨hfirst l hl hfind, by omega⟩
  · have hfirst : ∀ i, 0 < i → ¬ Enabled s.lConcreteMovemodelling i := fun i hi hi' => h ⟨i, hi, hi'⟩
    refine ⟨-1, c - 1 + 1 + (s.lConcreteMovemodelling.length - 1 - (c + 1)), fun n => ?_, Or.inl ⟨rfl, hfirst⟩⟩
    rw [← Nat.add_assoc, ← Nat.add_assoc, getNextMove_again hc hnone]
    split_ifs with hzero
    · rfl
    · rw [nextFrom_skip (by omega) _ (Nat.pos_of_ne_zero hzero) fun l hl hlt => ⟨hfirst l hl, by omega⟩,
        nextFrom_disabled n (by omega) (hfirst c (Nat.pos_of_ne_zero hzero)),
        if_neg (show c ≠ s.lConcreteMovemodelling.length - 1 by omega), if_pos rfl]

theorem findsNext_earlier {c : ℕ} (hc : c + 1 < s.lConcreteMovemodelling.length)
    (hnone : ∀ i, c < i → ¬ Enabled s.lConcreteMovemodelling i) :
    FindsNext s c ↔ ¬ Enabled s.lConcreteMovemodelling 0 := by
  obtain ⟨r, k, hr, hcases⟩ := getNextMove_earlier hc hnone
  constructor
  · rintro ⟨r', ⟨m, hm⟩, hnext⟩ hzero
    obtain rfl : r' = r := Option.some.inj ((hm (m + 1 + k) (by omega)).symm.trans (hr m))
    obtain ⟨-, hnone'⟩ | ⟨k', hpos, hle, hmod, -, hbefore⟩ := hnext
    · exact hnone' 0 hzero
    · have hmod0 : ((c : ℤ) + (s.lConcreteMovemodelling.length - c : ℕ)) % s.lConcreteMovemodelling.length = 0 := by
        rw [show (c : ℤ) + (s.lConcreteMovemodelling.length - c : ℕ) = s.lConcreteMovemodelling.length by omega,
          Int.emod_self]
      obtain ⟨rfl, -⟩ | ⟨j, rfl, hj, hjc, -⟩ := hcases
      · have hnonneg := Int.emod_nonneg ((c : ℤ) + k') (b := s.lConcreteMovemodelling.length) (by omega)
        omega
      · rcases Nat.lt_trichotomy k' (s.lConcreteMovemodelling.length - c) with hlt | rfl | hlt
        · rw [Int.emod_eq_of_lt (by omega) (by omega)] at hmod
          omega
        · omega
        · refine hbefore (s.lConcreteMovemodelling.length - c) (by omega) hlt ?_
          rw [hmod0]
          exact hzero
  · intro hzero
    refine findsNext_of_add hr ?_
    obtain ⟨rfl, hfirst⟩ | ⟨j, rfl, hj, hjc, henabled, hfirst⟩ := hcases
    · refine Or.inl ⟨rfl, fun i => ?_⟩
      rcases Nat.eq_zero_or_pos i with rfl | hi
      · exact hzero
      · exact hfirst i hi
    · refine Or.inr ⟨s.lConcreteMovemodelling.length - c + j, by omega, by omega, ?_, by simpa using henabled,
        fun l hl hlt => ?_⟩
      · rw [show (c : ℤ) + (s.lConcreteMovemodelling.length - c + j : ℕ) = j + s.lConcreteMovemodelling.length by omega,
          Int.add_emod_right, Int.emod_eq_of_lt (by omega) (by omega)]
      · rcases Nat.lt_or_ge (c + l) s.lConcreteMovemodelling.length with hbelow | hover
        · rw [Int.emod_eq_of_lt (by omega) (by omega)]
          exact hnone _ (by omega)
        · rw [show (c : ℤ) + l = (c + l - s.lConcreteMovemodelling.length : ℕ) + s.lConcreteMovemodelling.length by omega,
            Int.add_emod_right, Int.emod_eq_of_lt (by omega) (by omega), Int.toNat_natCast]
          rcases Nat.eq_zero_or_pos (c + l - s.lConcreteMovemodelling.length) with hl0 | hl0
          · rw [hl0]
            exact hzero
          · exact hfirst _ hl0 (by omega)

theorem not_findsNext (hlength : 2 ≤ s.lConcreteMovemodelling.length) (hc : c = -1 ∨ c + 1 = s.lConcreteMovemodelling.length)
    (hnone : ∀ i, ¬ Enabled s.lConcreteMovemodelling i) : ¬ FindsNext s c := by
  rintro ⟨r, ⟨m, hm⟩, -⟩
  have hloops := @nextFrom_loops _ s.lConcreteMovemodelling c hlength hnone (by omega) m
  have hstart : s.getNextMove c m = none := by
    rcases hc with hc | hc
    · rw [getNextMove_later (by omega)]
      exact hloops (by omega)
    · rw [getNextMove_wrap hc]
      exact hloops (by omega)
  exact absurd (hstart.symm.trans (hm m le_rfl)) nofun

theorem findsNext_single (hlength : s.lConcreteMovemodelling.length ≤ 1)
    (hc : c < s.lConcreteMovemodelling.length) (hnone : ∀ i, ¬ Enabled s.lConcreteMovemodelling i) : FindsNext s c := by
  refine findsNext_of_add (k := 1) (r := -1) (fun n => ?_) (Or.inl ⟨rfl, hnone⟩)
  have hstart : s.getNextMove c (n + 1 + 1) = nextFrom s.lConcreteMovemodelling c (n + 1 + 1) 0 := by
    rcases Int.lt_or_eq_of_le (show c + 1 ≤ s.lConcreteMovemodelling.length by omega) with hlt | heq
    · rw [getNextMove_later hlt, show (c + 1).toNat = 0 by omega]
    · rw [getNextMove_wrap heq]
  rw [hstart]
  rcases Nat.eq_zero_or_pos s.lConcreteMovemodelling.length with hzero | hpos
  · exact nextFrom_end _ (by omega)
  · rw [nextFrom_disabled _ hpos (hnone 0), ite_self]
    split_ifs
    · rfl
    · exact nextFrom_end n (by omega)

theorem findsNext_iff (s : LargeNeighbourhoodSearch Sol) (currentmoveindex : ℤ) (h : -1 ≤ currentmoveindex)
    (h' : currentmoveindex < s.lConcreteMovemodelling.length) :
    FindsNext s currentmoveindex ↔ s.lConcreteMovemodelling.length ≤ 1 ∨
      if currentmoveindex = -1 ∨ currentmoveindex + 1 = s.lConcreteMovemodelling.length then
        ∃ i, Enabled s.lConcreteMovemodelling i
      else (∃ i : ℕ, currentmoveindex < i ∧ Enabled s.lConcreteMovemodelling i) ∨
        ¬ Enabled s.lConcreteMovemodelling 0 := by
  split_ifs with hc
  · by_cases hsome : ∃ i, Enabled s.lConcreteMovemodelling i
    · refine iff_of_true ?_ (Or.inr hsome)
      rcases hc with hc | hc
      · obtain ⟨i, hi⟩ := hsome
        exact findsNext_later h ⟨i, by omega, hi⟩
      · exact findsNext_last hc hsome
    · have hnone := not_exists.mp hsome
      rw [or_iff_left hsome]
      exact ⟨fun hfinds => Nat.le_of_not_lt fun hlength => not_findsNext hlength hc hnone hfinds,
        fun hlength => findsNext_single hlength h' hnone⟩
  · rw [or_iff_right (by omega)]
    by_cases hlater : ∃ i : ℕ, currentmoveindex < i ∧ Enabled s.lConcreteMovemodelling i
    · exact iff_of_true (findsNext_later h hlater) (Or.inl hlater)
    · obtain ⟨c, rfl⟩ := Int.eq_ofNat_of_zero_le (show 0 ≤ currentmoveindex by omega)
      rw [or_iff_right hlater]
      exact findsNext_earlier (by omega) fun i hi hi' => hlater ⟨i, by omega, hi'⟩

end Next

-- the second of three moves is current and the first one is the only one that is enabled
def firstOnly : LargeNeighbourhoodSearch Bool :=
  ⟨[0], [⟨true, none, none⟩, ⟨false, none, none⟩, ⟨false, none, none⟩]⟩

theorem findsNext_first : FindsNext firstOnly (-1) :=
  (findsNext_iff firstOnly (-1) (by decide) (by decide)).mpr (Or.inr ⟨0, ⟨true, none, none⟩, rfl, rfl⟩)

theorem not_findsNext_first : ¬ FindsNext firstOnly 1 := by
  intro h
  refine (findsNext_earlier (s := firstOnly) (c := 1) (by decide) ?_).mp h ⟨⟨true, none, none⟩, rfl, rfl⟩
  rintro i hi ⟨move, hmove, henable⟩
  match i, hi, hmove with
  | 2, _, rfl => exact absurd henable nofun

end LargeNeighbourhoodSearch

end LocalSearch
