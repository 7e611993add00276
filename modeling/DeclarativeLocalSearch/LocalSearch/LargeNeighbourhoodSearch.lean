import DeclarativeLocalSearch.Structure.DomainElement
import Mathlib.Data.List.Basic

namespace LocalSearch

open Structure

variable {Sol : Type}

abbrev RandVarDomain (Sol : Type) := Sol → List ElementTuple

structure LNSMove (Sol : Type) where
  enable : Bool
  queryGetRandVarDomain : Option (RandVarDomain Sol)
  randomVariablesDomain : Option (List ElementTuple)

-- emptying the tabu list is a test that nothing reads, and changes nothing
def LNSMove.resetRandomVariablesDomain (m : LNSMove Sol) (query : RandVarDomain Sol) (currentsol : Sol) :
    LNSMove Sol × Bool :=
  ({ m with randomVariablesDomain := some (query currentsol) }, !(query currentsol).isEmpty)

structure LargeNeighbourhoodSearch (Sol : Type) where
  lEnabledMoves : List ℕ
  lConcreteMovemodelling : List (LNSMove Sol)

inductive Call (Sol : Type) where
  | enableMove (index : ℤ)
  | disableMove (index : ℤ)
  | signalChangeCurrentSolution (currentsol : Sol)

namespace LargeNeighbourhoodSearch

def moveAt (s : LargeNeighbourhoodSearch Sol) (index : ℤ) : Option (LNSMove Sol) :=
  if index < 0 then none else s.lConcreteMovemodelling[index.toNat]?

def setMove (s : LargeNeighbourhoodSearch Sol) (i : ℕ) (m : LNSMove Sol) : LargeNeighbourhoodSearch Sol :=
  { s with lConcreteMovemodelling := s.lConcreteMovemodelling.set i m }

def enableMove (s : LargeNeighbourhoodSearch Sol) (index : ℤ) : LargeNeighbourhoodSearch Sol :=
  match s.moveAt index with
  | none => s
  | some m =>
    if m.enable then s
    else { s.setMove index.toNat { m with enable := true } with
      lEnabledMoves := s.lEnabledMoves ++ [index.toNat] }

def disableMove (s : LargeNeighbourhoodSearch Sol) (index : ℤ) : LargeNeighbourhoodSearch Sol :=
  match s.moveAt index with
  | none => s
  | some m =>
    if m.enable = false then s
    else { s.setMove index.toNat { m with enable := false } with
      lEnabledMoves := s.lEnabledMoves.erase index.toNat }

def signalMove (currentsol : Sol) (s : LargeNeighbourhoodSearch Sol) (i : ℕ) : LargeNeighbourhoodSearch Sol :=
  match s.lConcreteMovemodelling[i]? with
  | none => s
  | some m =>
    match m.queryGetRandVarDomain with
    | none => s
    | some query =>
      let reset := m.resetRandomVariablesDomain query currentsol
      if reset.2 = false then (s.setMove i reset.1).disableMove i else s.setMove i reset.1

def signalChangeCurrentSolution (s : LargeNeighbourhoodSearch Sol) (currentsol : Sol) :
    LargeNeighbourhoodSearch Sol :=
  (List.range s.lConcreteMovemodelling.length).foldl (signalMove currentsol) s

def addMove (s : LargeNeighbourhoodSearch Sol) (move : Option (RandVarDomain Sol)) :
    LargeNeighbourhoodSearch Sol :=
  enableMove { s with lConcreteMovemodelling := s.lConcreteMovemodelling ++ [⟨false, move, none⟩] }
    s.lConcreteMovemodelling.length

def processInputData (listmovemodelling : List (Option (RandVarDomain Sol))) : LargeNeighbourhoodSearch Sol :=
  listmovemodelling.foldl addMove ⟨[], []⟩

def call (s : LargeNeighbourhoodSearch Sol) : Call Sol → LargeNeighbourhoodSearch Sol
  | .enableMove index => s.enableMove index
  | .disableMove index => s.disableMove index
  | .signalChangeCurrentSolution currentsol => s.signalChangeCurrentSolution currentsol

def calls (s : LargeNeighbourhoodSearch Sol) (l : List (Call Sol)) : LargeNeighbourhoodSearch Sol :=
  l.foldl call s

-- the flags and the list say the same
structure Invariant (s : LargeNeighbourhoodSearch Sol) : Prop where
  nodup : s.lEnabledMoves.Nodup
  enabled : ∀ i, i ∈ s.lEnabledMoves ↔ ∃ m, s.lConcreteMovemodelling[i]? = some m ∧ m.enable = true

section Invariant

variable {s : LargeNeighbourhoodSearch Sol}

theorem moveAt_eq_some {index : ℤ} {m : LNSMove Sol} (h : s.moveAt index = some m) :
    ∃ i : ℕ, index = i ∧ s.lConcreteMovemodelling[i]? = some m := by
  unfold moveAt at h
  split_ifs at h with hneg
  exact ⟨index.toNat, (Int.toNat_of_nonneg (Int.not_lt.mp hneg)).symm, h⟩

theorem getElem?_setMove {i : ℕ} {m m' : LNSMove Sol} (h : s.lConcreteMovemodelling[i]? = some m) (j : ℕ) :
    (s.setMove i m').lConcreteMovemodelling[j]? = if i = j then some m' else s.lConcreteMovemodelling[j]? := by
  obtain ⟨hi, -⟩ := List.getElem?_eq_some_iff.mp h
  rw [setMove, List.getElem?_set]
  split_ifs with hij
  · rfl
  · rfl

theorem enableMove_cases (s : LargeNeighbourhoodSearch Sol) (index : ℤ) :
    s.enableMove index = s ∨ ∃ (i : ℕ) (m : LNSMove Sol), s.lConcreteMovemodelling[i]? = some m ∧ m.enable = false ∧
      s.enableMove index = { s.setMove i { m with enable := true } with lEnabledMoves := s.lEnabledMoves ++ [i] } := by
  cases h : s.moveAt index with
  | none => exact Or.inl (by rw [enableMove, h])
  | some m =>
    obtain ⟨i, rfl, hi⟩ := moveAt_eq_some h
    cases hm : m.enable with
    | true => exact Or.inl (by simp only [enableMove, h, hm, if_true])
    | false =>
      exact Or.inr ⟨i, m, hi, hm, by
        simp only [enableMove, h, hm, Bool.false_eq_true, if_false, Int.toNat_natCast]⟩

theorem disableMove_cases (s : LargeNeighbourhoodSearch Sol) (index : ℤ) :
    s.disableMove index = s ∨ ∃ (i : ℕ) (m : LNSMove Sol), s.lConcreteMovemodelling[i]? = some m ∧ m.enable = true ∧
      s.disableMove index =
        { s.setMove i { m with enable := false } with lEnabledMoves := s.lEnabledMoves.erase i } := by
  cases h : s.moveAt index with
  | none => exact Or.inl (by rw [disableMove, h])
  | some m =>
    obtain ⟨i, rfl, hi⟩ := moveAt_eq_some h
    cases hm : m.enable with
    | false => exact Or.inl (by simp only [disableMove, h, hm, if_true])
    | true =>
      exact Or.inr ⟨i, m, hi, hm, by
        simp only [disableMove, h, hm, Bool.true_eq_false, if_false, Int.toNat_natCast]⟩

theorem Invariant.enableMove (h : Invariant s) (index : ℤ) : Invariant (s.enableMove index) := by
  obtain heq | ⟨i, m, hi, hm, heq⟩ := enableMove_cases s index
  · rwa [heq]
  · have hnot : i ∉ s.lEnabledMoves := fun hmem => by
      obtain ⟨m', hm', htrue⟩ := (h.enabled i).mp hmem
      obtain rfl := Option.some.inj (hi.symm.trans hm')
      exact absurd (hm.symm.trans htrue) Bool.false_ne_true
    rw [heq]
    refine ⟨List.nodup_append.mpr ⟨h.nodup, List.pairwise_singleton _ i, ?_⟩, fun j => ?_⟩
    · rintro j hj k hk rfl
      exact hnot (List.mem_singleton.mp hk ▸ hj)
    · dsimp only
      rw [List.mem_append, List.mem_singleton, getElem?_setMove hi, h.enabled j]
      split_ifs with hij
      · subst hij
        simp
      · simp [Ne.symm hij]

theorem Invariant.disableMove (h : Invariant s) (index : ℤ) : Invariant (s.disableMove index) := by
  obtain heq | ⟨i, m, hi, hm, heq⟩ := disableMove_cases s index
  · rwa [heq]
  · rw [heq]
    refine ⟨h.nodup.erase i, fun j => ?_⟩
    dsimp only
    rw [h.nodup.mem_erase_iff, getElem?_setMove hi, h.enabled j]
    split_ifs with hij
    · subst hij
      simp
    · simp [Ne.symm hij]

theorem Invariant.setMove (h : Invariant s) {i : ℕ} {m m' : LNSMove Sol}
    (hi : s.lConcreteMovemodelling[i]? = some m) (hm : m'.enable = m.enable) : Invariant (s.setMove i m') := by
  refine ⟨h.nodup, fun j => ?_⟩
  rw [getElem?_setMove hi, show (s.setMove i m').lEnabledMoves = s.lEnabledMoves from rfl, h.enabled j]
  split_ifs with hij
  · subst hij
    simp [hi, hm]
  · rfl

theorem signalMove_invariant (currentsol : Sol) (h : Invariant s) (i : ℕ) : Invariant (signalMove currentsol s i) := by
  unfold signalMove
  split
  · exact h
  · rename_i m hi
    split
    · exact h
    · rename_i query _
      have hset : Invariant (s.setMove i (m.resetRandomVariablesDomain query currentsol).1) := h.setMove hi rfl
      dsimp only
      split_ifs
      · exact hset.disableMove i
      · exact hset

theorem Invariant.signalChangeCurrentSolution (h : Invariant s) (currentsol : Sol) :
    Invariant (s.signalChangeCurrentSolution currentsol) :=
  List.foldlRecOn (motive := Invariant) _ _ h fun _ hs i _ => signalMove_invariant currentsol hs i

theorem Invariant.call (h : Invariant s) (c : Call Sol) : Invariant (s.call c) := by
  cases c with
  | enableMove index => exact h.enableMove index
  | disableMove index => exact h.disableMove index
  | signalChangeCurrentSolution currentsol => exact h.signalChangeCurrentSolution currentsol

theorem Invariant.calls (h : Invariant s) (l : List (Call Sol)) : Invariant (s.calls l) :=
  List.foldlRecOn (motive := Invariant) l _ h fun _ hs c _ => hs.call c

theorem invariant_processInputData (listmovemodelling : List (Option (RandVarDomain Sol))) :
    Invariant (processInputData listmovemodelling) := by
  refine List.foldlRecOn (motive := Invariant) _ _ ⟨List.nodup_nil, fun i => by simp⟩ fun s hs move _ => ?_
  suffices hadded : Invariant { s with lConcreteMovemodelling := s.lConcreteMovemodelling ++ [⟨false, move, none⟩] } by
    exact hadded.enableMove _
  refine ⟨hs.nodup, fun i => ?_⟩
  dsimp only
  rw [hs.enabled i]
  constructor
  · rintro ⟨m, hm, htrue⟩
    obtain ⟨hi, -⟩ := List.getElem?_eq_some_iff.mp hm
    exact ⟨m, by rw [List.getElem?_append_left hi, hm], htrue⟩
  · rintro ⟨m, hm, htrue⟩
    by_cases hi : i < s.lConcreteMovemodelling.length
    · exact ⟨m, by rwa [List.getElem?_append_left hi] at hm, htrue⟩
    · rw [List.getElem?_append_right (Nat.le_of_not_lt hi)] at hm
      obtain rfl : m = ⟨false, move, none⟩ := List.mem_singleton.mp (List.mem_of_getElem? hm)
      exact absurd htrue Bool.false_ne_true

end Invariant

section Signal

variable {s : LargeNeighbourhoodSearch Sol}

-- a move after the signal
def signalled (currentsol : Sol) (m : LNSMove Sol) : LNSMove Sol :=
  match m.queryGetRandVarDomain with
  | none => m
  | some query =>
    { m with randomVariablesDomain := some (query currentsol), enable := m.enable && !(query currentsol).isEmpty }

theorem getElem?_disableMove (s : LargeNeighbourhoodSearch Sol) (i j : ℕ) :
    (s.disableMove i).lConcreteMovemodelling[j]? =
      if i = j then s.lConcreteMovemodelling[j]?.map fun m => { m with enable := false }
      else s.lConcreteMovemodelling[j]? := by
  have hat : s.moveAt i = s.lConcreteMovemodelling[i]? := by
    rw [moveAt, if_neg (Int.not_lt.mpr (Int.natCast_nonneg i)), Int.toNat_natCast]
  unfold disableMove
  rw [hat]
  cases hi : s.lConcreteMovemodelling[i]? with
  | none =>
    split_ifs with hij
    · rw [← hij, hi, Option.map_none]
    · rfl
  | some m =>
    dsimp only
    split_ifs with hm hij hij
    · rw [← hij, hi, Option.map_some, ← hm]
    · rfl
    · rw [Int.toNat_natCast, getElem?_setMove hi, if_pos hij, ← hij, hi, Option.map_some]
    · rw [Int.toNat_natCast, getElem?_setMove hi, if_neg hij]

theorem getElem?_signalMove (currentsol : Sol) (s : LargeNeighbourhoodSearch Sol) (i j : ℕ) :
    (signalMove currentsol s i).lConcreteMovemodelling[j]? =
      if i = j then s.lConcreteMovemodelling[j]?.map (signalled currentsol) else s.lConcreteMovemodelling[j]? := by
  cases hi : s.lConcreteMovemodelling[i]? with
  | none =>
    simp only [signalMove, hi]
    split_ifs with hij
    · rw [← hij, hi, Option.map_none]
    · rfl
  | some m =>
    cases hm : m.queryGetRandVarDomain with
    | none =>
      simp only [signalMove, hi, hm]
      split_ifs with hij
      · rw [← hij, hi, Option.map_some, signalled, hm]
      · rfl
    | some query =>
      simp only [signalMove, hi, hm, LNSMove.resetRandomVariablesDomain]
      by_cases hempty : query currentsol = []
      · rw [if_pos (by simp [hempty]), getElem?_disableMove, getElem?_setMove hi]
        split_ifs with hij
        · simp [← hij, hi, signalled, hm, hempty]
        · rfl
      · rw [if_neg (by simp [hempty]), getElem?_setMove hi]
        split_ifs with hij
        · simp [← hij, hi, signalled, hm, hempty]
        · rfl

theorem signalChangeCurrentSolution_moves (s : LargeNeighbourhoodSearch Sol) (currentsol : Sol) (j : ℕ) :
    (s.signalChangeCurrentSolution currentsol).lConcreteMovemodelling[j]? =
      s.lConcreteMovemodelling[j]?.map (signalled currentsol) := by
  have hrange : ∀ n, ((List.range n).foldl (signalMove currentsol) s).lConcreteMovemodelling[j]? =
      if j < n then s.lConcreteMovemodelling[j]?.map (signalled currentsol) else s.lConcreteMovemodelling[j]? := by
    intro n
    induction n with
    | zero => rfl
    | succ n ih =>
      rw [List.range_succ, List.foldl_append, List.foldl_cons, List.foldl_nil, getElem?_signalMove, ih]
      split_ifs <;> first | rfl | omega
  rw [signalChangeCurrentSolution, hrange]
  split_ifs with hj
  · rfl
  · rw [List.getElem?_eq_none (Nat.le_of_not_lt hj), Option.map_none]

end Signal

-- a move with a query is enabled exactly when it has a random variable for the solution
def EnabledWithDomain (currentsol : Sol) (s : LargeNeighbourhoodSearch Sol) : Prop :=
  ∀ m ∈ s.lConcreteMovemodelling, ∀ query, m.queryGetRandVarDomain = some query →
    (m.enable = true ↔ query currentsol ≠ [])

-- no move that is disabled has a random variable for the solution
def NoneToEnable (currentsol : Sol) (s : LargeNeighbourhoodSearch Sol) : Prop :=
  ∀ m ∈ s.lConcreteMovemodelling, ∀ query, m.queryGetRandVarDomain = some query →
    m.enable = false → query currentsol = []

theorem enabledWithDomain_iff (s : LargeNeighbourhoodSearch Sol) (currentsol : Sol) :
    EnabledWithDomain currentsol (s.signalChangeCurrentSolution currentsol) ↔ NoneToEnable currentsol s := by
  have hmoves : (s.signalChangeCurrentSolution currentsol).lConcreteMovemodelling =
      s.lConcreteMovemodelling.map (signalled currentsol) :=
    List.ext_getElem? fun j => by rw [signalChangeCurrentSolution_moves, List.getElem?_map]
  unfold EnabledWithDomain NoneToEnable
  rw [hmoves, List.forall_mem_map]
  refine forall₂_congr fun m _ => ?_
  cases hq : m.queryGetRandVarDomain with
  | none => simp [signalled, hq]
  | some query =>
    have hquery : (signalled currentsol m).queryGetRandVarDomain = some query := by simp only [signalled, hq]
    have henable : (signalled currentsol m).enable = (m.enable && !(query currentsol).isEmpty) := by
      simp only [signalled, hq]
    simp only [hquery, henable, Option.some.injEq, forall_eq', Bool.and_eq_true, Bool.not_eq_true', ne_eq]
    cases m.enable <;> simp

theorem calls_enabled (listmovemodelling : List (Option (RandVarDomain Sol))) (l : List (Call Sol)) (currentsol : Sol) :
    Invariant ((processInputData listmovemodelling).calls l) ∧
      (EnabledWithDomain currentsol
          (((processInputData listmovemodelling).calls l).signalChangeCurrentSolution currentsol) ↔
        NoneToEnable currentsol ((processInputData listmovemodelling).calls l)) :=
  ⟨(invariant_processInputData listmovemodelling).calls l, enabledWithDomain_iff _ currentsol⟩

-- one random variable, in the solution true only
def onlyTrue : RandVarDomain Bool
  | true => [[.int 1]]
  | false => []

-- the move that is disabled for the solution false stays so for the solution true
theorem calls_enabled_again : ¬ ∀ (listmovemodelling : List (Option (RandVarDomain Bool))) (l : List (Call Bool))
    (currentsol : Bool), EnabledWithDomain currentsol
      (((processInputData listmovemodelling).calls l).signalChangeCurrentSolution currentsol) := by
  intro h
  have hflag := h [some onlyTrue] [.signalChangeCurrentSolution false] true
    ⟨false, some onlyTrue, some [[.int 1]]⟩ (List.mem_singleton_self _) onlyTrue rfl
  exact absurd (hflag.mpr (List.cons_ne_nil _ _)) Bool.false_ne_true

end LargeNeighbourhoodSearch

end LocalSearch
