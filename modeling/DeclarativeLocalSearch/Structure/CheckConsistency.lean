import DeclarativeLocalSearch.Foundation.SortedWalk

namespace CheckConsistency

-- a set of the source, with its tuples in increasing order
structure SortedElementTable (T : Type) [LinearOrder T] where
  tuples : List T
  sorted : tuples.Pairwise (· < ·)

-- in the order in which the sorts of a universe are walked over its tuples need not increase
inductive Universe (T : Type) where
  | finite (tuples : List T) (nodup : tuples.Nodup)
  | infinite (contains : T → Bool)

variable {T : Type} [LinearOrder T]

def Universe.contains : Universe T → T → Bool
  | .finite tuples _, tuple => tuple ∈ tuples
  | .infinite contains, tuple => contains tuple

-- an enumerated table, or the inverse of one
structure PredTable (T : Type) [LinearOrder T] where
  table : SortedElementTable T
  inverse : Bool

namespace PredTable

variable (univ : Universe T) (table : PredTable T)

def contains (tuple : T) : Bool :=
  if table.inverse then univ.contains tuple && !decide (tuple ∈ table.table.tuples) else tuple ∈ table.table.tuples

-- none is infinite
def size : Option ℕ :=
  if table.inverse then
    match univ with
    | .finite tuples _ => some (tuples.length - table.table.tuples.length)
    | .infinite _ => none
  else some table.table.tuples.length

def approxFinite : Bool := (table.size univ).isSome

-- the tuples that an iterator finds
def tuples : Option (List T) :=
  if table.inverse then
    match univ with
    | .finite tuples _ => some (tuples.filter fun tuple => !decide (tuple ∈ table.table.tuples))
    | .infinite _ => none
  else some table.table.tuples

end PredTable

-- of ct and pf one table is stored, and of cf and pt; ct and pt may be the same table
structure PredInter (T : Type) [LinearOrder T] where
  univ : Universe T
  ctpf : SortedElementTable T
  ctStored : Bool
  cfpt : SortedElementTable T
  cfStored : Bool
  shared : Bool
  ctpf_subset : ∀ tuple ∈ ctpf.tuples, univ.contains tuple = true
  cfpt_subset : ∀ tuple ∈ cfpt.tuples, univ.contains tuple = true
  shared_eq : shared = true → ctpf = cfpt ∧ ctStored = !cfStored

inductive IdpException where
  | notyetimplemented

namespace PredInter

variable (inter : PredInter T)

def ct : PredTable T := ⟨inter.ctpf, !inter.ctStored⟩
def pf : PredTable T := ⟨inter.ctpf, inter.ctStored⟩
def cf : PredTable T := ⟨inter.cfpt, !inter.cfStored⟩
def pt : PredTable T := ⟨inter.cfpt, inter.cfStored⟩

def lessSize : Option ℕ → Option ℕ → Bool
  | some m, some n => m < n
  | some _, none => true
  | none, _ => false

def ctSmallest : Bool := lessSize (inter.ct.size inter.univ) (inter.cf.size inter.univ)

def smallest : PredTable T := if inter.ctSmallest then inter.ct else inter.cf
def largest : PredTable T := if inter.ctSmallest then inter.cf else inter.ct
def sPossTable : PredTable T := if inter.ctSmallest then inter.pt else inter.pf

-- the tuples of the smallest table that are in the largest one
def inLargest : List T → List T → List T
  | [], _ => []
  | smallIt :: smallest, largest =>
    let largest := largest.dropWhile fun largeIt => largeIt < smallIt
    if largest.head? = some smallIt then smallIt :: inLargest smallest largest else inLargest smallest largest

-- those that are not in the possible counterpart of the smallest table
def notInPoss : List T → List T → List T
  | [], _ => []
  | smallIt :: smallest, sPossTable =>
    let sPossTable := sPossTable.dropWhile fun smallposIt => smallposIt < smallIt
    if sPossTable.head? = some smallIt then notInPoss smallest sPossTable
    else smallIt :: notInPoss smallest sPossTable

def checkConsistency : Except IdpException (List T) :=
  if inter.shared then .ok []
  else if !inter.ct.approxFinite inter.univ && !inter.cf.approxFinite inter.univ then .error .notyetimplemented
  else
    let smallest := (inter.smallest.tuples inter.univ).getD []
    if inter.largest.inverse then .ok (notInPoss smallest inter.sPossTable.table.tuples)
    else .ok (inLargest smallest inter.largest.table.tuples)

section Found

open SortedWalk

variable {smallest table : List T} {tuple : T}

theorem mem_inLargest_walk : tuple ∈ inLargest smallest table ↔ (tuple, true) ∈ walk id smallest table := by
  induction smallest generalizing table with
  | nil => simp [inLargest, walk]
  | cons smallIt smallest ih =>
    rw [inLargest, walk]
    simp only [id_eq, List.mem_cons, Prod.mk.injEq, ← ih]
    split_ifs with h <;> simp [h]

theorem mem_notInPoss_walk : tuple ∈ notInPoss smallest table ↔ (tuple, false) ∈ walk id smallest table := by
  induction smallest generalizing table with
  | nil => simp [notInPoss, walk]
  | cons smallIt smallest ih =>
    rw [notInPoss, walk]
    simp only [id_eq, List.mem_cons, Prod.mk.injEq, ← ih]
    split_ifs with h <;> simp [h]

theorem present_id : present id table tuple = decide (tuple ∈ table) := by
  rw [Bool.eq_iff_iff, present_iff, decide_eq_true_iff]
  simp

theorem mem_inLargest (h : table.Pairwise (· < ·)) (hsmallest : smallest.Nodup) :
    tuple ∈ inLargest smallest table ↔ tuple ∈ smallest ∧ tuple ∈ table ∧ passed smallest tuple = false := by
  have hle : table.Pairwise fun t t' => id t ≤ id t' := h.imp fun hlt => le_of_lt hlt
  rw [mem_inLargest_walk, mem_walk hle hsmallest, present_id, eq_comm (a := true)]
  simp

theorem mem_notInPoss (h : table.Pairwise (· < ·)) (hsmallest : smallest.Nodup) :
    tuple ∈ notInPoss smallest table ↔ tuple ∈ smallest ∧ (tuple ∈ table → passed smallest tuple = true) := by
  have hle : table.Pairwise fun t t' => id t ≤ id t' := h.imp fun hlt => le_of_lt hlt
  rw [mem_notInPoss_walk, mem_walk hle hsmallest, present_id, eq_comm (a := false)]
  simp

end Found

section Tables

variable {inter : PredInter T} {univ : Universe T} {table : PredTable T} {tuples : List T} {tuple : T}

theorem mem_tuples (h : table.tuples univ = some tuples) : tuple ∈ tuples ↔ table.contains univ tuple = true := by
  unfold PredTable.tuples at h
  unfold PredTable.contains
  split_ifs at h ⊢
  · cases univ with
    | finite univ nodup =>
      cases h
      simp [Universe.contains]
    | infinite contains => cases h
  · cases h
    simp

theorem nodup_tuples (h : table.tuples univ = some tuples) : tuples.Nodup := by
  unfold PredTable.tuples at h
  split_ifs at h
  · cases univ with
    | finite univ nodup =>
      cases h
      exact nodup.filter _
    | infinite contains => cases h
  · cases h
    exact table.table.sorted.imp fun hlt => ne_of_lt hlt

theorem tuples_isSome : (table.tuples univ).isSome = table.approxFinite univ := by
  unfold PredTable.tuples PredTable.approxFinite PredTable.size
  split_ifs
  · cases univ <;> rfl
  · rfl

theorem smallest_tuples (h : ¬ (!inter.ct.approxFinite inter.univ && !inter.cf.approxFinite inter.univ) = true) :
    ∃ tuples, inter.smallest.tuples inter.univ = some tuples := by
  rw [← Option.isSome_iff_exists, tuples_isSome]
  unfold smallest ctSmallest lessSize
  unfold PredTable.approxFinite at h ⊢
  cases hct : inter.ct.size inter.univ <;> cases hcf : inter.cf.size inter.univ
  · simp [hct, hcf] at h
  · simp [hcf]
  · simp [hct]
  · simp only
    split_ifs
    · rw [hct, Option.isSome_some]
    · rw [hcf, Option.isSome_some]

theorem sPossTable_table : inter.sPossTable.table = inter.largest.table := by
  unfold sPossTable largest
  split_ifs <;> rfl

theorem contains_smallest_largest : inter.smallest.contains inter.univ tuple = true ∧
    inter.largest.contains inter.univ tuple = true ↔
      inter.ct.contains inter.univ tuple = true ∧ inter.cf.contains inter.univ tuple = true := by
  unfold smallest largest
  split_ifs
  · rfl
  · exact and_comm

theorem smallest_subset : ∀ tuple ∈ inter.smallest.table.tuples, inter.univ.contains tuple = true := by
  unfold smallest
  split_ifs
  · exact inter.ctpf_subset
  · exact inter.cfpt_subset

theorem contains_univ (h : ∀ tuple ∈ table.table.tuples, univ.contains tuple = true)
    (htuple : table.contains univ tuple = true) : univ.contains tuple = true := by
  unfold PredTable.contains at htuple
  split_ifs at htuple
  · exact (Bool.and_eq_true _ _ ▸ htuple).1
  · exact h tuple (of_decide_eq_true htuple)

end Tables

-- no tuple of the smallest table that is also in the stored table behind the largest one comes after a greater tuple
def InOrder : Prop :=
  ∀ tuples, inter.smallest.tuples inter.univ = some tuples →
    ∀ tuple ∈ tuples, tuple ∈ inter.largest.table.tuples → SortedWalk.passed tuples tuple = false

def Computes : Prop :=
  ∃ found, inter.checkConsistency = .ok found ∧
    ∀ tuple, tuple ∈ found ↔ inter.ct.contains inter.univ tuple = true ∧ inter.cf.contains inter.univ tuple = true

theorem computes_shared (h : inter.shared = true) : inter.Computes := by
  obtain ⟨htable, hstored⟩ := inter.shared_eq h
  refine ⟨[], if_pos h, fun tuple => iff_of_false List.not_mem_nil ?_⟩
  rintro ⟨hct, hcf⟩
  simp only [PredTable.contains, ct, cf, htable, hstored] at hct hcf
  cases hcase : inter.cfStored <;> simp [hcase] at hct hcf <;> grind

local instance elements_neZero : NeZero 3 := ⟨by decide⟩

-- the elements in the order 1, 0, 2; 0 and 2 are certainly true, and 1 and 0 are certainly false
def unorderedUniverse : PredInter (Fin 3) where
  univ := .finite [1, 0, 2] (by decide)
  ctpf := ⟨[0, 2], by decide⟩
  ctStored := true
  cfpt := ⟨[2], by decide⟩
  cfStored := false
  shared := false
  ctpf_subset := by decide
  cfpt_subset := by decide
  shared_eq := nofun

end PredInter

end CheckConsistency
