import DeclarativeLocalSearch.Foundation.Odometer
import DeclarativeLocalSearch.Structure.UnionTable

namespace Structure

inductive TableSizeType where
  | approximated
  | infinite
  | exact
  deriving DecidableEq, Repr

structure Tablesize where
  type : TableSizeType
  size : ℤ
  deriving DecidableEq, Repr

def tablesize (type : TableSizeType) (size : ℤ) : Tablesize :=
  ⟨type, if type = .infinite then 0 else size⟩

def longLong (n : ℤ) : ℤ := n.bmod (2 ^ 64)

-- a sort table is known by what its iterator gives: the element after n steps, none at the end
structure SortTable (D : Type) where
  element : ℕ → Option D
  ends : ∀ n, element n = none → element (n + 1) = none
  injective : ∀ m n d, element m = some d → element n = some d → m = n
  contains : D → Bool
  contains_iff : ∀ d, contains d = true ↔ ∃ n, element n = some d
  size : Tablesize

abbrev Universe (D : Type) := List (SortTable D)

structure SizedPredTable (D : Type) extends InternalPredTable D where
  size : Tablesize

variable {D : Type}

namespace SortTable

def Finite (t : SortTable D) : Prop := ∃ n, t.element n = none

def wheel (t : SortTable D) : Odometer.Wheel := fun n => (t.element n).isSome

theorem wheel_closed (t : SortTable D) : t.wheel.Closed := by
  intro n h
  by_contra hn
  have hnone : t.element n = none := by simpa [wheel] using hn
  simp [wheel, t.ends n hnone] at h

theorem wheel_finite (t : SortTable D) : t.wheel.Finite ↔ t.Finite := by
  simp [Odometer.Wheel.Finite, wheel, Finite]

end SortTable

namespace Universe

def contains : Universe D → List D → Bool
  | t :: ts, d :: ds => t.contains d && contains ts ds
  | [], _ :: _ => false
  | _, [] => true

def sizeFrom (currsize : ℤ) (tst : TableSizeType) : Universe D → Tablesize
  | [] => tablesize tst currsize
  | t :: ts =>
    match t.size.type with
    | .exact => sizeFrom (longLong (currsize * t.size.size)) tst ts
    | .approximated => sizeFrom (longLong (currsize * t.size.size)) .approximated ts
    | .infinite => tablesize .infinite (2 ^ 64 - 1)

def size (univ : Universe D) : Tablesize := sizeFrom 1 .exact univ

def wheels (univ : Universe D) : List Odometer.Wheel := univ.map SortTable.wheel

-- the tuple of the elements at the given positions
def tupleAt : Universe D → List ℕ → List D
  | t :: ts, n :: ns => (t.element n).toList ++ tupleAt ts ns
  | _, _ => []

def IsTuple (univ : Universe D) (ds : List D) : Prop :=
  ds.length = univ.length ∧ contains univ ds = true

def Finite (univ : Universe D) : Prop :=
  (∃ t ∈ univ, t.element 0 = none) ∨ ∀ t ∈ univ, t.Finite

-- before an infinite sort there are first elements only
def InOrder : Universe D → List D → Prop
  | t :: ts, d :: ds => (t.element 0 = some d ∨ ∀ u ∈ ts, u.Finite) ∧ InOrder ts ds
  | _, _ => True

variable {univ : Universe D} {ns ms : List ℕ} {ds : List D}

theorem valid_iff : Odometer.Valid (wheels univ) ns ↔
    List.Forall₂ (fun t n => (t.element n).isSome = true) univ ns := by
  rw [Odometer.Valid, wheels, List.forall₂_map_left_iff]
  rfl

theorem isTuple_tupleAt (h : Odometer.Valid (wheels univ) ns) : IsTuple univ (tupleAt univ ns) := by
  rw [valid_iff] at h
  induction h with
  | nil => exact ⟨rfl, rfl⟩
  | @cons t n ts ns hn _ ih =>
    obtain ⟨d, hd⟩ := Option.isSome_iff_exists.mp hn
    rw [tupleAt, hd]
    refine ⟨congrArg Nat.succ ih.1, ?_⟩
    exact Bool.and_eq_true_iff.mpr ⟨(t.contains_iff d).mpr ⟨n, hd⟩, ih.2⟩

theorem exists_tupleAt (h : IsTuple univ ds) :
    ∃ ns, Odometer.Valid (wheels univ) ns ∧ tupleAt univ ns = ds := by
  simp only [valid_iff]
  induction univ generalizing ds with
  | nil =>
    obtain rfl : ds = [] := List.length_eq_zero_iff.mp h.1
    exact ⟨[], List.Forall₂.nil, rfl⟩
  | cons t ts ih =>
    cases ds with
    | nil => exact absurd h.1 (by simp)
    | cons d ds =>
      obtain ⟨hd, hds⟩ := Bool.and_eq_true_iff.mp h.2
      obtain ⟨n, hn⟩ := (t.contains_iff d).mp hd
      obtain ⟨ns, hns, rfl⟩ := ih ⟨Nat.succ.inj h.1, hds⟩
      exact ⟨n :: ns, List.Forall₂.cons (by simp [hn]) hns, by simp [tupleAt, hn]⟩

theorem tupleAt_injective (hn : Odometer.Valid (wheels univ) ns)
    (hm : Odometer.Valid (wheels univ) ms) (h : tupleAt univ ns = tupleAt univ ms) : ns = ms := by
  rw [valid_iff] at hn hm
  induction hn generalizing ms with
  | nil =>
    cases hm
    rfl
  | @cons t n ts ns hn _ ih =>
    cases hm with
    | @cons _ m _ ms hm hms =>
      obtain ⟨d, hd⟩ := Option.isSome_iff_exists.mp hn
      obtain ⟨e, he⟩ := Option.isSome_iff_exists.mp hm
      rw [tupleAt, tupleAt, hd, he] at h
      obtain ⟨rfl, htail⟩ := List.cons.inj h
      rw [t.injective n m d hd he, ih hms htail]

theorem settled_iff (h : Odometer.Valid (wheels univ) ns) :
    Odometer.Settled (wheels univ) ns ↔ InOrder univ (tupleAt univ ns) := by
  rw [valid_iff] at h
  induction h with
  | nil => exact Iff.rfl
  | @cons t n ts ns hn _ ih =>
    obtain ⟨d, hd⟩ := Option.isSome_iff_exists.mp hn
    have hfirst : n = 0 ↔ t.element 0 = some d :=
      ⟨fun h => h ▸ hd, fun h => t.injective n 0 d hd h⟩
    have hfin : (∀ w ∈ wheels ts, w.Finite) ↔ ∀ u ∈ ts, u.Finite := by
      simp [wheels, SortTable.wheel_finite]
    rw [tupleAt, hd, wheels, List.map_cons]
    exact and_congr (or_congr hfirst hfin) ih

end Universe

structure InverseInternalIterator where
  curr : List ℕ
  isEnd : Bool
  deriving DecidableEq, Repr

namespace InverseInternalIterator

variable (outtable : SizedPredTable D) (univ : Universe D)

def currtuple (it : InverseInternalIterator) : List D := univ.tupleAt it.curr

-- the loop runs until its fuel is spent
def next : ℕ → InverseInternalIterator → Option InverseInternalIterator
  | 0, _ => none
  | fuel + 1, it =>
    let (curr, carried) := Odometer.turn univ.wheels it.curr
    if carried then some ⟨curr, true⟩
    else if outtable.contains ⟨univ.tupleAt curr⟩ then next fuel ⟨curr, it.isEnd⟩
    else some ⟨curr, it.isEnd⟩

def begin (fuel : ℕ) : Option InverseInternalIterator :=
  let curr := Odometer.start univ.wheels
  if univ.any (fun t => (t.element 0).isNone) || outtable.size.size = univ.size.size then
    some ⟨curr, true⟩
  else if outtable.contains ⟨univ.tupleAt curr⟩ then next outtable univ fuel ⟨curr, false⟩
  else some ⟨curr, false⟩

inductive Reaches : ℕ → InverseInternalIterator → Prop where
  | begin {fuel : ℕ} {it : InverseInternalIterator} : begin outtable univ fuel = some it → Reaches 0 it
  | next {k fuel : ℕ} {it it' : InverseInternalIterator} : Reaches k it → it.isEnd = false →
      next outtable univ fuel it = some it' → Reaches (k + 1) it'

def Inverse (ds : List D) : Prop := univ.IsTuple ds ∧ outtable.contains ⟨ds⟩ = false

structure EnumeratesInverse : Prop where
  begins : ∃ it, Reaches outtable univ 0 it
  returns : ∀ k it, Reaches outtable univ k it → it.isEnd = false →
    ∃ it', Reaches outtable univ (k + 1) it'
  exact : ∀ ds, (∃ k it, Reaches outtable univ k it ∧ it.isEnd = false ∧ it.currtuple univ = ds) ↔
    Inverse outtable univ ds
  once : ∀ k k' it it', Reaches outtable univ k it → Reaches outtable univ k' it' →
    it.isEnd = false → it'.isEnd = false → it.currtuple univ = it'.currtuple univ → k = k'
  immediate : ∀ it, Reaches outtable univ 0 it → it.isEnd = true →
    ∀ ds, univ.IsTuple ds → outtable.contains ⟨ds⟩ = true

def SameSize : Prop := outtable.size.size = univ.size.size

def Enumerable : Prop :=
  (SameSize outtable univ → ∀ ds, ¬ Inverse outtable univ ds) ∧
    (¬ SameSize outtable univ →
      (∀ ds, Inverse outtable univ ds → univ.InOrder ds) ∧
        (univ.Finite ∨ {ds | Inverse outtable univ ds}.Infinite))

section Search

open Odometer Relation

variable {outtable univ} {a b c : List ℕ} {it it' : InverseInternalIterator} {fuel : ℕ}

theorem next_of_turn (h : Turn univ.wheels a b) (e : Bool) :
    next outtable univ (fuel + 1) ⟨a, e⟩ =
      if outtable.contains ⟨univ.tupleAt b⟩ then next outtable univ fuel ⟨b, e⟩ else some ⟨b, e⟩ := by
  rw [next, h]
  rfl

theorem next_of_carry (h : turn univ.wheels a = (b, true)) (e : Bool) :
    next outtable univ (fuel + 1) ⟨a, e⟩ = some ⟨b, true⟩ := by
  rw [next, h]
  rfl

theorem turn_or_carry (ws : List Wheel) (a : List ℕ) :
    (∃ b, Turn ws a b) ∨ ∃ b, turn ws a = (b, true) := by
  rcases h : turn ws a with ⟨b, _ | _⟩
  · exact Or.inl ⟨b, h⟩
  · exact Or.inr ⟨b, rfl⟩

-- the turns over tuples of the table
abbrev Passes (outtable : SizedPredTable D) (univ : Universe D) : List ℕ → List ℕ → Prop :=
  ReflTransGen fun a b => Turn univ.wheels a b ∧ outtable.contains ⟨univ.tupleAt b⟩ = true

theorem next_sound (h : next outtable univ fuel ⟨a, false⟩ = some it) :
    if it.isEnd then ∃ b, Turns univ.wheels a b ∧ turn univ.wheels b = (it.curr, true)
    else ∃ b, Turns univ.wheels a b ∧ Turn univ.wheels b it.curr ∧
      outtable.contains ⟨univ.tupleAt it.curr⟩ = false := by
  induction fuel generalizing a with
  | zero => cases h
  | succ fuel ih =>
    rcases turn_or_carry univ.wheels a with ⟨b, hb⟩ | ⟨b, hb⟩
    · rw [next_of_turn hb] at h
      split_ifs at h with hc
      · have ih := ih h
        split_ifs at ih ⊢ with hend
        · obtain ⟨c, hbc, hcarry⟩ := ih
          exact ⟨c, ReflTransGen.head hb hbc, hcarry⟩
        · obtain ⟨c, hbc, hturn, hnot⟩ := ih
          exact ⟨c, ReflTransGen.head hb hbc, hturn, hnot⟩
      · cases h
        exact ⟨a, ReflTransGen.refl, hb, by simpa using hc⟩
    · rw [next_of_carry hb] at h
      cases h
      exact ⟨a, ReflTransGen.refl, hb⟩

theorem next_finds (h : Passes outtable univ a b) (hc : Turn univ.wheels b c)
    (hnot : outtable.contains ⟨univ.tupleAt c⟩ = false) :
    ∃ fuel, next outtable univ fuel ⟨a, false⟩ = some ⟨c, false⟩ := by
  induction h using ReflTransGen.head_induction_on with
  | refl => exact ⟨1, by rw [next_of_turn hc, hnot]; rfl⟩
  | head hab _ ih =>
    obtain ⟨fuel, hfuel⟩ := ih
    exact ⟨fuel + 1, by rw [next_of_turn hab.1, if_pos hab.2, hfuel]⟩

theorem next_returns (h : Turns univ.wheels a b)
    (hb : (∃ c, turn univ.wheels b = (c, true)) ∨
      a ≠ b ∧ outtable.contains ⟨univ.tupleAt b⟩ = false) :
    ∃ fuel it, next outtable univ fuel ⟨a, false⟩ = some it := by
  induction h using ReflTransGen.head_induction_on with
  | refl =>
    obtain ⟨c, hc⟩ := hb.resolve_right fun h => h.1 rfl
    exact ⟨1, _, next_of_carry hc false⟩
  | @head a a' haa' _ ih =>
    cases hskip : outtable.contains ⟨univ.tupleAt a'⟩ with
    | false => exact ⟨1, ⟨a', false⟩, by rw [next_of_turn haa', hskip]; rfl⟩
    | true =>
      have hne : outtable.contains ⟨univ.tupleAt b⟩ = false → a' ≠ b := by
        rintro h rfl
        exact absurd (hskip.symm.trans h) Bool.noConfusion
      have hb' := hb.imp_right fun h => And.intro (hne h.2) h.2
      obtain ⟨fuel, it, hfuel⟩ := ih hb'
      exact ⟨fuel + 1, it, by rw [next_of_turn haa', if_pos hskip, hfuel]⟩

theorem next_succ (h : next outtable univ fuel it = some it') :
    next outtable univ (fuel + 1) it = some it' := by
  induction fuel generalizing it with
  | zero => cases h
  | succ fuel ih =>
    obtain ⟨a, e⟩ := it
    rcases turn_or_carry univ.wheels a with ⟨b, hb⟩ | ⟨b, hb⟩
    · rw [next_of_turn hb] at h ⊢
      split_ifs at h ⊢
      · exact ih h
      · exact h
    · rw [next_of_carry hb] at h ⊢
      exact h

theorem next_deterministic {fuel' : ℕ} {it'' : InverseInternalIterator}
    (h : next outtable univ fuel it = some it') (h' : next outtable univ fuel' it = some it'') :
    it' = it'' := by
  have more : ∀ {n m : ℕ} {x : InverseInternalIterator}, n ≤ m → next outtable univ n it = some x →
      next outtable univ m it = some x := by
    intro n m x hle hn
    induction hle with
    | refl => exact hn
    | step _ ih => exact next_succ ih
  have h1 := more (Nat.le_max_left fuel fuel') h
  have h2 := more (Nat.le_max_right fuel fuel') h'
  exact Option.some.inj (h1.symm.trans h2)

end Search

section Run

open Odometer Relation

variable {outtable univ} {k k' fuel : ℕ} {it it' : InverseInternalIterator} {a b : List ℕ}

def EndsAtOnce (outtable : SizedPredTable D) (univ : Universe D) : Prop :=
  (∃ t ∈ univ, t.element 0 = none) ∨ SameSize outtable univ

theorem begin_of_end (h : EndsAtOnce outtable univ) (fuel : ℕ) :
    begin outtable univ fuel = some ⟨start univ.wheels, true⟩ := by
  rw [begin, if_pos]
  simpa [EndsAtOnce, SameSize] using h

theorem begin_of_start (h : ¬ EndsAtOnce outtable univ) (fuel : ℕ) :
    begin outtable univ fuel =
      if outtable.contains ⟨univ.tupleAt (start univ.wheels)⟩ then
        next outtable univ fuel ⟨start univ.wheels, false⟩
      else some ⟨start univ.wheels, false⟩ := by
  rw [begin, if_neg]
  simpa [EndsAtOnce, SameSize] using h

theorem begin_deterministic {fuel' : ℕ} (h : begin outtable univ fuel = some it)
    (h' : begin outtable univ fuel' = some it') : it = it' := by
  by_cases hend : EndsAtOnce outtable univ
  · rw [begin_of_end hend] at h h'
    exact Option.some.inj (h.symm.trans h')
  · rw [begin_of_start hend] at h h'
    split_ifs at h h'
    · exact next_deterministic h h'
    · exact Option.some.inj (h.symm.trans h')

theorem reaches_deterministic (h : Reaches outtable univ k it) (h' : Reaches outtable univ k it') :
    it = it' := by
  induction h generalizing it' with
  | begin hb =>
    cases h' with
    | begin hb' => exact begin_deterministic hb hb'
  | next _ _ hn ih =>
    cases h' with
    | next hr' _ hn' =>
      obtain rfl := ih hr'
      exact next_deterministic hn hn'

theorem first_of_not_end (h : ¬ EndsAtOnce outtable univ) : ∀ w ∈ univ.wheels, w 0 = true := by
  intro w hw
  obtain ⟨t, ht, rfl⟩ := List.mem_map.mp hw
  rw [SortTable.wheel, Option.isSome_iff_ne_none]
  exact fun hnone => h (Or.inl ⟨t, ht, hnone⟩)

theorem reaches_spec (hs : ¬ EndsAtOnce outtable univ) (h : Reaches outtable univ k it) :
    if it.isEnd then ∀ w ∈ univ.wheels, w.Finite
    else Turns univ.wheels (start univ.wheels) it.curr ∧
      outtable.contains ⟨univ.tupleAt it.curr⟩ = false := by
  have h0 := first_of_not_end hs
  have step : ∀ {fuel : ℕ} {a : List ℕ} {it : InverseInternalIterator},
      Turns univ.wheels (start univ.wheels) a → next outtable univ fuel ⟨a, false⟩ = some it →
      if it.isEnd then ∀ w ∈ univ.wheels, w.Finite
      else Turns univ.wheels (start univ.wheels) it.curr ∧
        outtable.contains ⟨univ.tupleAt it.curr⟩ = false := by
    intro fuel a it ha hn
    have hsound := next_sound hn
    split_ifs at hsound ⊢
    · obtain ⟨b, hab, hcarry⟩ := hsound
      exact (carry_start (turns_valid h0 (start_valid h0) (ha.trans hab)) hcarry).2
    · obtain ⟨b, hab, hturn, hnot⟩ := hsound
      exact ⟨(ha.trans hab).tail hturn, hnot⟩
  induction h with
  | @begin fuel it hb =>
    rw [begin_of_start hs] at hb
    split_ifs at hb with hc
    · exact step ReflTransGen.refl hb
    · cases hb
      exact ⟨ReflTransGen.refl, by simpa using hc⟩
  | @next k fuel it it' _ hnend hn ih =>
    rw [if_neg (by simp [hnend])] at ih
    obtain ⟨a, e⟩ := it
    obtain rfl : e = false := hnend
    exact step ih.1 hn

theorem next_lt (h : next outtable univ fuel ⟨a, false⟩ = some it) (hend : it.isEnd = false) :
    a < it.curr := by
  have hsound := next_sound h
  rw [if_neg (by simp [hend])] at hsound
  obtain ⟨b, hab, hturn, -⟩ := hsound
  exact lt_of_le_of_lt (turns_le hab) (turn_lt hturn)

theorem reaches_lt (h : Reaches outtable univ k it) (h' : Reaches outtable univ k' it')
    (hlt : k < k') (hend : it'.isEnd = false) : it.curr < it'.curr := by
  induction h' with
  | begin => exact absurd hlt (Nat.not_lt_zero k)
  | @next k' fuel it1 it2 hr hnend hn ih =>
    obtain ⟨a, e⟩ := it1
    obtain rfl : e = false := hnend
    have hstep : a < it2.curr := next_lt hn hend
    rcases Nat.lt_succ_iff_lt_or_eq.mp hlt with hlt | rfl
    · exact lt_trans (ih hlt rfl) hstep
    · rw [reaches_deterministic h hr]
      exact hstep

theorem reaches_of_turns (hs : ¬ EndsAtOnce outtable univ)
    (h : Turns univ.wheels (start univ.wheels) b) :
    (∃ k a, Reaches outtable univ k ⟨a, false⟩ ∧ Passes outtable univ a b) ∨
      outtable.contains ⟨univ.tupleAt (start univ.wheels)⟩ = true ∧
        Passes outtable univ (start univ.wheels) b := by
  induction h with
  | refl =>
    cases hc : outtable.contains ⟨univ.tupleAt (start univ.wheels)⟩ with
    | true => exact Or.inr ⟨rfl, ReflTransGen.refl⟩
    | false =>
      have hbegin : begin outtable univ 0 = some ⟨start univ.wheels, false⟩ := by
        rw [begin_of_start hs, hc]
        rfl
      exact Or.inl ⟨0, start univ.wheels, Reaches.begin hbegin, ReflTransGen.refl⟩
  | @tail b c _ hturn ih =>
    cases hc : outtable.contains ⟨univ.tupleAt c⟩ with
    | true =>
      rcases ih with ⟨k, a, hr, hp⟩ | ⟨h0, hp⟩
      · exact Or.inl ⟨k, a, hr, hp.tail ⟨hturn, hc⟩⟩
      · exact Or.inr ⟨h0, hp.tail ⟨hturn, hc⟩⟩
    | false =>
      rcases ih with ⟨k, a, hr, hp⟩ | ⟨h0, hp⟩
      · obtain ⟨fuel, hfuel⟩ := next_finds hp hturn hc
        exact Or.inl ⟨k + 1, c, Reaches.next hr rfl hfuel, ReflTransGen.refl⟩
      · obtain ⟨fuel, hfuel⟩ := next_finds hp hturn hc
        have hbegin : begin outtable univ fuel = some ⟨c, false⟩ := by
          rw [begin_of_start hs, if_pos h0, hfuel]
        exact Or.inl ⟨0, c, Reaches.begin hbegin, ReflTransGen.refl⟩

theorem reaches_of_not_contains (hs : ¬ EndsAtOnce outtable univ)
    (h : Turns univ.wheels (start univ.wheels) b) (hb : outtable.contains ⟨univ.tupleAt b⟩ = false) :
    ∃ k, Reaches outtable univ k ⟨b, false⟩ := by
  have last : ∀ {a : List ℕ}, Passes outtable univ a b → a = b := by
    intro a hp
    rcases ReflTransGen.cases_tail hp with h | ⟨c, -, -, hc⟩
    · exact h.symm
    · exact absurd (hc.symm.trans hb) Bool.noConfusion
  rcases reaches_of_turns hs h with ⟨k, a, hr, hp⟩ | ⟨h0, hp⟩
  · exact ⟨k, last hp ▸ hr⟩
  · rw [last hp, hb] at h0
    exact absurd h0 Bool.noConfusion

theorem wheels_closed (univ : Universe D) : ∀ w ∈ univ.wheels, w.Closed := by
  intro w hw
  obtain ⟨t, -, rfl⟩ := List.mem_map.mp hw
  exact t.wheel_closed

theorem wheels_finite : (∀ w ∈ univ.wheels, w.Finite) ↔ ∀ t ∈ univ, t.Finite := by
  simp [Universe.wheels, SortTable.wheel_finite]

theorem turns_iff (hs : ¬ EndsAtOnce outtable univ) :
    Turns univ.wheels (start univ.wheels) a ↔
      Valid univ.wheels a ∧ univ.InOrder (univ.tupleAt a) := by
  rw [turns_start_iff (wheels_closed univ) (first_of_not_end hs)]
  exact and_congr_right fun hv => Universe.settled_iff hv

theorem reached_iff (hs : ¬ EndsAtOnce outtable univ) (ds : List D) :
    (∃ k it, Reaches outtable univ k it ∧ it.isEnd = false ∧ it.currtuple univ = ds) ↔
      Inverse outtable univ ds ∧ univ.InOrder ds := by
  constructor
  · rintro ⟨k, it, hr, hend, rfl⟩
    have hspec := reaches_spec hs hr
    rw [if_neg (by simp [hend]), turns_iff hs] at hspec
    obtain ⟨⟨hv, ho⟩, hnot⟩ := hspec
    exact ⟨⟨Universe.isTuple_tupleAt hv, hnot⟩, ho⟩
  · rintro ⟨⟨ht, hnot⟩, ho⟩
    obtain ⟨ns, hv, rfl⟩ := Universe.exists_tupleAt ht
    obtain ⟨k, hr⟩ := reaches_of_not_contains hs ((turns_iff hs).mpr ⟨hv, ho⟩) hnot
    exact ⟨k, ⟨ns, false⟩, hr, rfl, rfl⟩

theorem search_returns (hs : ¬ EndsAtOnce outtable univ)
    (ho : ∀ ds, Inverse outtable univ ds → univ.InOrder ds)
    (hf : univ.Finite ∨ {ds | Inverse outtable univ ds}.Infinite)
    (ha : Turns univ.wheels (start univ.wheels) a) :
    ∃ fuel it, next outtable univ fuel ⟨a, false⟩ = some it := by
  have h0 := first_of_not_end hs
  rcases hf with hfin | hinf
  · have hall : ∀ t ∈ univ, t.Finite := hfin.resolve_left fun h => hs (Or.inl h)
    obtain ⟨b, hab, hcarry⟩ := finite_carries (wheels_closed univ) h0 (wheels_finite.mpr hall)
      ((turns_iff hs).mp ha).1
    exact next_returns hab (Or.inl ⟨_, hcarry⟩)
  · obtain ⟨ds, hds, hnew⟩ := hinf.exists_notMem_finite ((between_finite ha).image univ.tupleAt)
    obtain ⟨b, hv, rfl⟩ := Universe.exists_tupleAt hds.1
    have hb := (turns_iff hs).mpr ⟨hv, ho _ hds⟩
    have hnot : ¬ Turns univ.wheels b a := fun hba => hnew ⟨b, ⟨hb, hba⟩, rfl⟩
    rcases turns_total ha hb with hab | hba
    · exact next_returns hab (Or.inr ⟨fun heq => hnot (heq ▸ ReflTransGen.refl), hds.2⟩)
    · exact absurd hba hnot

theorem infinite_of_enumerates (hs : ¬ EndsAtOnce outtable univ)
    (h : EnumeratesInverse outtable univ) (hinf : ¬ univ.Finite) :
    {ds | Inverse outtable univ ds}.Infinite := by
  have hnot : ∀ {k it}, Reaches outtable univ k it → it.isEnd = false := by
    intro k it hr
    by_contra hend
    have hspec := reaches_spec hs hr
    rw [if_pos (by simpa using hend)] at hspec
    exact hinf (Or.inr (wheels_finite.mp hspec))
  have hall : ∀ k, ∃ it, Reaches outtable univ k it := by
    intro k
    induction k with
    | zero => exact h.begins
    | succ k ih =>
      obtain ⟨it, hit⟩ := ih
      exact h.returns k it hit (hnot hit)
  choose it hit using hall
  have hinj : Function.Injective fun k => (it k).currtuple univ := fun k k' heq =>
    h.once k k' _ _ (hit k) (hit k') (hnot (hit k)) (hnot (hit k')) heq
  exact Set.infinite_of_injective_forall_mem hinj fun k =>
    (h.exact _).mp ⟨k, it k, hit k, hnot (hit k), rfl⟩

theorem once (hs : ¬ EndsAtOnce outtable univ) (h : Reaches outtable univ k it)
    (h' : Reaches outtable univ k' it') (hend : it.isEnd = false) (hend' : it'.isEnd = false)
    (heq : it.currtuple univ = it'.currtuple univ) : k = k' := by
  have hv : ∀ {k it}, Reaches outtable univ k it → it.isEnd = false → Valid univ.wheels it.curr := by
    intro k it hr hend
    have hspec := reaches_spec hs hr
    rw [if_neg (by simp [hend]), turns_iff hs] at hspec
    exact hspec.1.1
  have hcurr := Universe.tupleAt_injective (hv h hend) (hv h' hend') heq
  rcases lt_trichotomy k k' with hlt | heq | hgt
  · exact absurd hcurr (reaches_lt h h' hlt hend').ne
  · exact heq
  · exact absurd hcurr (reaches_lt h' h hgt hend).ne'

theorem reaches_of_end (hs : EndsAtOnce outtable univ) :
    Reaches outtable univ k it ↔ k = 0 ∧ it = ⟨start univ.wheels, true⟩ := by
  constructor
  · intro h
    induction h with
    | begin hb =>
      rw [begin_of_end hs] at hb
      exact ⟨rfl, (Option.some.inj hb).symm⟩
    | next _ hend _ ih =>
      rw [ih.2] at hend
      exact absurd hend Bool.noConfusion
  · rintro ⟨rfl, rfl⟩
    exact Reaches.begin (begin_of_end hs 0)

theorem enumerates_of_end (hs : EndsAtOnce outtable univ) :
    EnumeratesInverse outtable univ ↔ ∀ ds, ¬ Inverse outtable univ ds := by
  have hend : ∀ {k it}, Reaches outtable univ k it → it.isEnd = true := fun hr =>
    congrArg InverseInternalIterator.isEnd ((reaches_of_end hs).mp hr).2
  constructor
  · rintro h ds hds
    obtain ⟨k, it, hr, hnot, -⟩ := (h.exact ds).mpr hds
    exact absurd ((hend hr).symm.trans hnot) Bool.noConfusion
  · refine fun h => ⟨⟨_, (reaches_of_end hs).mpr ⟨rfl, rfl⟩⟩, ?_, ?_, ?_, ?_⟩
    · exact fun k it hr hnot => absurd ((hend hr).symm.trans hnot) Bool.noConfusion
    · refine fun ds => ⟨?_, fun hds => absurd hds (h ds)⟩
      rintro ⟨k, it, hr, hnot, -⟩
      exact absurd ((hend hr).symm.trans hnot) Bool.noConfusion
    · exact fun k k' it it' hr _ hnot => absurd ((hend hr).symm.trans hnot) Bool.noConfusion
    · exact fun it _ _ ds hds => by simpa using fun hc => h ds ⟨hds, hc⟩

theorem begins_before (h : Reaches outtable univ k it) (hend : it.isEnd = false) :
    ∃ it0, Reaches outtable univ 0 it0 ∧ it0.isEnd = false := by
  induction h with
  | begin hb => exact ⟨_, Reaches.begin hb, hend⟩
  | next _ hprev _ ih => exact ih hprev

theorem not_isTuple_of_empty {t : SortTable D} (ht : t ∈ univ) (hempty : t.element 0 = none)
    (ds : List D) : ¬ univ.IsTuple ds := by
  intro h
  obtain ⟨ns, hv, -⟩ := Universe.exists_tupleAt h
  obtain ⟨n, hn⟩ := hv.exists t.wheel (List.mem_map_of_mem ht)
  have hfirst := t.wheel_closed.of_le (Nat.zero_le n) hn
  rw [SortTable.wheel, hempty] at hfirst
  exact absurd hfirst Bool.noConfusion

theorem begins_of_returns (hs : ¬ EndsAtOnce outtable univ)
    (h : ∃ fuel it, next outtable univ fuel ⟨start univ.wheels, false⟩ = some it) :
    ∃ it, Reaches outtable univ 0 it := by
  cases hc : outtable.contains ⟨univ.tupleAt (start univ.wheels)⟩ with
  | true =>
    obtain ⟨fuel, it, hfuel⟩ := h
    exact ⟨it, Reaches.begin (by rw [begin_of_start hs, if_pos hc, hfuel])⟩
  | false =>
    exact ⟨_, Reaches.begin ((begin_of_start hs 0).trans (by rw [hc, if_neg Bool.false_ne_true]))⟩

theorem enumerates_iff (outtable : SizedPredTable D) (univ : Universe D) :
    EnumeratesInverse outtable univ ↔ Enumerable outtable univ := by
  by_cases hs : EndsAtOnce outtable univ
  · rw [enumerates_of_end hs]
    constructor
    · exact fun h => ⟨fun _ => h, fun hsize =>
        ⟨fun ds hds => absurd hds (h ds), Or.inl (Or.inl (hs.resolve_right hsize))⟩⟩
    · rintro h ds hds
      rcases hs with ⟨t, ht, hempty⟩ | hsize
      · exact not_isTuple_of_empty ht hempty ds hds.1
      · exact h.1 hsize ds hds
  · have hsize : ¬ SameSize outtable univ := fun h => hs (Or.inr h)
    constructor
    · intro h
      refine ⟨fun h => absurd h hsize, fun _ => ⟨fun ds hds => ?_, ?_⟩⟩
      · exact ((reached_iff hs ds).mp ((h.exact ds).mpr hds)).2
      · exact Classical.or_iff_not_imp_left.mpr (infinite_of_enumerates hs h)
    · intro h
      obtain ⟨ho, hf⟩ := h.2 hsize
      have hreturns := fun a => search_returns (a := a) hs ho hf
      refine ⟨begins_of_returns hs (hreturns _ ReflTransGen.refl), ?_, fun ds => ?_,
        fun _ _ _ _ => once hs, ?_⟩
      · intro k it hr hend
        have hspec := reaches_spec hs hr
        rw [if_neg (by simp [hend])] at hspec
        obtain ⟨fuel, it', hnext⟩ := hreturns _ hspec.1
        obtain ⟨a, e⟩ := it
        obtain rfl : e = false := hend
        exact ⟨it', Reaches.next hr rfl hnext⟩
      · exact (reached_iff hs ds).trans (and_iff_left_of_imp (ho ds))
      · intro it hr hend ds hds
        by_contra hc
        obtain ⟨k, it', hr', hnot, -⟩ :=
          (reached_iff hs ds).mpr ⟨⟨hds, by simpa using hc⟩, ho ds ⟨hds, by simpa using hc⟩⟩
        obtain ⟨it0, hr0, h0⟩ := begins_before hr' hnot
        rw [reaches_deterministic hr hr0, h0] at hend
        exact absurd hend Bool.noConfusion

end Run

section Infinite

def naturals : SortTable ℕ where
  element := some
  ends _ h := absurd h (Option.some_ne_none _)
  injective _ _ _ hm hn := Option.some.inj (hm.trans hn.symm)
  contains _ := true
  contains_iff d := ⟨fun _ => ⟨d, rfl⟩, fun _ => rfl⟩
  size := tablesize .infinite 0

def enumeratedPredTable [DecidableEq D] (table : List (Tuple D)) : SizedPredTable D where
  contains t := t ∈ table
  size := tablesize .exact table.length

-- all natural numbers are missing in the empty table, and none is given
theorem inverse_of_empty : ¬ EnumeratesInverse (enumeratedPredTable []) [naturals] := by
  have hs : EndsAtOnce (enumeratedPredTable []) [naturals] := Or.inr rfl
  rw [enumerates_of_end hs]
  exact fun h => h [0] ⟨⟨rfl, rfl⟩, rfl⟩

end Infinite

end InverseInternalIterator

end Structure
