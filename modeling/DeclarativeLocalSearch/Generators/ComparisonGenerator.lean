import DeclarativeLocalSearch.Foundation.Scan
import DeclarativeLocalSearch.Generators.SortGenAndChecker
import DeclarativeLocalSearch.Structure.SortTables
import DeclarativeLocalSearch.Theory.CardConstrToFO

set_option linter.unusedSectionVars false

namespace Generators

open Set Theory

inductive Input where
  | both
  | none
  | left
  | right
  deriving DecidableEq

inductive Side where
  | left
  | right
  deriving DecidableEq

def Side.other : Side → Side
  | .left => .right
  | .right => .left

structure ComparisonState where
  left : ℕ
  right : ℕ
  reset : Bool
  increaseouter : Bool

namespace ComparisonState

def position (s : ComparisonState) : Side → ℕ
  | .left => s.left
  | .right => s.right

def setPosition (s : ComparisonState) (side : Side) (i : ℕ) : ComparisonState :=
  match side with
  | .left => { s with left := i }
  | .right => { s with right := i }

def advance (s : ComparisonState) (side : Side) : ComparisonState := s.setPosition side (s.position side + 1)

end ComparisonState

structure ComparisonGenerator (V D : Type) where
  leftsort : SortTable D
  rightsort : SortTable D
  leftvar : V
  rightvar : V
  comparison : CompType
  input : Input

namespace ComparisonState

variable (s : ComparisonState) (side : Side) (i : ℕ)

@[simp] theorem position_setPosition : (s.setPosition side i).position side = i := by cases side <;> rfl

@[simp] theorem position_setPosition_other : (s.setPosition side i).position side.other = s.position side.other := by
  cases side <;> rfl

@[simp] theorem position_setPosition_of_other : (s.setPosition side.other i).position side = s.position side := by
  cases side <;> rfl

@[simp] theorem reset_setPosition : (s.setPosition side i).reset = s.reset := by cases side <;> rfl

@[simp] theorem increaseouter_setPosition : (s.setPosition side i).increaseouter = s.increaseouter := by
  cases side <;> rfl

end ComparisonState

variable {V D : Type} [LinearOrder D] [DecidableEq V]

def compares (comparison : CompType) (l r : D) : Bool :=
  match comparison with
  | .lt => decide (l < r)
  | .leq => decide (l ≤ r)
  | .gt => decide (l > r)
  | .geq => decide (l ≥ r)
  | .eq => decide (l = r)
  | .neq => decide (l ≠ r)

namespace ComparisonGenerator

-- the constructor, which turns the generator round when the right side is the input
def make (leftsort rightsort : SortTable D) (leftvalue rightvalue : V) (input : Input) (type : CompType) :
    ComparisonGenerator V D :=
  if input = .right then ⟨rightsort, leftsort, rightvalue, leftvalue, invertComp type, .left⟩
  else ⟨leftsort, rightsort, leftvalue, rightvalue, type, input⟩

variable (g : ComparisonGenerator V D)

def sort : Side → SortTable D
  | .left => g.leftsort
  | .right => g.rightsort

def var : Side → V
  | .left => g.leftvar
  | .right => g.rightvar

def isInput : Side → Bool
  | .left => g.input = .both || g.input = .left
  | .right => g.input = .both

-- no result: an iterator at its end is read
def elem (s : ComparisonState) (v : V → D) (side : Side) : Option D :=
  if g.isInput side then some (v (g.var side)) else (g.sort side).element (s.position side)

def correct (s : ComparisonState) (v : V → D) : Option Bool :=
  (g.elem s v .left).bind fun l => (g.elem s v .right).map fun r => compares g.comparison l r

def assign (s : ComparisonState) (side : Side) (v : V → D) : Option (V → D) :=
  if g.isInput side then some v
  else ((g.sort side).element (s.position side)).map (Function.update v (g.var side))

def checkAndSet (s : ComparisonState) (v : V → D) : Option (Bool × (V → D)) :=
  (g.correct s v).bind fun b =>
    if b then (g.assign s .left v).bind fun v => (g.assign s .right v).map fun v => (true, v)
    else some (false, v)

-- both loops, with a call for each round of either
def findNext (finiteside undefinedside : Side) (finiteGTorGEQundef : Bool) :
    ℕ → Object ComparisonState × (V → D) → Option (Object ComparisonState × (V → D))
  | 0, _ => none
  | n + 1, (s, v) =>
    match (g.sort finiteside).element (s.own.position finiteside) with
    | none => some ({ s with atEnd := true }, v)
    | some d =>
      if g.comparison ≠ .eq then
        let row := { s with own := (s.own.setPosition undefinedside 0).advance finiteside }
        match (g.sort undefinedside).element (s.own.position undefinedside) with
        | none => findNext finiteside undefinedside finiteGTorGEQundef n (row, v)
        | some _ => (g.checkAndSet s.own v).bind fun r =>
          if r.1 then some (s, r.2)
          else if finiteGTorGEQundef then findNext finiteside undefinedside finiteGTorGEQundef n (row, v)
          else findNext finiteside undefinedside finiteGTorGEQundef n ({ s with own := s.own.advance undefinedside }, v)
      else if (g.sort undefinedside).contains d then
        some ({ s with own.increaseouter := true },
          Function.update (Function.update v (g.var finiteside) d) (g.var undefinedside) d)
      else findNext finiteside undefinedside finiteGTorGEQundef n ({ s with own := s.own.advance finiteside }, v)

def scanRight : ℕ → Object ComparisonState × (V → D) → Option (Object ComparisonState × (V → D))
  | 0, _ => none
  | n + 1, (s, v) =>
    match g.rightsort.element s.own.right with
    | none => some ({ s with atEnd := true }, v)
    | some _ => (g.checkAndSet s.own v).bind fun r =>
      if r.1 then some (s, r.2)
      else if g.comparison = .geq ∨ g.comparison = .gt then some ({ s with atEnd := true }, v)
      else scanRight n ({ s with own := s.own.advance .right }, v)

def moveOn (s : ComparisonState) : ComparisonState :=
  if s.reset then { s with reset := false, left := 0, right := 0 }
  else if g.leftsort.finite then
    if s.increaseouter then { s.advance .left with increaseouter := false } else s.advance .right
  else
    if s.increaseouter then { s.advance .right with increaseouter := false } else s.advance .left

-- no result: the exception for an input that the constructor has turned round
def next (n : ℕ) (s : Object ComparisonState) (v : V → D) : Option (Object ComparisonState × (V → D)) :=
  match g.input with
  | .both =>
    if s.own.reset then
      (g.correct s.own v).map fun b =>
        if b then ({ s with own.reset := false }, v) else ({ s with atEnd := true }, v)
    else some ({ s with atEnd := true }, v)
  | .none =>
    if g.leftsort.finite then
      g.findNext .left .right (g.comparison = .gt || g.comparison = .geq) n ({ s with own := g.moveOn s.own }, v)
    else
      g.findNext .right .left (g.comparison = .lt || g.comparison = .leq) n ({ s with own := g.moveOn s.own }, v)
  | .left =>
    if s.own.reset then
      if g.comparison = .eq then
        if g.rightsort.contains (v g.leftvar) then
          some ({ s with own.reset := false }, Function.update v g.rightvar (v g.leftvar))
        else some (⟨true, { s.own with reset := false }⟩, v)
      else g.scanRight n ({ s with own := { s.own with reset := false, right := 0 } }, v)
    else
      if g.comparison = .eq then some ({ s with atEnd := true }, v)
      else g.scanRight n ({ s with own := s.own.advance .right }, v)
  | .right => none

def toInstGenerator : InstGenerator V D where
  State := ComparisonState
  reset _ s v := some ({ s with own.reset := true, own.increaseouter := false }, v)
  next := g.next

def outerSide : Side := if g.input = .none ∧ g.leftsort.finite = false then .right else .left

def once (d : D) (i : ℕ) : Option D := if i = 0 then some d else none

theorem once_eq_some {d a : D} {i : ℕ} : once d i = some a ↔ i = 0 ∧ d = a := by
  rw [once]
  split <;> simp [*]

def passes (a b : D) : Bool :=
  match g.outerSide with
  | .left => compares g.comparison a b
  | .right => compares g.comparison b a

def cut : Bool :=
  g.input ≠ .both && match g.outerSide with
  | .left => g.comparison = .gt || g.comparison = .geq
  | .right => g.comparison = .lt || g.comparison = .leq

-- the scan the generator makes: its outer entries, the row of each of them, and whether a row is left early
def scan (v : V → D) : Scan D D where
  outer := if g.input = .none then (g.sort g.outerSide).element else once (v g.leftvar)
  inner a :=
    if g.input = .both then once (v g.rightvar)
    else if g.comparison = .eq then
      if (g.sort g.outerSide.other).contains a then once a else fun _ => none
    else (g.sort g.outerSide.other).element
  pass := g.passes
  cut := g.cut

-- the iterators are at the place c, or nothing is to be found at one
def At (c : ℕ × ℕ) (s : ComparisonState) : Prop :=
  match g.input with
  | .none => s.position g.outerSide = c.1 ∧
      if g.comparison = .eq then s.increaseouter = true
      else s.increaseouter = false ∧ s.position g.outerSide.other = c.2
  | .left => g.comparison = .eq ∨ s.right = c.2
  | _ => True

def Stands (v : V → D) : Option (ℕ × ℕ) → Object ComparisonState × (V → D) → Prop
  | none, r => r.1.atEnd = true
  | some c, r => r.1.atEnd = false ∧ r.1.own.reset = false ∧ g.At c r.1.own ∧
      (g.scan v).Entry c (r.2 (g.var g.outerSide)) (r.2 (g.var g.outerSide.other))

section None

variable {g} (hinput : g.input = .none) (hvar : g.leftvar ≠ g.rightvar) {s : Object ComparisonState} {v : V → D}

include hinput

theorem checkAndSet_none {x y : D} (hx : g.leftsort.element s.own.left = some x)
    (hy : g.rightsort.element s.own.right = some y) : g.checkAndSet s.own v =
      some (if compares g.comparison x y then (true, Function.update (Function.update v g.leftvar x) g.rightvar y)
        else (false, v)) := by
  simp [checkAndSet, correct, elem, assign, isInput, hinput, sort, var, ComparisonState.position, hx, hy]
  split <;> rfl

include hvar

theorem checkAndSet_sides {a b : D}
    (ha : (g.sort g.outerSide).element (s.own.position g.outerSide) = some a)
    (hb : (g.sort g.outerSide.other).element (s.own.position g.outerSide.other) = some b) :
    ∃ u, g.checkAndSet s.own v = some (if g.passes a b then (true, u) else (false, v)) ∧
      u (g.var g.outerSide) = a ∧ u (g.var g.outerSide.other) = b := by
  cases ho : g.outerSide with
  | left =>
    rw [ho] at ha hb
    refine ⟨Function.update (Function.update v g.leftvar a) g.rightvar b, ?_, ?_, ?_⟩
    · simp only [checkAndSet_none hinput ha hb, passes, ho]
    · simp [var, Function.update_of_ne hvar]
    · simp [var, Side.other]
  | right =>
    rw [ho] at ha hb
    refine ⟨Function.update (Function.update v g.leftvar b) g.rightvar a, ?_, ?_, ?_⟩
    · simp only [checkAndSet_none hinput hb ha, passes, ho]
    · simp [var]
    · simp [var, Side.other, Function.update_of_ne hvar]

-- between two rounds of the loops
def Searching (s : Object ComparisonState × (V → D)) : Prop :=
  s.1.atEnd = false ∧ s.1.own.reset = false ∧ s.1.own.increaseouter = false

theorem findNext_follows (heq : g.comparison ≠ .eq) (w : V → D) :
    Scan.Follows (g.scan w).step (g.scan w).Hit (g.findNext g.outerSide g.outerSide.other g.cut) Searching
      (fun s => (s.1.own.position g.outerSide, s.1.own.position g.outerSide.other)) (g.Stands w) where
  zero s := rfl
  succ s hs := by
    obtain ⟨s, v⟩ := s
    obtain ⟨hend, hreset, hincrease⟩ : s.atEnd = false ∧ s.own.reset = false ∧ s.own.increaseouter = false := hs
    have houter : (g.scan w).outer = (g.sort g.outerSide).element := if_pos hinput
    have hinner : ∀ a, (g.scan w).inner a = (g.sort g.outerSide.other).element := by
      intro a
      simp [scan, hinput, heq]
    cases ha : (g.sort g.outerSide).element (s.own.position g.outerSide) with
    | none =>
      refine Or.inr (Or.inr ⟨.past ?_ ?_, ({ s with atEnd := true }, v), fun n => ?_, rfl⟩)
      · rintro ⟨a, b, hentry⟩
        rw [Scan.Entry, houter, ha] at hentry
        exact absurd hentry.1 (by simp)
      · rw [Scan.step, houter, ha]
        rfl
      · simp only [findNext, ha]
    | some a =>
      have hstep : (g.scan w).step (s.own.position g.outerSide, s.own.position g.outerSide.other) =
          some (if (g.scan w).leaves a (s.own.position g.outerSide.other) then (s.own.position g.outerSide + 1, 0)
            else (s.own.position g.outerSide, s.own.position g.outerSide.other + 1)) := by
        rw [Scan.step, houter, ha]
        rfl
      have hmiss : ∀ {x : Option D}, (g.sort g.outerSide.other).element (s.own.position g.outerSide.other) = x →
          (∀ b ∈ x, g.passes a b = false) →
          ¬(g.scan w).Hit (s.own.position g.outerSide, s.own.position g.outerSide.other) := by
        rintro x hx hpass ⟨a', b', houter', hinner', hpass'⟩
        rw [houter, ha] at houter'
        obtain rfl : a = a' := Option.some.inj houter'
        rw [hinner, hx] at hinner'
        exact absurd hpass' (Bool.eq_false_iff.mp (hpass b' hinner'))
      have hrow : Searching ({ s with own := (s.own.setPosition g.outerSide.other 0).advance g.outerSide }, v) :=
        ⟨hend, by simp [ComparisonState.advance, hreset], by simp [ComparisonState.advance, hincrease]⟩
      cases hb : (g.sort g.outerSide.other).element (s.own.position g.outerSide.other) with
      | none =>
        refine Or.inr (Or.inl ⟨hmiss hb (by simp), _, hrow, ?_, fun n => ?_⟩)
        · have hleaves : (g.scan w).leaves a (s.own.position g.outerSide.other) = true := by
            rw [Scan.leaves, hinner, hb]
          simp [hstep, hleaves, ComparisonState.advance]
        · simp only [findNext, ha, hb, heq, ne_eq, not_false_eq_true, if_true]
      | some b =>
        obtain ⟨u, hcheck, hua, hub⟩ := checkAndSet_sides hinput hvar (v := v) ha hb
        by_cases hpass : g.passes a b = true
        · have hentry : (g.scan w).Entry (s.own.position g.outerSide, s.own.position g.outerSide.other) a b :=
            ⟨by rw [houter, ha], by rw [hinner, hb], hpass⟩
          refine Or.inl ⟨hentry.hit, (s, u), fun n => ?_, hend, hreset, ?_, ?_⟩
          · simp [findNext, ha, hb, heq, hcheck, hpass]
          · simp [At, hinput, heq, hincrease]
          · change (g.scan w).Entry _ (u (g.var g.outerSide)) (u (g.var g.outerSide.other))
            rw [hua, hub]
            exact hentry
        · have hpass : g.passes a b = false := Bool.eq_false_iff.mpr hpass
          have hleaves : (g.scan w).leaves a (s.own.position g.outerSide.other) = g.cut := by
            rw [Scan.leaves, hinner, hb]
            simp [scan, hpass]
          have hmiss := hmiss hb (fun b' hb' => Option.some.inj hb' ▸ hpass)
          by_cases hcut : g.cut = true
          · refine Or.inr (Or.inl ⟨hmiss, _, hrow, ?_, fun n => ?_⟩)
            · simp [hstep, hleaves, hcut, ComparisonState.advance]
            · simp [findNext, ha, hb, heq, hcheck, hpass, hcut]
          · refine Or.inr (Or.inl ⟨hmiss, ({ s with own := s.own.advance g.outerSide.other }, v),
              ⟨hend, by simp [ComparisonState.advance, hreset], by simp [ComparisonState.advance, hincrease]⟩,
              ?_, fun n => ?_⟩)
            · simp [hstep, hleaves, hcut, ComparisonState.advance]
            · simp [findNext, ha, hb, heq, hcheck, hpass, hcut]

omit hvar in
theorem findNext_follows_eq (heq : g.comparison = .eq) (w : V → D) :
    Scan.Follows (g.scan w).step (g.scan w).Hit (g.findNext g.outerSide g.outerSide.other g.cut) Searching
      (fun s => (s.1.own.position g.outerSide, 0)) (g.Stands w) where
  zero s := rfl
  succ s hs := by
    obtain ⟨s, v⟩ := s
    obtain ⟨hend, hreset, hincrease⟩ : s.atEnd = false ∧ s.own.reset = false ∧ s.own.increaseouter = false := hs
    have houter : (g.scan w).outer = (g.sort g.outerSide).element := if_pos hinput
    have hinner : ∀ a, (g.scan w).inner a =
        if (g.sort g.outerSide.other).contains a then once a else fun _ => none := by
      intro a
      simp [scan, hinput, heq]
    cases ha : (g.sort g.outerSide).element (s.own.position g.outerSide) with
    | none =>
      refine Or.inr (Or.inr ⟨.past ?_ ?_, ({ s with atEnd := true }, v), fun n => ?_, rfl⟩)
      · rintro ⟨a, b, hentry⟩
        rw [Scan.Entry, houter, ha] at hentry
        exact absurd hentry.1 nofun
      · rw [Scan.step, houter, ha]
        rfl
      · simp only [findNext, ha]
    | some a =>
      by_cases hcontains : (g.sort g.outerSide.other).contains a = true
      · have hentry : (g.scan w).Entry (s.own.position g.outerSide, 0) a a := by
          refine ⟨by rw [houter, ha], by rw [hinner, if_pos hcontains]; rfl, ?_⟩
          simp only [scan, passes, heq, compares]
          split <;> simp
        refine Or.inl ⟨hentry.hit, ({ s with own.increaseouter := true },
          Function.update (Function.update v (g.var g.outerSide) a) (g.var g.outerSide.other) a), fun n => ?_,
          hend, hreset, ?_, ?_⟩
        · simp [findNext, ha, heq, hcontains]
        · simp only [At, hinput, heq, if_true, and_true]
          cases g.outerSide <;> rfl
        · have hupdate : ∀ x y : V, Function.update (Function.update v x a) y a x = a := by
            intro x y
            by_cases h : x = y
            · rw [h, Function.update_self]
            · rw [Function.update_of_ne h, Function.update_self]
          simpa only [hupdate, Function.update_self] using hentry
      · refine Or.inr (Or.inl ⟨?_, ({ s with own := s.own.advance g.outerSide }, v),
          ⟨hend, by simp [ComparisonState.advance, hreset], by simp [ComparisonState.advance, hincrease]⟩, ?_,
          fun n => ?_⟩)
        · rintro ⟨a', b', houter', hinner', -⟩
          rw [houter, ha] at houter'
          obtain rfl : a = a' := Option.some.inj houter'
          rw [hinner, if_neg hcontains] at hinner'
          exact absurd hinner' nofun
        · have hleaves : (g.scan w).leaves a 0 = true := by
            rw [Scan.leaves, hinner, if_neg hcontains]
          simp [Scan.step, houter, ha, hleaves, ComparisonState.advance]
        · simp [findNext, ha, heq, hcontains]

end None

section Left

variable {g} (hinput : g.input = .left) {s : Object ComparisonState} {v : V → D}

include hinput

theorem scanRight_follows (hvar : g.leftvar ≠ g.rightvar) (heq : g.comparison ≠ .eq) (w : V → D) :
    Scan.Follows (g.scan w).step (g.scan w).Hit g.scanRight
      (fun s => s.1.atEnd = false ∧ s.1.own.reset = false ∧ s.2 g.leftvar = w g.leftvar)
      (fun s => (0, s.1.own.right)) (g.Stands w) where
  zero s := rfl
  succ s hs := by
    obtain ⟨s, v⟩ := s
    obtain ⟨hend, hreset, hleft⟩ : s.atEnd = false ∧ s.own.reset = false ∧ v g.leftvar = w g.leftvar := hs
    have hside : g.outerSide = .left := by simp [outerSide, hinput]
    have houter : (g.scan w).outer = once (w g.leftvar) := by simp [scan, hinput]
    have hinner : ∀ a, (g.scan w).inner a = g.rightsort.element := by
      intro a
      simp [scan, hinput, heq, hside, Side.other, sort]
    have hstep : (g.scan w).step (0, s.own.right) =
        some (if (g.scan w).leaves (w g.leftvar) s.own.right then (1, 0) else (0, s.own.right + 1)) := by
      rw [Scan.step, houter]
      rfl
    have hmiss : ∀ {x : Option D}, g.rightsort.element s.own.right = x →
        (∀ b ∈ x, compares g.comparison (w g.leftvar) b = false) → ¬(g.scan w).Hit (0, s.own.right) := by
      rintro x hx hpass ⟨a', b', houter', hinner', hpass'⟩
      rw [houter] at houter'
      obtain rfl : w g.leftvar = a' := Option.some.inj houter'
      rw [hinner, hx] at hinner'
      have h := hpass b' hinner'
      simp [scan, passes, hside, h] at hpass'
    have hover : Scan.First (g.scan w).step (g.scan w).Hit (1, 0) none :=
      Scan.first_none_of_outer (by rw [houter]; rfl)
    cases hb : g.rightsort.element s.own.right with
    | none =>
      refine Or.inr (Or.inr ⟨.move (hmiss hb (by simp)) ?_ hover, ({ s with atEnd := true }, v), fun n => ?_, rfl⟩)
      · have hleaves : (g.scan w).leaves (w g.leftvar) s.own.right = true := by
          rw [Scan.leaves, hinner, hb]
        rw [hstep, hleaves]
        rfl
      · simp only [scanRight, hb]
    | some b =>
      have hcheck : g.checkAndSet s.own v = some (if compares g.comparison (w g.leftvar) b
          then (true, Function.update v g.rightvar b) else (false, v)) := by
        simp [checkAndSet, correct, elem, assign, isInput, hinput, sort, var, ComparisonState.position, hb, hleft]
        split <;> rfl
      by_cases hpass : compares g.comparison (w g.leftvar) b = true
      · have hentry : (g.scan w).Entry (0, s.own.right) (w g.leftvar) b :=
          ⟨by rw [houter]; rfl, by rw [hinner, hb], by simpa [scan, passes, hside] using hpass⟩
        refine Or.inl ⟨hentry.hit, (s, Function.update v g.rightvar b), fun n => ?_, hend, hreset, ?_, ?_⟩
        · simp [scanRight, hb, hcheck, hpass]
        · simp [At, hinput]
        · simpa [hside, Side.other, var, Function.update_of_ne hvar, hleft] using hentry
      · have hpass : compares g.comparison (w g.leftvar) b = false := Bool.eq_false_iff.mpr hpass
        have hleaves : (g.scan w).leaves (w g.leftvar) s.own.right =
            decide (g.comparison = .geq ∨ g.comparison = .gt) := by
          rw [Scan.leaves, hinner, hb]
          simp [scan, passes, hside, hpass, cut, hinput, Bool.or_comm]
        have hmiss := hmiss hb (fun b' hb' => Option.some.inj hb' ▸ hpass)
        by_cases hcut : g.comparison = .geq ∨ g.comparison = .gt
        · refine Or.inr (Or.inr ⟨.move hmiss ?_ hover, ({ s with atEnd := true }, v), fun n => ?_, rfl⟩)
          · simp [hstep, hleaves, hcut]
          · simp [scanRight, hb, hcheck, hpass, hcut]
        · refine Or.inr (Or.inl ⟨hmiss, ({ s with own := s.own.advance .right }, v), ⟨hend, hreset, hleft⟩, ?_,
            fun n => ?_⟩)
          · simp only [hstep, hleaves, hcut, decide_false, Bool.false_eq_true, if_false]
            rfl
          · simp [scanRight, hb, hcheck, hpass, hcut]

end Left

-- the call returns as soon as the search has a result, and returns what the search comes to
def Answers (w : V → D) (search : Option (ℕ × ℕ) → Prop) (call : ℕ → Option (Object ComparisonState × (V → D))) : Prop :=
  (∀ o, search o → ∃ r, Returns call r ∧ g.Stands w o r) ∧ ∀ r, Returns call r → ∃ o, search o ∧ g.Stands w o r

section Answers

variable {g} {w : V → D} {search : Option (ℕ × ℕ) → Prop} {call : ℕ → Option (Object ComparisonState × (V → D))}

theorem Answers.of_eq {o : Option (ℕ × ℕ)} {r : Object ComparisonState × (V → D)} (hcall : ∀ n, call n = some r)
    (ho : search o) (hunique : ∀ o', search o' → o' = o) (hr : g.Stands w o r) : g.Answers w search call := by
  refine ⟨fun o' ho' => ⟨r, .of_eq hcall, hunique o' ho' ▸ hr⟩, fun r' hr' => ⟨o, ho, ?_⟩⟩
  rwa [(Returns.of_eq hcall).unique hr'] at hr

theorem Answers.of_follows {loop : ℕ → Object ComparisonState × (V → D) → Option (Object ComparisonState × (V → D))}
    {Good : Object ComparisonState × (V → D) → Prop} {place : Object ComparisonState × (V → D) → ℕ × ℕ}
    (h : Scan.Follows (g.scan w).step (g.scan w).Hit loop Good place (g.Stands w)) {s : Object ComparisonState × (V → D)}
    (hs : Good s) : g.Answers w (Scan.First (g.scan w).step (g.scan w).Hit (place s)) fun n => loop n s := by
  constructor
  · intro o ho
    obtain ⟨m, r, hr, hout⟩ := h.returns ho hs rfl
    exact ⟨r, .of_add m hr, hout⟩
  · intro r hr
    obtain ⟨n, hn⟩ := hr.exists
    exact h.first hs hn

end Answers

section Modes

variable {g} {v : V → D}

section Both

variable (hinput : g.input = .both)

include hinput

theorem outer_both (i : ℕ) : (g.scan v).outer i = once (v g.leftvar) i := by simp [scan, hinput]

theorem inner_both (a : D) (j : ℕ) : (g.scan v).inner a j = once (v g.rightvar) j := by simp [scan, hinput]

theorem pass_both (a b : D) : (g.scan v).pass a b = compares g.comparison a b := by
  simp [scan, passes, outerSide, hinput]

theorem correct_both (s : ComparisonState) :
    g.correct s v = some (compares g.comparison (v g.leftvar) (v g.rightvar)) := by
  simp [correct, elem, isInput, hinput, var]

theorem first_both_none : Scan.First (g.scan v).step (g.scan v).Hit (0, 1) none := by
  rw [Scan.first_iff_of_inner (outer_both hinput 0) (inner_both hinput _ 1)]
  exact Scan.first_none_of_outer (outer_both hinput 1)

theorem begin_both (s : ComparisonState) (hs : s.reset = true) :
    g.Answers v (Scan.First (g.scan v).step (g.scan v).Hit (0, 0)) fun n => g.next n ⟨false, s⟩ v := by
  by_cases hpass : compares g.comparison (v g.leftvar) (v g.rightvar) = true
  · have hentry : (g.scan v).Entry (0, 0) (v g.leftvar) (v g.rightvar) :=
      ⟨outer_both hinput 0, inner_both hinput _ 0, (pass_both hinput _ _).trans hpass⟩
    refine Answers.of_eq (o := some (0, 0)) (r := (⟨false, { s with reset := false }⟩, v)) (fun n => ?_)
      (.hit hentry.hit) (fun o' ho' => ho'.unique (.hit hentry.hit)) ⟨rfl, rfl, ?_, ?_⟩
    · simp [next, hinput, correct_both hinput, hpass, hs]
    · simp [At, hinput]
    · simpa [outerSide, hinput, var, Side.other] using hentry
  · have hpass : compares g.comparison (v g.leftvar) (v g.rightvar) = false := Bool.eq_false_iff.mpr hpass
    have hfirst : Scan.First (g.scan v).step (g.scan v).Hit (0, 0) none := by
      rw [Scan.first_iff_of_miss (outer_both hinput 0) (inner_both hinput _ 0) ((pass_both hinput _ _).trans hpass)]
      have hcut : (g.scan v).cut = false := by simp [scan, cut, hinput]
      simpa [hcut] using first_both_none hinput
    refine Answers.of_eq (o := none) (r := (⟨true, s⟩, v)) (fun n => ?_) hfirst (fun o' ho' => ho'.unique hfirst) rfl
    simp [next, hinput, correct_both hinput, hpass, hs]

end Both

section None

variable (hinput : g.input = .none)

include hinput

theorem next_none (n : ℕ) (s : Object ComparisonState) (v : V → D) :
    g.next n s v = g.findNext g.outerSide g.outerSide.other g.cut n ({ s with own := g.moveOn s.own }, v) := by
  rw [next]
  cases hfinite : g.leftsort.finite <;> simp [hinput, outerSide, cut, hfinite, Side.other]

theorem moveOn_none {s : ComparisonState} (hreset : s.reset = false) :
    g.moveOn s = if s.increaseouter then { s.advance g.outerSide with increaseouter := false }
      else s.advance g.outerSide.other := by
  cases hfinite : g.leftsort.finite <;> simp [moveOn, hreset, hfinite, outerSide, hinput, Side.other]

theorem begin_none (hvar : g.leftvar ≠ g.rightvar) (s : ComparisonState) (hs : s.reset = true)
    (hs' : s.increaseouter = false) :
    g.Answers v (Scan.First (g.scan v).step (g.scan v).Hit (0, 0)) fun n => g.next n ⟨false, s⟩ v := by
  simp only [next_none hinput, moveOn, hs, if_true]
  have hgood : Searching (⟨false, { s with reset := false, left := 0, right := 0 }⟩, v) := ⟨rfl, rfl, hs'⟩
  have hplace : ∀ side, ({ s with reset := false, left := 0, right := 0 } : ComparisonState).position side = 0 := by
    intro side
    cases side <;> rfl
  by_cases heq : g.comparison = .eq
  · simpa [hplace] using Answers.of_follows (findNext_follows_eq hinput heq v) hgood
  · simpa [hplace] using Answers.of_follows (findNext_follows hinput hvar heq v) hgood

theorem next_none' (hvar : g.leftvar ≠ g.rightvar) {i j : ℕ} {a b : D} (hentry : (g.scan v).Entry (i, j) a b)
    {s : Object ComparisonState} {v' : V → D} (hend : s.atEnd = false) (hreset : s.own.reset = false)
    (hat : g.At (i, j) s.own) :
    g.Answers v (Scan.First (g.scan v).step (g.scan v).Hit (i, j + 1)) fun n => g.next n s v' := by
  simp only [next_none hinput]
  simp only [At, hinput] at hat
  obtain ⟨houter', hinner', -⟩ := hentry
  by_cases heq : g.comparison = .eq
  · have hinner : (g.scan v).inner a = if (g.sort g.outerSide.other).contains a then once a else fun _ => none := by
      simp [scan, hinput, heq]
    have hcontains : (g.sort g.outerSide.other).contains a = true := by
      by_contra h
      rw [hinner, if_neg h] at hinner'
      exact absurd hinner' nofun
    rw [if_pos hcontains] at hinner
    rw [if_pos heq] at hat
    have hmove := moveOn_none hinput hreset
    rw [if_pos hat.2] at hmove
    rw [hmove]
    have hfirst : ∀ o, Scan.First (g.scan v).step (g.scan v).Hit (i, j + 1) o ↔
        Scan.First (g.scan v).step (g.scan v).Hit (i + 1, 0) o := fun o =>
      Scan.first_iff_of_inner (c := (i, j + 1)) houter' (by rw [hinner]; rfl)
    have hplace : ({ s.own.advance g.outerSide with increaseouter := false } : ComparisonState).position g.outerSide =
        i + 1 := by
      rw [← hat.1]
      cases g.outerSide <;> rfl
    have hgood : Searching (({ s with own := { s.own.advance g.outerSide with increaseouter := false } }, v') :
        Object ComparisonState × (V → D)) := ⟨hend, by simpa [ComparisonState.advance] using hreset, rfl⟩
    simpa only [Answers, hfirst, hplace] using Answers.of_follows (findNext_follows_eq hinput heq v) hgood
  · rw [if_neg heq] at hat
    have hmove := moveOn_none hinput hreset
    rw [hat.2.1, if_neg Bool.false_ne_true] at hmove
    rw [hmove]
    have hgood : Searching (({ s with own := s.own.advance g.outerSide.other }, v') :
        Object ComparisonState × (V → D)) :=
      ⟨hend, by simpa [ComparisonState.advance] using hreset, by simpa [ComparisonState.advance] using hat.2.1⟩
    simpa [ComparisonState.advance, hat.1, hat.2.2] using
      Answers.of_follows (findNext_follows hinput hvar heq v) hgood

end None

section Left

variable (hinput : g.input = .left)

include hinput

theorem begin_left (hvar : g.leftvar ≠ g.rightvar) (s : ComparisonState) (hs : s.reset = true) :
    g.Answers v (Scan.First (g.scan v).step (g.scan v).Hit (0, 0)) fun n => g.next n ⟨false, s⟩ v := by
  by_cases heq : g.comparison = .eq
  · have hinner : ∀ a, (g.scan v).inner a = if g.rightsort.contains a then once a else fun _ => none := by
      intro a
      simp [scan, hinput, heq, outerSide, Side.other, sort]
    have houter : (g.scan v).outer = once (v g.leftvar) := by simp [scan, hinput]
    by_cases hcontains : g.rightsort.contains (v g.leftvar) = true
    · have hentry : (g.scan v).Entry (0, 0) (v g.leftvar) (v g.leftvar) := by
        refine ⟨by rw [houter]; rfl, by rw [hinner, if_pos hcontains]; rfl, ?_⟩
        simp [scan, passes, outerSide, hinput, heq, compares]
      refine Answers.of_eq (o := some (0, 0))
        (r := (⟨false, { s with reset := false }⟩, Function.update v g.rightvar (v g.leftvar))) (fun n => ?_)
        (.hit hentry.hit) (fun o' ho' => ho'.unique (.hit hentry.hit)) ⟨rfl, rfl, ?_, ?_⟩
      · simp [next, hinput, heq, hcontains, hs]
      · simp [At, hinput, heq]
      · simpa [outerSide, hinput, var, Side.other, Function.update_of_ne hvar] using hentry
    · have hfirst : Scan.First (g.scan v).step (g.scan v).Hit (0, 0) none := by
        rw [Scan.first_iff_of_inner (a := v g.leftvar) (by rw [houter]; rfl) (by rw [hinner, if_neg hcontains])]
        exact Scan.first_none_of_outer (by rw [houter]; rfl)
      refine Answers.of_eq (o := none) (r := (⟨true, { s with reset := false }⟩, v)) (fun n => ?_) hfirst
        (fun o' ho' => ho'.unique hfirst) rfl
      simp [next, hinput, heq, hcontains, hs]
  · simp only [next, hinput, hs, if_true, heq, if_false]
    exact Answers.of_follows (scanRight_follows hinput hvar heq v)
      (s := (⟨false, { s with reset := false, right := 0 }⟩, v)) ⟨rfl, rfl, rfl⟩

theorem next_left (hvar : g.leftvar ≠ g.rightvar) {i j : ℕ} {a b : D} (hentry : (g.scan v).Entry (i, j) a b)
    {s : Object ComparisonState} {v' : V → D} (hend : s.atEnd = false) (hreset : s.own.reset = false)
    (hat : g.At (i, j) s.own) (ha : v' g.leftvar = a) :
    g.Answers v (Scan.First (g.scan v).step (g.scan v).Hit (i, j + 1)) fun n => g.next n s v' := by
  have hside : g.outerSide = .left := by simp [outerSide, hinput]
  have houter : (g.scan v).outer = once (v g.leftvar) := by simp [scan, hinput]
  obtain ⟨houter', hinner', -⟩ := hentry
  obtain ⟨rfl, rfl⟩ := once_eq_some.mp ((congrFun houter i).symm.trans houter')
  by_cases heq : g.comparison = .eq
  · have hinner : (g.scan v).inner (v g.leftvar) =
        if g.rightsort.contains (v g.leftvar) then once (v g.leftvar) else fun _ => none := by
      simp [scan, hinput, heq, hside, Side.other, sort]
    have hcontains : g.rightsort.contains (v g.leftvar) = true := by
      by_contra h
      rw [hinner, if_neg h] at hinner'
      exact absurd hinner' nofun
    rw [if_pos hcontains] at hinner
    have hfirst : Scan.First (g.scan v).step (g.scan v).Hit (0, j + 1) none := by
      rw [Scan.first_iff_of_inner (c := (0, j + 1)) houter' (by rw [hinner]; rfl)]
      exact Scan.first_none_of_outer (congrFun houter 1)
    refine Answers.of_eq (o := none) (r := ({ s with atEnd := true }, v')) (fun n => ?_) hfirst
      (fun o' ho' => ho'.unique hfirst) rfl
    simp [next, hinput, hreset, heq]
  · simp only [At, hinput, heq, false_or] at hat
    subst hat
    have hnext : ∀ n, g.next n s v' = g.scanRight n ({ s with own := s.own.advance .right }, v') := by
      intro n
      simp [next, hinput, hreset, heq]
    simp only [hnext]
    exact Answers.of_follows (scanRight_follows hinput hvar heq v)
      (s := ({ s with own := s.own.advance .right }, v')) ⟨hend, hreset, ha⟩

end Left

end Modes

theorem begin_answers (hvar : g.leftvar ≠ g.rightvar) (hinput : g.input ≠ .right) (s : Object ComparisonState)
    (v : V → D) : g.Answers v (Scan.First (g.scan v).step (g.scan v).Hit (0, 0)) fun n =>
      g.toInstGenerator.begin n s v := by
  change g.Answers v _ fun n => g.next n ⟨false, { s.own with reset := true, increaseouter := false }⟩ v
  cases hmode : g.input with
  | both => exact begin_both hmode _ rfl
  | none => exact begin_none hmode hvar _ rfl rfl
  | left => exact begin_left hmode hvar _ rfl
  | right => exact absurd hmode hinput

theorem next_answers (hvar : g.leftvar ≠ g.rightvar) (hinput : g.input ≠ .right) {v v' : V → D} {c : ℕ × ℕ}
    {r : Object ComparisonState × (V → D)} (hr : g.Stands v (some c) r) (hv : EqOn v' r.2 {g.leftvar, g.rightvar}) :
    g.Answers v (Scan.Next (g.scan v).step (g.scan v).Hit c) fun n => g.next n r.1 v' := by
  obtain ⟨hend, hreset, hat, hentry⟩ := hr
  obtain ⟨i, j⟩ := c
  have hanswers : g.Answers v (Scan.First (g.scan v).step (g.scan v).Hit (i, j + 1)) (fun n => g.next n r.1 v') →
      g.Answers v (Scan.Next (g.scan v).step (g.scan v).Hit (i, j)) fun n => g.next n r.1 v' := by
    intro h
    simpa only [Answers, hentry.next_iff] using h
  refine hanswers ?_
  cases hmode : g.input with
  | right => exact absurd hmode hinput
  | both =>
    obtain ⟨rfl, -⟩ := once_eq_some.mp ((outer_both hmode i).symm.trans hentry.1)
    obtain ⟨rfl, -⟩ := once_eq_some.mp ((inner_both hmode _ j).symm.trans hentry.2.1)
    refine Answers.of_eq (o := none) (r := ({ r.1 with atEnd := true }, v')) (fun n => ?_) (first_both_none hmode)
      (fun o' ho' => ho'.unique (first_both_none hmode)) rfl
    simp [next, hmode, hreset]
  | left =>
    have hside : g.outerSide = .left := by simp [outerSide, hmode]
    refine next_left hmode hvar hentry hend hreset hat ?_
    rw [hside]
    exact hv (Or.inl rfl)
  | none => exact next_none' hmode hvar hentry hend hreset hat

end ComparisonGenerator

-- the k-th instantiation of a run
def Generates (G : InstGenerator V D) (leftvar rightvar : V) (s : Object G.State) (v : V → D) (k : ℕ) (x y : D) :
    Prop :=
  ∃ r, Run G {leftvar, rightvar} s v k r ∧ r.1.atEnd = false ∧ r.2 leftvar = x ∧ r.2 rightvar = y

def Satisfies (leftsort rightsort : SortTable D) (leftvar rightvar : V) (input : Input) (type : CompType) (v : V → D)
    (x y : D) : Prop :=
  leftsort.contains x = true ∧ rightsort.contains y = true ∧ compares type x y = true ∧
    (input = .both ∨ input = .left → x = v leftvar) ∧ (input = .both ∨ input = .right → y = v rightvar)

-- exactly the pairs of elements of the sorts that satisfy the comparison, each once
def EnumeratesPairs (leftsort rightsort : SortTable D) (leftvar rightvar : V) (input : Input) (type : CompType)
    (G : InstGenerator V D) (s : Object G.State) (v : V → D) : Prop :=
  ∀ x y, ((∃ k, Generates G leftvar rightvar s v k x y) ↔
      Satisfies leftsort rightsort leftvar rightvar input type v x y) ∧
    ∀ k k', Generates G leftvar rightvar s v k x y → Generates G leftvar rightvar s v k' x y → k = k'

namespace ComparisonGenerator

def values (x y : D) : Side → D
  | .left => x
  | .right => y

-- the scan meets the pair at the place c
def Meets (g : ComparisonGenerator V D) (v : V → D) (x y : D) (c : ℕ × ℕ) : Prop :=
  (g.scan v).Met c ∧ (g.scan v).Entry c (values x y g.outerSide) (values x y g.outerSide.other)

-- every pair that satisfies the comparison is met, no pair is met at two places, and the inputs are in their sorts
def Covers (g : ComparisonGenerator V D) (v : V → D) : Prop :=
  ∀ x y, (Satisfies g.leftsort g.rightsort g.leftvar g.rightvar g.input g.comparison v x y → ∃ c, g.Meets v x y c) ∧
    (∀ c c', g.Meets v x y c → g.Meets v x y c' → c = c') ∧
    ∀ c, g.Meets v x y c → (g.isInput .left = true → g.leftsort.contains x = true) ∧
      (g.isInput .right = true → g.rightsort.contains y = true)

variable {g : ComparisonGenerator V D} (hvar : g.leftvar ≠ g.rightvar) (hinput : g.input ≠ .right)
  {s : Object g.toInstGenerator.State} {v : V → D}

include hvar hinput

theorem nth_of_run {k : ℕ} {r : Object g.toInstGenerator.State × (V → D)}
    (h : Run g.toInstGenerator {g.leftvar, g.rightvar} s v k r) :
    ∃ o, Scan.Nth (g.scan v).step (g.scan v).Hit (0, 0) k o ∧ g.Stands v o r := by
  induction h with
  | begin hr =>
    obtain ⟨o, ho, hst⟩ := (g.begin_answers hvar hinput s v).2 _ hr
    exact ⟨o, .first ho, hst⟩
  | next _ hend hv hr ih =>
    obtain ⟨o, ho, hst⟩ := ih
    cases o with
    | none => exact absurd hst (Bool.eq_false_iff.mp hend)
    | some c =>
      obtain ⟨o', ho', hst'⟩ := (g.next_answers hvar hinput hst hv).2 _ hr
      exact ⟨o', .next ho ho', hst'⟩

theorem run_of_nth {k : ℕ} {o : Option (ℕ × ℕ)} (h : Scan.Nth (g.scan v).step (g.scan v).Hit (0, 0) k o) :
    ∃ r : Object g.toInstGenerator.State × (V → D), Run g.toInstGenerator {g.leftvar, g.rightvar} s v k r ∧ g.Stands v o r := by
  induction h with
  | first ho =>
    obtain ⟨r, hr, hst⟩ := (g.begin_answers hvar hinput s v).1 _ ho
    exact ⟨r, .begin hr, hst⟩
  | next _ ho ih =>
    obtain ⟨r, hrun, hst⟩ := ih
    obtain ⟨r', hr', hst'⟩ := (g.next_answers hvar hinput hst (eqOn_refl _ _)).1 _ ho
    exact ⟨r', .next hrun hst.1 (eqOn_refl _ _) hr', hst'⟩

theorem generates_iff {k : ℕ} {x y : D} : Generates g.toInstGenerator g.leftvar g.rightvar s v k x y ↔
    (g.scan v).Yields k (values x y g.outerSide) (values x y g.outerSide.other) := by
  have hvalues : ∀ w : V → D, ∀ side, values (w g.leftvar) (w g.rightvar) side = w (g.var side) := by
    intro w side
    cases side <;> rfl
  constructor
  · rintro ⟨r, hrun, hend, rfl, rfl⟩
    obtain ⟨o, ho, hst⟩ := nth_of_run hvar hinput hrun
    cases o with
    | none => exact absurd hst (Bool.eq_false_iff.mp hend)
    | some c =>
      refine ⟨c, ho, ?_⟩
      rw [hvalues, hvalues]
      exact hst.2.2.2
  · rintro ⟨c, hc, hentry⟩
    obtain ⟨r, hrun, hst⟩ := run_of_nth hvar hinput (s := s) hc
    obtain ⟨ha, hb⟩ := hst.2.2.2.unique hentry
    refine ⟨r, hrun, hst.1, ?_⟩
    cases hside : g.outerSide with
    | left =>
      rw [hside] at ha hb
      exact ⟨ha, hb⟩
    | right =>
      rw [hside] at ha hb
      exact ⟨hb, ha⟩

theorem exists_generates_iff {x y : D} : (∃ k, Generates g.toInstGenerator g.leftvar g.rightvar s v k x y) ↔
    ∃ c, g.Meets v x y c := by
  simp only [generates_iff hvar hinput, Scan.yields_iff, Meets]

omit hvar hinput in
theorem contains_of_inner (hboth : g.input ≠ .both) {a b : D} {j : ℕ} (h : (g.scan v).inner a j = some b) :
    (g.sort g.outerSide.other).contains b = true := by
  simp only [scan, hboth, if_false] at h
  split at h
  · split at h
    case isTrue hcontains => exact (once_eq_some.mp h).2 ▸ hcontains
    case isFalse => exact absurd h nofun
  · exact (g.sort g.outerSide.other).sound _ _ h

omit hvar in
theorem Meets.satisfies {x y : D} {c : ℕ × ℕ} (h : g.Meets v x y c)
    (hleft : g.isInput .left = true → g.leftsort.contains x = true)
    (hright : g.isInput .right = true → g.rightsort.contains y = true) :
    Satisfies g.leftsort g.rightsort g.leftvar g.rightvar g.input g.comparison v x y := by
  obtain ⟨-, houter, hinner, hpass⟩ := h
  have hcompares : compares g.comparison x y = true := by
    cases hside : g.outerSide <;> simpa [scan, passes, hside, values, Side.other] using hpass
  cases hmode : g.input with
  | right => exact absurd hmode hinput
  | both =>
    have hside : g.outerSide = .left := by simp [outerSide, hmode]
    simp only [hside, values, Side.other] at houter hinner
    obtain ⟨-, rfl⟩ := once_eq_some.mp ((outer_both hmode _).symm.trans houter)
    obtain ⟨-, rfl⟩ := once_eq_some.mp ((inner_both hmode _ _).symm.trans hinner)
    exact ⟨hleft (by simp [isInput, hmode]), hright (by simp [isInput, hmode]), hcompares, fun _ => rfl, fun _ => rfl⟩
  | left =>
    have hside : g.outerSide = .left := by simp [outerSide, hmode]
    have hcontains := contains_of_inner (by simp [hmode]) hinner
    have houter' : (g.scan v).outer = once (v g.leftvar) := by simp [scan, hmode]
    simp only [hside, values, Side.other, houter'] at houter hcontains
    obtain ⟨-, rfl⟩ := once_eq_some.mp houter
    exact ⟨hleft (by simp [isInput, hmode]), hcontains, hcompares, fun _ => rfl, by simp⟩
  | none =>
    have hcontains := contains_of_inner (by simp [hmode]) hinner
    have houter' : (g.scan v).outer = (g.sort g.outerSide).element := if_pos hmode
    have hsound := (g.sort g.outerSide).sound _ _ ((congrFun houter' c.1).symm.trans houter)
    cases hside : g.outerSide with
    | left =>
      rw [hside] at hcontains hsound
      exact ⟨hsound, hcontains, hcompares, by simp, by simp⟩
    | right =>
      rw [hside] at hcontains hsound
      exact ⟨hcontains, hsound, hcompares, by simp, by simp⟩

theorem enumeratesPairs_iff_covers : EnumeratesPairs g.leftsort g.rightsort g.leftvar g.rightvar g.input g.comparison
    g.toInstGenerator s v ↔ g.Covers v := by
  refine forall₂_congr fun x y => ?_
  have hgenerates := exists_generates_iff hvar hinput (s := s) (v := v) (x := x) (y := y)
  have hunique : (∀ k k', Generates g.toInstGenerator g.leftvar g.rightvar s v k x y →
      Generates g.toInstGenerator g.leftvar g.rightvar s v k' x y → k = k') ↔
      ∀ c c', g.Meets v x y c → g.Meets v x y c' → c = c' := by
    simp only [generates_iff hvar hinput, Scan.yields_unique_iff, Meets]
    exact ⟨fun h c c' hc hc' => h c c' hc.1 hc'.1 hc.2 hc'.2, fun h c c' hm hm' hc hc' => h c c' ⟨hm, hc⟩ ⟨hm', hc'⟩⟩
  rw [hgenerates, hunique]
  constructor
  · rintro ⟨hiff, huniq⟩
    refine ⟨hiff.mpr, huniq, fun c hc => ?_⟩
    have hsat := hiff.mp ⟨c, hc⟩
    exact ⟨fun _ => hsat.1, fun _ => hsat.2.1⟩
  · rintro ⟨hmeets, huniq, hin⟩
    exact ⟨⟨fun ⟨c, hc⟩ => hc.satisfies hinput (hin c hc).1 (hin c hc).2, hmeets⟩, huniq⟩

end ComparisonGenerator

section Make

variable {leftsort rightsort : SortTable D} {leftvar rightvar : V} {input : Input} {type : CompType}

theorem compares_invertComp (type : CompType) (x y : D) : compares (invertComp type) y x = compares type x y := by
  cases type <;> simp [compares, invertComp, eq_comm]

theorem satisfies_turned {v : V → D} {x y : D} :
    Satisfies rightsort leftsort rightvar leftvar .left (invertComp type) v y x ↔
      Satisfies leftsort rightsort leftvar rightvar .right type v x y := by
  simp only [Satisfies, compares_invertComp]
  simp only [reduceCtorEq, or_true, or_false, forall_const, false_implies, and_true, true_and]
  exact and_left_comm

theorem generates_turned {G : InstGenerator V D} {s : Object G.State} {v : V → D} {k : ℕ} {x y : D} :
    Generates G rightvar leftvar s v k y x ↔ Generates G leftvar rightvar s v k x y := by
  simp only [Generates, pair_comm rightvar leftvar, and_comm]

-- the two sides are different variables
theorem enumeratesPairs_iff (hvar : leftvar ≠ rightvar) (leftsort rightsort : SortTable D) (input : Input)
    (type : CompType) (s : Object ComparisonState) (v : V → D) :
    EnumeratesPairs leftsort rightsort leftvar rightvar input type
      (ComparisonGenerator.make leftsort rightsort leftvar rightvar input type).toInstGenerator s v ↔
    (ComparisonGenerator.make leftsort rightsort leftvar rightvar input type).Covers v := by
  by_cases hinput : input = .right
  · subst hinput
    have hmake : ComparisonGenerator.make leftsort rightsort leftvar rightvar .right type =
        ⟨rightsort, leftsort, rightvar, leftvar, invertComp type, .left⟩ := if_pos rfl
    rw [hmake]
    refine Iff.trans (forall_comm.trans (forall₂_congr fun y x => ?_))
      (ComparisonGenerator.enumeratesPairs_iff_covers (s := s) hvar.symm Input.noConfusion)
    have hturned : ∀ k, Generates (ComparisonGenerator.toInstGenerator
        ⟨rightsort, leftsort, rightvar, leftvar, invertComp type, .left⟩) leftvar rightvar s v k x y ↔
        Generates (ComparisonGenerator.toInstGenerator
        ⟨rightsort, leftsort, rightvar, leftvar, invertComp type, .left⟩) rightvar leftvar s v k y x :=
      fun k => generates_turned.symm
    simp only [satisfies_turned, hturned]
  · have hmake : ComparisonGenerator.make leftsort rightsort leftvar rightvar input type =
        ⟨leftsort, rightsort, leftvar, rightvar, type, input⟩ := if_neg hinput
    rw [hmake]
    exact ComparisonGenerator.enumeratesPairs_iff_covers hvar hinput

end Make

section Constructed

variable {C : Type}

-- the iterator goes through the constructors as they are declared, and through the table of each
def constructedTable (constructors : List (SortTables.Constructor C)) : SortTable (SortTables.DomainElement C) where
  element i := (SortTables.constructedElements constructors)[i]?.map .compound
  contains := SortTables.constructedContains constructors
  finite := constructors.all fun c => c.elements.isSome
  ended i h := by
    rw [Option.map_eq_none_iff, List.getElem?_eq_none_iff] at *
    omega
  sound i d h := by
    obtain ⟨c, hc, rfl⟩ := Option.map_eq_some_iff.mp h
    obtain ⟨l, hl, hcl⟩ := List.mem_flatten.mp (List.mem_of_getElem? hc)
    obtain ⟨k, hk, hkl⟩ := List.mem_filterMap.mp hl
    exact List.any_eq_true.mpr ⟨k, hk, (k.mem_iff l hkl c).mpr hcl⟩

-- red is declared before green; a compound is given by the place of its name in the order of the names
def red : SortTables.Constructor ℕ := ⟨fun c => c == 1, some [1], by simp⟩

def green : SortTables.Constructor ℕ := ⟨fun c => c == 0, some [0], by simp⟩

def colours : SortTable (SortTables.DomainElement ℕ) := constructedTable [red, green]

theorem enumeratesPairs_colours :
    EnumeratesPairs colours colours false true .left .gt
      (ComparisonGenerator.make colours colours false true .left .gt).toInstGenerator ⟨false, ⟨0, 0, true, false⟩⟩
      (fun _ => .compound 1) ↔
    (ComparisonGenerator.make colours colours false true .left .gt).Covers fun _ => .compound 1 :=
  enumeratesPairs_iff (by decide) _ _ _ _ _ _

-- green is less than red, but red, the first of the iteration, is not: the generator stops there
theorem not_enumeratesPairs_colours :
    ¬EnumeratesPairs colours colours false true .left .gt
      (ComparisonGenerator.make colours colours false true .left .gt).toInstGenerator ⟨false, ⟨0, 0, true, false⟩⟩
      (fun _ => .compound 1) := by
  intro h
  have hcovers := (ComparisonGenerator.enumeratesPairs_iff_covers (g := ⟨colours, colours, false, true, .gt, .left⟩)
    (by decide) (by decide)).mp h
  have hlt : (.compound 0 : SortTables.DomainElement ℕ) < .compound 1 := by
    rw [← not_le, SortTables.DomainElement.compound_le_compound]
    decide
  obtain ⟨c, hmet, hentry⟩ := (hcovers (.compound 1) (.compound 0)).1
    ⟨by decide, by decide, by simpa [compares] using hlt, fun _ => rfl, by decide⟩
  obtain ⟨i, j⟩ := c
  have hj : 0 < j := by
    refine Nat.pos_of_ne_zero fun hj => ?_
    subst hj
    have hgreen : colours.element 0 = some (.compound 0) := hentry.2.1
    exact absurd hgreen (by decide)
  obtain ⟨a, ha, hleaves⟩ := hmet.2 0 hj
  obtain ⟨-, rfl⟩ := ComparisonGenerator.once_eq_some.mp ha
  have hfirst : colours.element 0 = some (.compound 1) := rfl
  simp [Scan.leaves, ComparisonGenerator.scan, ComparisonGenerator.outerSide, Side.other, ComparisonGenerator.sort,
    hfirst, ComparisonGenerator.passes, ComparisonGenerator.cut, compares] at hleaves

end Constructed

end Generators
