import Mathlib.Data.Prod.Lex
import Mathlib.Data.Nat.Find

namespace Scan

-- a search that moves on from place to place, and stops at each hit on its way
section Search

variable {C : Type} {step : C → Option C} {hit : C → Prop}

-- the first hit from c on, none when the search ends without one
inductive First (step : C → Option C) (hit : C → Prop) : C → Option C → Prop
  | hit {c} : hit c → First step hit c (some c)
  | move {c c' r} : ¬hit c → step c = some c' → First step hit c' r → First step hit c r
  | past {c} : ¬hit c → step c = none → First step hit c none

-- what comes after the hit c
inductive Next (step : C → Option C) (hit : C → Prop) (c : C) : Option C → Prop
  | move {c' r} : step c = some c' → First step hit c' r → Next step hit c r
  | past : step c = none → Next step hit c none

-- the k-th hit, counted from 0, when the search starts at c
inductive Nth (step : C → Option C) (hit : C → Prop) (c : C) : ℕ → Option C → Prop
  | first {r} : First step hit c r → Nth step hit c 0 r
  | next {k a r} : Nth step hit c k (some a) → Next step hit a r → Nth step hit c (k + 1) r

def Reaches (step : C → Option C) : C → C → Prop := Relation.ReflTransGen fun c c' => step c = some c'

theorem First.unique {c : C} {r r' : Option C} (h : First step hit c r) (h' : First step hit c r') : r = r' := by
  induction h with
  | hit hc =>
    cases h' with
    | hit _ => rfl
    | move hn _ _ => exact absurd hc hn
    | past hn _ => exact absurd hc hn
  | move hn hs _ ih =>
    cases h' with
    | hit hc => exact absurd hc hn
    | move _ hs' hf => exact ih (Option.some.inj (hs.symm.trans hs') ▸ hf)
    | past _ hs' => exact absurd (hs.symm.trans hs') nofun
  | past hn hs =>
    cases h' with
    | hit hc => exact absurd hc hn
    | move _ hs' _ => exact absurd (hs.symm.trans hs') nofun
    | past _ _ => rfl

theorem Next.unique {c : C} {r r' : Option C} (h : Next step hit c r) (h' : Next step hit c r') : r = r' := by
  cases h with
  | move hs hf =>
    cases h' with
    | move hs' hf' => exact hf.unique (Option.some.inj (hs.symm.trans hs') ▸ hf')
    | past hs' => exact absurd (hs.symm.trans hs') nofun
  | past hs =>
    cases h' with
    | move hs' _ => exact absurd (hs.symm.trans hs') nofun
    | past _ => rfl

theorem Nth.unique {c : C} {k : ℕ} {r r' : Option C} (h : Nth step hit c k r) (h' : Nth step hit c k r') : r = r' := by
  induction h generalizing r' with
  | first hf =>
    cases h' with
    | first hf' => exact hf.unique hf'
  | next _ hn ih =>
    cases h' with
    | next h' hn' => exact hn.unique (Option.some.inj (ih h') ▸ hn')

theorem First.reaches {c a : C} {r : Option C} (h : First step hit c r) (hr : r = some a) :
    Reaches step c a ∧ hit a := by
  induction h with
  | hit hc => exact Option.some.inj hr ▸ ⟨.refl, hc⟩
  | move _ hs _ ih => exact ⟨.head hs (ih hr).1, (ih hr).2⟩
  | past _ _ => exact absurd hr nofun

theorem Nth.reaches {c a : C} {k : ℕ} {r : Option C} (h : Nth step hit c k r) (hr : r = some a) :
    Reaches step c a ∧ hit a := by
  induction h generalizing a with
  | first hf => exact hf.reaches hr
  | next _ hn ih =>
    cases hn with
    | move hs hf => exact ⟨(ih rfl).1.trans (.head hs (hf.reaches hr).1), (hf.reaches hr).2⟩
    | past _ => exact absurd hr nofun

theorem Nth.head {c c' : C} {k : ℕ} {r : Option C} (hs : step c = some c') (h : Nth step hit c' k r) :
    ∃ k', Nth step hit c k' r := by
  induction h with
  | first hf =>
    by_cases hc : hit c
    · exact ⟨1, .next (.first (.hit hc)) (.move hs hf)⟩
    · exact ⟨0, .first (.move hc hs hf)⟩
  | next _ hn ih =>
    obtain ⟨k', hk'⟩ := ih
    exact ⟨k' + 1, .next hk' hn⟩

theorem nth_iff {c a : C} : (∃ k, Nth step hit c k (some a)) ↔ Reaches step c a ∧ hit a := by
  constructor
  · rintro ⟨k, h⟩
    exact h.reaches rfl
  · rintro ⟨hreach, ha⟩
    induction hreach using Relation.ReflTransGen.head_induction_on with
    | refl => exact ⟨0, .first (.hit ha)⟩
    | head hs _ ih =>
      obtain ⟨k, hk⟩ := ih
      exact hk.head hs

theorem Nth.index_unique {ι : Type} [Preorder ι] (rank : C → ι) (hrank : ∀ c c', step c = some c' → rank c < rank c')
    {c a : C} {k k' : ℕ} (h : Nth step hit c k (some a)) (h' : Nth step hit c k' (some a)) : k = k' := by
  have hle : ∀ {a b}, Reaches step a b → rank a ≤ rank b := by
    intro a b h
    induction h with
    | refl => exact le_rfl
    | tail _ hs ih => exact ih.trans (hrank _ _ hs).le
  have hlt : ∀ {m k : ℕ} {a b : C}, k < m → Nth step hit c m (some b) → Nth step hit c k (some a) → rank a < rank b := by
    intro m
    induction m with
    | zero => exact fun h => absurd h (Nat.not_lt_zero _)
    | succ m ih =>
      intro k a b hkm hb ha
      cases hb with
      | @next _ d _ hd hn =>
        cases hn with
        | move hs hf =>
          have hdb : rank d < rank b := (hrank _ _ hs).trans_le (hle (hf.reaches rfl).1)
          rcases Nat.lt_succ_iff_lt_or_eq.mp hkm with hkm | rfl
          · exact (ih hkm hd ha).trans hdb
          · obtain rfl : a = d := Option.some.inj (ha.unique hd)
            exact hdb
  rcases lt_trichotomy k k' with hk | hk | hk
  · exact absurd (hlt hk h' h) (lt_irrefl _)
  · exact hk
  · exact absurd (hlt hk h h') (lt_irrefl _)

-- A loop within a limit that goes from place to place: it stops at a hit, or where it sees that no hit comes.
structure Follows {σ ρ : Type} (step : C → Option C) (hit : C → Prop) (loop : ℕ → σ → Option ρ) (Good : σ → Prop)
    (place : σ → C) (Out : Option C → ρ → Prop) : Prop where
  zero : ∀ s, loop 0 s = none
  succ : ∀ s, Good s →
    (hit (place s) ∧ ∃ r, (∀ n, loop (n + 1) s = some r) ∧ Out (some (place s)) r) ∨
    (¬hit (place s) ∧ ∃ s', Good s' ∧ step (place s) = some (place s') ∧ ∀ n, loop (n + 1) s = loop n s') ∨
    (First step hit (place s) none ∧ ∃ r, (∀ n, loop (n + 1) s = some r) ∧ Out none r)

section Follows

variable {σ ρ : Type} {loop : ℕ → σ → Option ρ} {Good : σ → Prop} {place : σ → C} {Out : Option C → ρ → Prop}

theorem Follows.returns (h : Follows step hit loop Good place Out) {c : C} {o : Option C} (ho : First step hit c o) :
    ∀ {s}, Good s → place s = c → ∃ m r, (∀ n, loop (n + m) s = some r) ∧ Out o r := by
  induction ho with
  | @hit c hc =>
    rintro s hs rfl
    rcases h.succ s hs with ⟨_, r, hr, hout⟩ | ⟨hn, _⟩ | ⟨hf, _⟩
    · exact ⟨1, r, hr, hout⟩
    · exact absurd hc hn
    · exact absurd (hf.unique (.hit hc)) nofun
  | @move c c' o hn hstep hf ih =>
    rintro s hs rfl
    rcases h.succ s hs with ⟨hc, _⟩ | ⟨_, s', hs', hstep', hloop⟩ | ⟨hf', r, hr, hout⟩
    · exact absurd hc hn
    · obtain ⟨m, r, hr, hout⟩ := ih hs' (Option.some.inj (hstep'.symm.trans hstep))
      exact ⟨m + 1, r, fun n => (hloop (n + m)).trans (hr n), hout⟩
    · exact ⟨1, r, hr, hf'.unique (.move hn hstep hf) ▸ hout⟩
  | @past c hn hstep =>
    rintro s hs rfl
    rcases h.succ s hs with ⟨hc, _⟩ | ⟨_, s', _, hstep', _⟩ | ⟨_, r, hr, hout⟩
    · exact absurd hc hn
    · exact absurd (hstep'.symm.trans hstep) nofun
    · exact ⟨1, r, hr, hout⟩

theorem Follows.first (h : Follows step hit loop Good place Out) {n : ℕ} : ∀ {s} {r : ρ}, Good s →
    loop n s = some r → ∃ o, First step hit (place s) o ∧ Out o r := by
  induction n with
  | zero => exact fun _ hr => absurd ((h.zero _).symm.trans hr) nofun
  | succ n ih =>
    intro s r hs hr
    rcases h.succ s hs with ⟨hc, r', hr', hout⟩ | ⟨hn, s', hs', hstep, hloop⟩ | ⟨hf, r', hr', hout⟩
    · exact ⟨_, .hit hc, Option.some.inj ((hr' n).symm.trans hr) ▸ hout⟩
    · obtain ⟨o, ho, hout⟩ := ih hs' ((hloop n).symm.trans hr)
      exact ⟨o, .move hn hstep ho, hout⟩
    · exact ⟨_, hf, Option.some.inj ((hr' n).symm.trans hr) ▸ hout⟩

end Follows

end Search

end Scan

-- An outer sequence with a row for each of its entries. A row that is cut is left at the first entry that does not
-- pass.
structure Scan (A B : Type) where
  outer : ℕ → Option A
  inner : A → ℕ → Option B
  pass : A → B → Bool
  cut : Bool

namespace Scan

variable {A B : Type} (S : Scan A B)

def leaves (a : A) (j : ℕ) : Bool :=
  match S.inner a j with
  | none => true
  | some b => S.cut && !S.pass a b

def step (c : ℕ × ℕ) : Option (ℕ × ℕ) :=
  (S.outer c.1).map fun a => if S.leaves a c.2 then (c.1 + 1, 0) else (c.1, c.2 + 1)

-- the entry at a place that passes
def Entry (c : ℕ × ℕ) (a : A) (b : B) : Prop :=
  S.outer c.1 = some a ∧ S.inner a c.2 = some b ∧ S.pass a b = true

def Hit (c : ℕ × ℕ) : Prop := ∃ a b, S.Entry c a b

-- the rows before are left, and the row of the place is not left before it
def Met (c : ℕ × ℕ) : Prop :=
  (∀ i < c.1, ∃ a, S.outer i = some a ∧ ∃ j, S.leaves a j = true) ∧
    ∀ j < c.2, ∃ a, S.outer c.1 = some a ∧ S.leaves a j = false

variable {S}

theorem Entry.hit {c : ℕ × ℕ} {a : A} {b : B} (h : S.Entry c a b) : S.Hit c := ⟨a, b, h⟩

theorem Entry.unique {c : ℕ × ℕ} {a a' : A} {b b' : B} (h : S.Entry c a b) (h' : S.Entry c a' b') : a = a' ∧ b = b' := by
  obtain ⟨ha, hb, _⟩ := h
  obtain ⟨ha', hb', _⟩ := h'
  obtain rfl : a = a' := Option.some.inj (ha.symm.trans ha')
  exact ⟨rfl, Option.some.inj (hb.symm.trans hb')⟩

theorem Entry.step {c : ℕ × ℕ} {a : A} {b : B} (h : S.Entry c a b) : S.step c = some (c.1, c.2 + 1) := by
  simp [Scan.step, h.1, leaves, h.2.1, h.2.2]

theorem Entry.next_iff {c : ℕ × ℕ} {a : A} {b : B} (h : S.Entry c a b) {o : Option (ℕ × ℕ)} :
    Next S.step S.Hit c o ↔ First S.step S.Hit (c.1, c.2 + 1) o := by
  constructor
  · intro hn
    cases hn with
    | move hs hf => exact Option.some.inj (h.step.symm.trans hs) ▸ hf
    | past hs => exact absurd (h.step.symm.trans hs) nofun
  · exact .move h.step

theorem first_iff_of_step {c c' : ℕ × ℕ} (hmiss : ¬S.Hit c) (hs : S.step c = some c') {o : Option (ℕ × ℕ)} :
    First S.step S.Hit c o ↔ First S.step S.Hit c' o := by
  constructor
  · intro hf
    cases hf with
    | hit hc => exact absurd hc hmiss
    | move _ hs' hf => exact Option.some.inj (hs.symm.trans hs') ▸ hf
    | past _ hs' => exact absurd (hs.symm.trans hs') nofun
  · exact .move hmiss hs

theorem first_iff_of_inner {c : ℕ × ℕ} {a : A} (ha : S.outer c.1 = some a) (hb : S.inner a c.2 = none)
    {o : Option (ℕ × ℕ)} : First S.step S.Hit c o ↔ First S.step S.Hit (c.1 + 1, 0) o := by
  refine first_iff_of_step ?_ (by simp [Scan.step, ha, leaves, hb])
  rintro ⟨a', b', ha', hb', -⟩
  obtain rfl : a = a' := Option.some.inj (ha.symm.trans ha')
  exact absurd (hb.symm.trans hb') nofun

theorem first_iff_of_miss {c : ℕ × ℕ} {a : A} {b : B} (ha : S.outer c.1 = some a) (hb : S.inner a c.2 = some b)
    (hpass : S.pass a b = false) {o : Option (ℕ × ℕ)} :
    First S.step S.Hit c o ↔ First S.step S.Hit (if S.cut then (c.1 + 1, 0) else (c.1, c.2 + 1)) o := by
  refine first_iff_of_step ?_ (by simp [Scan.step, ha, leaves, hb, hpass])
  rintro ⟨a', b', hentry⟩
  obtain ⟨rfl, rfl⟩ : a = a' ∧ b = b' := by
    obtain rfl : a = a' := Option.some.inj (ha.symm.trans hentry.1)
    exact ⟨rfl, Option.some.inj (hb.symm.trans hentry.2.1)⟩
  exact Bool.eq_false_iff.mp hpass hentry.2.2

theorem first_none_of_outer {c : ℕ × ℕ} (ha : S.outer c.1 = none) : First S.step S.Hit c none := by
  refine .past ?_ ?_
  · rintro ⟨a', b', ha', -⟩
    exact absurd (ha.symm.trans ha') nofun
  · simp [Scan.step, ha]

theorem step_lt (c c' : ℕ × ℕ) (h : S.step c = some c') : toLex c < toLex c' := by
  obtain ⟨a, -, rfl⟩ := Option.map_eq_some_iff.mp h
  rw [Prod.Lex.toLex_lt_toLex]
  split
  · exact Or.inl (Nat.lt_succ_self _)
  · exact Or.inr ⟨rfl, Nat.lt_succ_self _⟩

theorem Met.step {c c' : ℕ × ℕ} (h : S.Met c) (hs : S.step c = some c') : S.Met c' := by
  obtain ⟨a, ha, rfl⟩ := Option.map_eq_some_iff.mp hs
  split
  case isTrue hleave =>
    refine ⟨fun i hi => ?_, fun j hj => absurd hj (Nat.not_lt_zero j)⟩
    rcases Nat.lt_succ_iff_lt_or_eq.mp hi with hi | rfl
    · exact h.1 i hi
    · exact ⟨a, ha, c.2, hleave⟩
  case isFalse hleave =>
    refine ⟨h.1, fun j hj => ?_⟩
    rcases Nat.lt_succ_iff_lt_or_eq.mp hj with hj | rfl
    · exact h.2 j hj
    · exact ⟨a, ha, Bool.eq_false_iff.mpr hleave⟩

theorem reaches_of_row {a : A} {i : ℕ} (ha : S.outer i = some a) (j : ℕ) (h : ∀ j' < j, S.leaves a j' = false) :
    Reaches S.step (i, 0) (i, j) := by
  induction j with
  | zero => exact .refl
  | succ j ih =>
    refine .tail (ih fun j' hj' => h j' (Nat.lt_succ_of_lt hj')) ?_
    simp [Scan.step, ha, h j (Nat.lt_succ_self j)]

theorem reaches_row (i : ℕ) (h : ∀ i' < i, ∃ a, S.outer i' = some a ∧ ∃ j, S.leaves a j = true) :
    Reaches S.step (0, 0) (i, 0) := by
  induction i with
  | zero => exact .refl
  | succ i ih =>
    obtain ⟨a, ha, hleave⟩ := h i (Nat.lt_succ_self i)
    have hrow : Reaches S.step (i, 0) (i, Nat.find hleave) :=
      reaches_of_row ha _ fun j hj => Bool.eq_false_iff.mpr (Nat.find_min hleave hj)
    refine .tail ((ih fun i' hi' => h i' (Nat.lt_succ_of_lt hi')).trans hrow) ?_
    simp [Scan.step, ha, Nat.find_spec hleave]

theorem reaches_iff {c : ℕ × ℕ} : Reaches S.step (0, 0) c ↔ S.Met c := by
  constructor
  · intro h
    induction h with
    | refl => exact ⟨fun i hi => absurd hi (Nat.not_lt_zero i), fun j hj => absurd hj (Nat.not_lt_zero j)⟩
    | tail _ hs ih => exact ih.step hs
  · obtain ⟨i, j⟩ := c
    rintro ⟨hrows, hrow⟩
    refine (reaches_row i hrows).trans ?_
    cases j with
    | zero => exact .refl
    | succ j =>
      obtain ⟨a, ha, -⟩ := hrow 0 (Nat.succ_pos j)
      refine reaches_of_row ha _ fun j' hj' => ?_
      obtain ⟨a', ha', hleave⟩ := hrow j' hj'
      exact Option.some.inj (ha.symm.trans ha') ▸ hleave

-- the k-th entry that passes
def Yields (S : Scan A B) (k : ℕ) (a : A) (b : B) : Prop :=
  ∃ c, Nth S.step S.Hit (0, 0) k (some c) ∧ S.Entry c a b

theorem yields_iff {a : A} {b : B} : (∃ k, S.Yields k a b) ↔ ∃ c, S.Met c ∧ S.Entry c a b := by
  constructor
  · rintro ⟨k, c, hk, hc⟩
    exact ⟨c, reaches_iff.mp (hk.reaches rfl).1, hc⟩
  · rintro ⟨c, hmet, hc⟩
    obtain ⟨k, hk⟩ := nth_iff.mpr ⟨reaches_iff.mpr hmet, hc.hit⟩
    exact ⟨k, c, hk, hc⟩

theorem yields_unique_iff {a : A} {b : B} : (∀ k k', S.Yields k a b → S.Yields k' a b → k = k') ↔
    ∀ c c', S.Met c → S.Met c' → S.Entry c a b → S.Entry c' a b → c = c' := by
  constructor
  · intro h c c' hmet hmet' hc hc'
    obtain ⟨k, hk⟩ := nth_iff.mpr ⟨reaches_iff.mpr hmet, hc.hit⟩
    obtain ⟨k', hk'⟩ := nth_iff.mpr ⟨reaches_iff.mpr hmet', hc'.hit⟩
    obtain rfl := h k k' ⟨c, hk, hc⟩ ⟨c', hk', hc'⟩
    exact Option.some.inj (hk.unique hk')
  · rintro h k k' ⟨c, hk, hc⟩ ⟨c', hk', hc'⟩
    obtain rfl := h c c' (reaches_iff.mp (hk.reaches rfl).1) (reaches_iff.mp (hk'.reaches rfl).1) hc hc'
    exact hk.index_unique toLex step_lt hk'

end Scan
