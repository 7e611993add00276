import Mathlib

namespace Generators

open Set

-- V: the containers of the variables, which all generators share; D: the domain elements they hold
variable {V D : Type}

-- a call that is given n units of fuel; it returns r once it has enough of them
def Returns {α : Type} (call : ℕ → Option α) (r : α) : Prop := ∀ᶠ n in Filter.atTop, call n = some r

theorem Returns.of_eq {α : Type} {call : ℕ → Option α} {r : α} (h : ∀ n, call n = some r) : Returns call r :=
  Filter.Eventually.of_forall h

theorem Returns.of_some {α : Type} (r : α) : Returns (fun _ => some r) r := .of_eq fun _ => rfl

theorem Returns.of_add {α : Type} {call : ℕ → Option α} {r : α} (m : ℕ) (h : ∀ n, call (n + m) = some r) :
    Returns call r := by
  refine Filter.eventually_atTop.mpr ⟨m, fun n hn => ?_⟩
  rw [← Nat.sub_add_cancel hn, h]

theorem Returns.exists {α : Type} {call : ℕ → Option α} {r : α} (h : Returns call r) : ∃ n, call n = some r :=
  Filter.Eventually.exists h

theorem Returns.unique {α : Type} {call : ℕ → Option α} {r r' : α} (h : Returns call r) (h' : Returns call r') :
    r = r' := by
  obtain ⟨n, hn, hn'⟩ := Filter.Eventually.exists (Filter.Eventually.and h h')
  exact Option.some.inj (hn.symm.trans hn')

theorem Returns.bind {α β : Type} {call : ℕ → Option α} {f : ℕ → α → Option β} {a : α} {r : β} (h : Returns call a)
    (hf : Returns (fun n => f n a) r) : Returns (fun n => (call n).bind (f n)) r := by
  filter_upwards [h, hf] with n hn hfn
  rw [hn, Option.bind_some, hfn]

theorem Returns.map {α β : Type} {call : ℕ → Option α} {a : α} (h : Returns call a) (f : α → β) :
    Returns (fun n => (call n).map f) (f a) := by
  filter_upwards [h] with n hn
  rw [hn, Option.map_some]

theorem Returns.succ {α : Type} {call call' : ℕ → Option α} {r : α} (h : Returns call r)
    (hcall : ∀ n, call' (n + 1) = call n) : Returns call' r := by
  obtain ⟨n, hn⟩ := Filter.eventually_atTop.mp h
  refine Filter.eventually_atTop.mpr ⟨n + 1, fun m hm => ?_⟩
  obtain ⟨m, rfl⟩ := Nat.exists_eq_succ_of_ne_zero (Nat.ne_of_gt (Nat.lt_of_lt_of_le n.succ_pos hm))
  rw [hcall, hn m (Nat.le_of_succ_le_succ hm)]

-- a call that has no result however much fuel it has, as after an exception
def Fails {α : Type} (call : ℕ → Option α) : Prop := ∀ᶠ n in Filter.atTop, call n = none

theorem Returns.bind_fails {α β : Type} {call : ℕ → Option α} {f : ℕ → α → Option β} {a : α} (h : Returns call a)
    (hf : Fails fun n => f n a) : Fails fun n => (call n).bind (f n) := by
  filter_upwards [h, hf] with n hn hfn
  rw [hn, Option.bind_some, hfn]

theorem Fails.bind {α β : Type} {call : ℕ → Option α} (h : Fails call) (f : ℕ → α → Option β) :
    Fails fun n => (call n).bind (f n) := by
  filter_upwards [h] with n hn
  rw [hn, Option.bind_none]

theorem Fails.map {α β : Type} {call : ℕ → Option α} (h : Fails call) (f : α → β) :
    Fails fun n => (call n).map f := by
  filter_upwards [h] with n hn
  rw [hn, Option.map_none]

theorem Fails.succ {α : Type} {call call' : ℕ → Option α} (h : Fails call) (hcall : ∀ n, call' (n + 1) = call n) :
    Fails call' := by
  obtain ⟨n, hn⟩ := Filter.eventually_atTop.mp h
  refine Filter.eventually_atTop.mpr ⟨n + 1, fun m hm => ?_⟩
  obtain ⟨m, rfl⟩ := Nat.exists_eq_succ_of_ne_zero (Nat.ne_of_gt (Nat.lt_of_lt_of_le n.succ_pos hm))
  rw [hcall, hn m (Nat.le_of_succ_le_succ hm)]

theorem Fails.not_returns {α : Type} {call : ℕ → Option α} (h : Fails call) (r : α) : ¬Returns call r := by
  intro hr
  obtain ⟨n, hn, hn'⟩ := Filter.Eventually.exists (Filter.Eventually.and h hr)
  exact absurd (hn.symm.trans hn') nofun

-- the flag end of the base class, and the members of the class derived from it
structure Object (σ : Type) where
  atEnd : Bool
  own : σ

structure InstGenerator (V D : Type) where
  State : Type
  reset : ℕ → Object State → (V → D) → Option (Object State × (V → D))
  next : ℕ → Object State → (V → D) → Option (Object State × (V → D))

structure InstChecker (V D : Type) where
  State : Type
  check : ℕ → State → (V → D) → Option ((Bool × State) × (V → D))

namespace InstGenerator

def begin (G : InstGenerator V D) (n : ℕ) (s : Object G.State) (v : V → D) : Option (Object G.State × (V → D)) :=
  (G.reset n { s with atEnd := false } v).bind fun r => if r.1.atEnd then some r else G.next n r.1 r.2

-- a generator checks by looking for a first instantiation
def checker (G : InstGenerator V D) : InstChecker V D where
  State := Object G.State
  check n s v := (G.begin n s v).map fun r => ((!r.1.atEnd, r.1), r.2)

end InstGenerator

section Write

open Classical in
noncomputable def write (W : Set V) (x : W → D) (v : V → D) : V → D := fun c => if h : c ∈ W then x ⟨c, h⟩ else v c

variable {W : Set V} {x : W → D} {v v' : V → D}

theorem write_mem {c : V} (h : c ∈ W) : write W x v c = x ⟨c, h⟩ := dif_pos h

theorem write_notMem {c : V} (h : c ∉ W) : write W x v c = v c := dif_neg h

theorem domRestrict_write : W.domRestrict (write W x v) = x := funext fun c => write_mem c.2

theorem eqOn_write : EqOn (write W x v) v Wᶜ := fun _ hc => write_notMem hc

theorem write_domRestrict (v : V → D) : write W (W.domRestrict v) v = v := by
  funext c
  by_cases hc : c ∈ W
  · exact write_mem hc
  · exact write_notMem hc

end Write

-- The instantiations of the variables of W that are still to come, the current one first. The next call may be made
-- once the variables of R and of W and the generator's own ones, those of T, are as it left them, and no others are
-- written.
def Ready (G : InstGenerator V D) (R W T : Set V) : List (W → D) → Object G.State → (V → D) → Prop
  | [], s, _ => s.atEnd = true
  | x :: l, s, v => s.atEnd = false ∧ W.domRestrict v = x ∧ ∀ v', EqOn v' v (R ∪ W ∪ T) →
      ∃ r, Returns (fun n => G.next n s v') r ∧ EqOn r.2 v' (W ∪ T)ᶜ ∧ Ready G R W T l r.1 r.2

-- what a call with the containers v leads to
def Delivers (G : InstGenerator V D) (R W T : Set V) (l : List (W → D)) (v : V → D)
    (call : ℕ → Option (Object G.State × (V → D))) : Prop :=
  ∃ r, Returns call r ∧ EqOn r.2 v (W ∪ T)ᶜ ∧ Ready G R W T l r.1 r.2

-- begin may be called in any state and with any values of the input variables
structure Lists (G : InstGenerator V D) (R W T : Set V) (L : (V → D) → List (W → D)) : Prop where
  disjoint : Disjoint R (W ∪ T)
  input : ∀ v v', EqOn v v' R → L v = L v'
  delivers : ∀ s v, Delivers G R W T (L v) v fun n => G.begin n s v

-- The generator enumerates, for the values of the variables of R, the set S of values for those of W: a run of it
-- gives each of them once and then ends. It uses the variables of T for itself.
def Enumerates (G : InstGenerator V D) (R W T : Set V) (S : (V → D) → Set (W → D)) : Prop :=
  ∃ L, Lists G R W T L ∧ ∀ v, (L v).Nodup ∧ ∀ x, x ∈ L v ↔ x ∈ S v

structure Checks (K : InstChecker V D) (R T : Set V) (P : (V → D) → Prop) : Prop where
  input : ∀ v v', EqOn v v' R → (P v ↔ P v')
  decides : ∀ s v, ∃ r, Returns (fun n => K.check n s v) r ∧ EqOn r.2 v Tᶜ ∧ (r.1.1 = true ↔ P v)

-- the object and the containers after begin and k calls of operator++; between two calls the variables of A are left
-- alone
inductive Run (G : InstGenerator V D) (A : Set V) (s : Object G.State) (v : V → D) :
    ℕ → Object G.State × (V → D) → Prop
  | begin {r} : Returns (fun n => G.begin n s v) r → Run G A s v 0 r
  | next {k r v' r'} : Run G A s v k r → r.1.atEnd = false → EqOn v' r.2 A → Returns (fun n => G.next n r.1 v') r' →
      Run G A s v (k + 1) r'

theorem off {v v' : V → D} {A B : Set V} (h : EqOn v v' Bᶜ) (hd : Disjoint A B) : EqOn v v' A :=
  h.mono (subset_compl_iff_disjoint_right.mpr hd)

variable {G : InstGenerator V D} {R W T : Set V}

theorem Ready.atEnd_iff {l : List (W → D)} {s : Object G.State} {v : V → D} (h : Ready G R W T l s v) :
    s.atEnd = true ↔ l = [] := by
  cases l with
  | nil => exact iff_of_true h rfl
  | cons x l => simp [h.1]

theorem Ready.found_iff {l : List (W → D)} {s : Object G.State} {v : V → D} (h : Ready G R W T l s v) :
    (!s.atEnd) = true ↔ l ≠ [] := by
  rw [Bool.not_eq_true', ← Bool.not_eq_true, h.atEnd_iff]

-- others may write other variables in between
theorem Ready.shift {l : List (W → D)} {s : Object G.State} {v v' : V → D} (h : Ready G R W T l s v)
    (hv : EqOn v' v (R ∪ W ∪ T)) : Ready G R W T l s v' := by
  cases l with
  | nil => exact h
  | cons x l =>
    obtain ⟨hend, hx, hnext⟩ := h
    refine ⟨hend, ?_, fun u hu => hnext u (hu.trans hv)⟩
    rw [← hx]
    exact funext fun c => hv (Or.inl (Or.inr c.2))

theorem Delivers.bind {α : Type} {call : ℕ → Option (α × (V → D))} {f : ℕ → α × (V → D) → Option (Object G.State × (V → D))}
    {q : α × (V → D)} {l : List (W → D)} {v : V → D} (hcall : Returns call q) (hq : EqOn q.2 v (W ∪ T)ᶜ)
    (hf : Delivers G R W T l q.2 fun n => f n q) : Delivers G R W T l v fun n => (call n).bind (f n) := by
  obtain ⟨r, hr, hframe, hready⟩ := hf
  exact ⟨r, hcall.bind hr, hframe.trans hq, hready⟩

theorem Delivers.succ {call call' : ℕ → Option (Object G.State × (V → D))} {l : List (W → D)} {v : V → D}
    (h : Delivers G R W T l v call) (hcall : ∀ n, call' (n + 1) = call n) : Delivers G R W T l v call' := by
  obtain ⟨r, hr, hr'⟩ := h
  exact ⟨r, hr.succ hcall, hr'⟩

theorem Delivers.of_some {l : List (W → D)} {s : Object G.State} {v : V → D} (h : Ready G R W T l s v) :
    Delivers G R W T l v fun _ => some (s, v) := ⟨(s, v), .of_some _, eqOn_refl _ _, h⟩

end Generators
