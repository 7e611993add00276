import Mathlib.Data.List.Sublists
import Mathlib.Data.List.Range

namespace Subsets

section Walk

variable {α β : Type}

-- the list of everything that comes from x by taking one step after the other
inductive Walk (step : α → Option α) : α → List α → Prop
  | last (x) (hlast : step x = none) : Walk step x [x]
  | next (x y L) (hnext : step x = some y) (hwalk : Walk step y L) : Walk step x (x :: L)

variable {step : α → Option α} {step' : β → Option β} {f : α → β}

theorem Walk.map_append {x : α} {L : List α} {y : β} {M : List β} (h : Walk step x L)
    (hstep : ∀ a ∈ L, ∀ b, step a = some b → step' (f a) = some (f b))
    (hlast : ∀ a ∈ L, step a = none → step' (f a) = some y) (hM : Walk step' y M) :
    Walk step' (f x) (L.map f ++ M) := by
  induction h with
  | last x hnone => exact .next _ _ _ (hlast x (by simp) hnone) hM
  | next x z L hnext hwalk ih =>
    refine .next _ _ _ (hstep x (by simp) z hnext) ?_
    exact ih (fun a ha => hstep a (by simp [ha])) (fun a ha => hlast a (by simp [ha]))

theorem Walk.map {x : α} {L : List α} (h : Walk step x L)
    (hstep : ∀ a ∈ L, ∀ b, step a = some b → step' (f a) = some (f b))
    (hlast : ∀ a ∈ L, step a = none → step' (f a) = none) : Walk step' (f x) (L.map f) := by
  induction h with
  | last x hnone => exact .last _ (hlast x (by simp) hnone)
  | next x z L hnext hwalk ih =>
    refine .next _ _ _ (hstep x (by simp) z hnext) ?_
    exact ih (fun a ha => hstep a (by simp [ha])) (fun a ha => hlast a (by simp [ha]))

end Walk

section Combinations

-- increasing lists of numbers below n, the first at least lo
def Rises (n : ℕ) : ℕ → List ℕ → Prop
  | _, [] => True
  | lo, c :: cs => lo ≤ c ∧ c + cs.length < n ∧ Rises n (c + 1) cs

-- the next list of the same length in lexicographic order
def succ (n : ℕ) : List ℕ → Option (List ℕ)
  | [] => none
  | c :: cs =>
    match succ n cs with
    | some cs' => some (c :: cs')
    | none => if c + cs.length + 1 < n then some (List.range' (c + 1) (cs.length + 1)) else none

def combinations (lo : ℕ) : ℕ → ℕ → List (List ℕ)
  | _, 0 => [[]]
  | 0, _ + 1 => []
  | d + 1, k + 1 => (combinations (lo + 1) d k).map (lo :: ·) ++ combinations (lo + 1) d (k + 1)

variable {n lo d k : ℕ} {l l' : List ℕ}

theorem Rises.mono {lo' : ℕ} (hle : lo' ≤ lo) (h : Rises n lo l) : Rises n lo' l := by
  cases l with
  | nil => trivial
  | cons c cs => exact ⟨hle.trans h.1, h.2⟩

theorem Rises.raise {lo' : ℕ} (h : Rises n lo l) (hhead : ∀ c ∈ l.head?, lo' ≤ c) : Rises n lo' l := by
  cases l with
  | nil => trivial
  | cons c cs => exact ⟨hhead c rfl, h.2⟩

theorem Rises.le {i : ℕ} (h : Rises n lo l) (hi : i ∈ l) : lo ≤ i := by
  induction l generalizing lo with
  | nil => cases hi
  | cons c cs ih =>
    obtain rfl | hcs := List.mem_cons.mp hi
    · exact h.1
    · exact h.1.trans (c.le_succ.trans (ih h.2.2 hcs))

theorem rises_range' (h : lo + k ≤ n) : Rises n lo (List.range' lo k) := by
  induction k generalizing lo with
  | zero => trivial
  | succ k ih =>
    rw [List.range'_succ]
    exact ⟨le_rfl, by rw [List.length_range']; omega, ih (by omega)⟩

theorem length_succ (h : succ n l = some l') : l'.length = l.length := by
  induction l generalizing l' with
  | nil => cases h
  | cons c cs ih =>
    rw [succ] at h
    split at h
    case h_1 cs' hcs =>
      obtain rfl := Option.some.inj h
      rw [List.length_cons, List.length_cons, ih hcs]
    case h_2 =>
      split at h
      · obtain rfl := Option.some.inj h
        rw [List.length_range', List.length_cons]
      · cases h

theorem Rises.succ (hl : Rises n lo l) (h : succ n l = some l') : Rises n lo l' := by
  induction l generalizing lo l' with
  | nil => cases h
  | cons c cs ih =>
    obtain ⟨hlo, hlt, hcs⟩ := hl
    rw [Subsets.succ] at h
    split at h
    case h_1 cs' hsucc =>
      obtain rfl := Option.some.inj h
      exact ⟨hlo, by rw [length_succ hsucc]; exact hlt, ih hcs hsucc⟩
    case h_2 =>
      split at h
      case isTrue hroom =>
        obtain rfl := Option.some.inj h
        exact (rises_range' (by omega)).mono (by omega)
      case isFalse => cases h

theorem succ_eq_none_iff (hl : Rises n lo l) : succ n l = none ↔ ∀ c ∈ l.head?, c + l.length = n := by
  induction l generalizing lo with
  | nil => simp [succ]
  | cons c cs ih =>
    obtain ⟨hlo, hlt, hcs⟩ := hl
    have ih := ih hcs
    rw [succ]
    cases hsucc : succ n cs with
    | some cs' =>
      refine iff_of_false nofun fun h => ?_
      have hc : c + (cs.length + 1) = n := by simpa using h
      have hnone : succ n cs = none := ih.mpr fun c' hc' => by
        obtain ⟨cs, rfl⟩ := List.head?_eq_some_iff.mp hc'
        obtain ⟨hc', hlt', _⟩ := hcs
        simp only [List.length_cons] at hc hlt' ⊢
        omega
      rw [hnone] at hsucc
      cases hsucc
    | none =>
      simp only [List.head?_cons, Option.mem_some_iff, List.length_cons, forall_eq']
      split
      · exact iff_of_false nofun (by omega)
      · exact iff_of_true rfl (by omega)

theorem Rises.getD_last {c : ℕ} {cs : List ℕ} (h : Rises n lo (c :: cs)) :
    c + cs.length ≤ (c :: cs).getD cs.length 0 ∧ (c :: cs).getD cs.length 0 < n := by
  induction cs generalizing lo c with
  | nil => exact ⟨le_rfl, h.2.1⟩
  | cons c' cs ih =>
    obtain ⟨_, _, htail⟩ := h
    obtain ⟨hle, hlt⟩ := ih htail
    rw [List.length_cons, List.getD_cons_succ]
    exact ⟨by have := htail.1; omega, hlt⟩

theorem succ_of_last_lt {c : ℕ} {cs : List ℕ} (hroom : (c :: cs).getD cs.length 0 + 1 < n) :
    succ n (c :: cs) = some ((c :: cs).set cs.length ((c :: cs).getD cs.length 0 + 1)) := by
  induction cs generalizing c with
  | nil => simpa [succ, List.range'_succ] using hroom
  | cons c' cs ih =>
    rw [List.length_cons, List.getD_cons_succ] at hroom ⊢
    rw [succ, ih hroom, List.set_cons_succ]

theorem mem_set_last {c e i : ℕ} {cs : List ℕ} (h : Rises n lo (c :: cs)) :
    i ∈ (c :: cs).set cs.length e ↔ i = e ∨ i ∈ c :: cs ∧ i ≠ (c :: cs).getD cs.length 0 := by
  induction cs generalizing lo c with
  | nil => simp
  | cons c' cs ih =>
    obtain ⟨_, _, htail⟩ := h
    have hlast := htail.getD_last.1
    have hc := htail.1
    rw [List.length_cons, List.getD_cons_succ, List.set_cons_succ, List.mem_cons, ih htail,
      List.mem_cons (l := c' :: cs)]
    constructor
    · rintro (rfl | rfl | hi)
      · exact .inr ⟨.inl rfl, by omega⟩
      · exact .inl rfl
      · exact .inr ⟨.inr hi.1, hi.2⟩
    · rintro (rfl | ⟨rfl | hi, hne⟩)
      · exact .inr (.inl rfl)
      · exact .inl rfl
      · exact .inr (.inr ⟨hi, hne⟩)

theorem combinations_eq_nil (h : d < k) : combinations lo d k = [] := by
  induction d generalizing lo k with
  | zero =>
    obtain ⟨k, rfl⟩ := Nat.exists_eq_succ_of_ne_zero h.ne'
    rfl
  | succ d ih =>
    obtain ⟨k, rfl⟩ := Nat.exists_eq_succ_of_ne_zero (Nat.ne_zero_of_lt h)
    rw [combinations, ih (by omega), ih (by omega)]
    rfl

theorem length_of_mem_combinations (h : l ∈ combinations lo d k) : l.length = k := by
  induction d generalizing lo k l with
  | zero =>
    cases k with
    | zero => exact List.mem_singleton.mp h ▸ rfl
    | succ k => cases h
  | succ d ih =>
    cases k with
    | zero => exact List.mem_singleton.mp h ▸ rfl
    | succ k =>
      rw [combinations, List.mem_append, List.mem_map] at h
      obtain ⟨cs, hcs, rfl⟩ | h := h
      · rw [List.length_cons, ih hcs]
      · exact ih h

theorem walk_combinations (hk : k ≤ d) (hn : lo + d = n) :
    Walk (succ n) (List.range' lo k) (combinations lo d k) := by
  induction d generalizing lo k with
  | zero =>
    obtain rfl := Nat.le_zero.mp hk
    exact .last _ rfl
  | succ d ih =>
    cases k with
    | zero => exact .last _ rfl
    | succ k =>
      have hfirst : Walk (succ n) (List.range' (lo + 1) k) (combinations (lo + 1) d k) := ih (by omega) (by omega)
      have hgoes : ∀ a ∈ combinations (lo + 1) d k, ∀ b, succ n a = some b → succ n (lo :: a) = some (lo :: b) := by
        intro a _ b hb
        rw [succ, hb]
      rw [List.range'_succ, combinations]
      obtain hroom | rfl := Nat.lt_or_eq_of_le (Nat.le_of_succ_le_succ hk)
      · refine hfirst.map_append hgoes (fun a ha hnone => ?_) (ih hroom (by omega))
        rw [succ, hnone, length_of_mem_combinations ha]
        simp only
        rw [if_pos (by omega)]
      · rw [combinations_eq_nil k.lt_succ_self, List.append_nil]
        refine hfirst.map hgoes fun a ha hnone => ?_
        rw [succ, hnone, length_of_mem_combinations ha]
        simp only
        rw [if_neg (by omega)]

theorem combinations_eq_reverse : combinations lo d k = (List.sublistsLen k (List.range' lo d)).reverse := by
  induction d generalizing lo k with
  | zero => cases k <;> rfl
  | succ d ih =>
    cases k with
    | zero => simp [combinations]
    | succ k =>
      rw [combinations, ih, ih, List.range'_succ, List.sublistsLen_succ_cons, List.reverse_append, List.map_reverse]

theorem mem_combinations : l ∈ combinations 0 n k ↔ l.Sublist (List.range n) ∧ l.length = k := by
  rw [combinations_eq_reverse, List.mem_reverse, List.mem_sublistsLen, List.range_eq_range']

end Combinations

end Subsets
