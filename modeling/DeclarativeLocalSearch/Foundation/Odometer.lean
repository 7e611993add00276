import Mathlib.Data.List.Lex
import Mathlib.Data.Set.Finite.Basic

namespace Odometer

open Relation

-- the positions that a wheel has
abbrev Wheel := ℕ → Bool

def Wheel.Closed (w : Wheel) : Prop := ∀ n, w (n + 1) = true → w n = true

def Wheel.Finite (w : Wheel) : Prop := ∃ n, w n = false

def turn : List Wheel → List ℕ → List ℕ × Bool
  | w :: ws, n :: ns =>
    let (ms, carried) := turn ws ns
    if carried then
      if w (n + 1) then ((n + 1) :: ms, false) else (0 :: ms, true)
    else (n :: ms, false)
  | _, _ => ([], true)

def Turn (ws : List Wheel) (ns ms : List ℕ) : Prop := turn ws ns = (ms, false)

def start (ws : List Wheel) : List ℕ := ws.map fun _ => 0

def Valid (ws : List Wheel) (ns : List ℕ) : Prop := List.Forall₂ (fun w n => w n = true) ws ns

-- every wheel before an infinite one is in its first position
def Settled : List Wheel → List ℕ → Prop
  | _ :: ws, n :: ns => (n = 0 ∨ ∀ w ∈ ws, w.Finite) ∧ Settled ws ns
  | _, _ => True

variable {w : Wheel} {ws : List Wheel} {n : ℕ} {ns ms : List ℕ}

section Turn

attribute [local simp] turn

theorem turn_cons_of_turn (h : Turn ws ns ms) : Turn (w :: ws) (n :: ns) (n :: ms) := by
  rw [Turn, turn, h]
  rfl

theorem turn_cons_of_carry (h : turn ws ns = (ms, true)) (hw : w (n + 1) = true) :
    Turn (w :: ws) (n :: ns) ((n + 1) :: ms) := by
  rw [Turn, turn, h]
  simp [hw]

theorem turn_cons (h : Turn (w :: ws) (n :: ns) ms) :
    (∃ ms', Turn ws ns ms' ∧ ms = n :: ms') ∨
      ∃ ms', turn ws ns = (ms', true) ∧ w (n + 1) = true ∧ ms = (n + 1) :: ms' := by
  rw [Turn, turn] at h
  rcases ht : turn ws ns with ⟨ms', carried⟩
  rw [ht] at h
  cases carried with
  | false => exact Or.inl ⟨ms', ht, (congrArg Prod.fst h).symm⟩
  | true =>
    simp only [if_true] at h
    split_ifs at h with hw
    · exact Or.inr ⟨ms', rfl, hw, (congrArg Prod.fst h).symm⟩
    · exact absurd (congrArg Prod.snd h) Bool.noConfusion

theorem carry_cons (h : turn (w :: ws) (n :: ns) = (ms, true)) :
    ∃ ms', turn ws ns = (ms', true) ∧ w (n + 1) = false ∧ ms = 0 :: ms' := by
  rw [turn] at h
  rcases ht : turn ws ns with ⟨ms', carried⟩
  rw [ht] at h
  cases carried with
  | false => exact absurd (congrArg Prod.snd h) Bool.noConfusion
  | true =>
    simp only [if_true] at h
    split_ifs at h with hw
    · exact absurd (congrArg Prod.snd h) Bool.noConfusion
    · exact ⟨ms', rfl, by simpa using hw, (congrArg Prod.fst h).symm⟩

end Turn

theorem turn_lt (h : Turn ws ns ms) : ns < ms := by
  induction ws generalizing ns ms with
  | nil => exact absurd (congrArg Prod.snd h) Bool.noConfusion
  | cons w ws ih =>
    cases ns with
    | nil => exact absurd (congrArg Prod.snd h) Bool.noConfusion
    | cons n ns =>
      rcases turn_cons h with ⟨ms', hturn, rfl⟩ | ⟨ms', -, -, rfl⟩
      · exact List.Lex.cons (ih hturn)
      · exact List.Lex.rel (Nat.lt_succ_self n)

theorem turn_valid (hv : Valid ws ns) (h0 : ∀ w ∈ ws, w 0 = true) : Valid ws (turn ws ns).1 := by
  induction hv with
  | nil => exact List.Forall₂.nil
  | @cons w n ws ns hwn hv ih =>
    obtain ⟨hw, hws⟩ := List.forall_mem_cons.mp h0
    have ih := ih hws
    rw [turn]
    rcases ht : turn ws ns with ⟨ms', carried⟩
    rw [ht] at ih
    cases carried with
    | false => exact List.Forall₂.cons hwn ih
    | true =>
      simp only [if_true]
      split_ifs with hn
      · exact List.Forall₂.cons hn ih
      · exact List.Forall₂.cons hw ih

theorem carry_start (hv : Valid ws ns) (h : turn ws ns = (ms, true)) :
    ms = start ws ∧ ∀ w ∈ ws, w.Finite := by
  induction hv generalizing ms with
  | nil =>
    obtain rfl : [] = ms := congrArg Prod.fst h
    exact ⟨rfl, fun _ hw => absurd hw List.not_mem_nil⟩
  | cons hwn hv ih =>
    obtain ⟨ms', hms', hw, rfl⟩ := carry_cons h
    obtain ⟨rfl, hfin⟩ := ih hms'
    exact ⟨rfl, List.forall_mem_cons.mpr ⟨⟨_, hw⟩, hfin⟩⟩

theorem start_settled (ws : List Wheel) : Settled ws (start ws) := by
  induction ws with
  | nil => trivial
  | cons w ws ih => exact ⟨Or.inl rfl, ih⟩

theorem turn_settled (hv : Valid ws ns) (hs : Settled ws ns) (h : Turn ws ns ms) :
    Settled ws ms := by
  induction hv generalizing ms with
  | nil => exact absurd (congrArg Prod.snd h) Bool.noConfusion
  | cons hwn hv ih =>
    rcases turn_cons h with ⟨ms', hturn, rfl⟩ | ⟨ms', hcarry, -, rfl⟩
    · exact ⟨hs.1, ih hs.2 hturn⟩
    · obtain ⟨rfl, hfin⟩ := carry_start hv hcarry
      exact ⟨Or.inr hfin, start_settled _⟩

abbrev Turns (ws : List Wheel) : List ℕ → List ℕ → Prop := ReflTransGen (Turn ws)

theorem turns_cons (h : Turns ws ns ms) : Turns (w :: ws) (n :: ns) (n :: ms) :=
  h.lift (n :: ·) fun _ _ => turn_cons_of_turn

theorem turns_le (h : Turns ws ns ms) : ns ≤ ms := by
  induction h with
  | refl => exact le_refl ns
  | tail _ ht ih => exact le_trans ih (turn_lt ht).le

theorem start_valid (h0 : ∀ w ∈ ws, w 0 = true) : Valid ws (start ws) := by
  induction ws with
  | nil => exact List.Forall₂.nil
  | cons w ws ih =>
    obtain ⟨hw, hws⟩ := List.forall_mem_cons.mp h0
    exact List.Forall₂.cons hw (ih hws)

theorem turns_valid (h0 : ∀ w ∈ ws, w 0 = true) (hv : Valid ws ns) (h : Turns ws ns ms) :
    Valid ws ms := by
  induction h with
  | refl => exact hv
  | @tail ks ls _ ht ih =>
    have hks := turn_valid ih h0
    rwa [ht] at hks

theorem Wheel.Closed.of_le (hc : w.Closed) {m : ℕ} (h : m ≤ n) (hn : w n = true) : w m = true := by
  induction h with
  | refl => exact hn
  | step _ ih => exact ih (hc _ hn)

theorem finite_carries (hc : ∀ w ∈ ws, w.Closed) (h0 : ∀ w ∈ ws, w 0 = true)
    (hf : ∀ w ∈ ws, w.Finite) (hv : Valid ws ns) :
    ∃ ms, Turns ws ns ms ∧ turn ws ms = (start ws, true) := by
  induction ws generalizing ns with
  | nil =>
    cases hv
    exact ⟨[], ReflTransGen.refl, rfl⟩
  | cons w ws ih =>
    obtain ⟨hwc, hc⟩ := List.forall_mem_cons.mp hc
    obtain ⟨-, h0⟩ := List.forall_mem_cons.mp h0
    obtain ⟨⟨last, hlast⟩, hf⟩ := List.forall_mem_cons.mp hf
    have ih := fun ks (hks : Valid ws ks) => ih hc h0 hf hks
    -- the first wheel is turned on until its last position
    have main : ∀ (k n : ℕ) (ns : List ℕ), last ≤ n + k → w n = true → Valid ws ns →
        ∃ ms, Turns (w :: ws) (n :: ns) ms ∧ turn (w :: ws) ms = (start (w :: ws), true) := by
      intro k
      induction k with
      | zero =>
        intro n ns hle hn _
        exact absurd (hwc.of_le hle hn) (by simp [hlast])
      | succ k ihk =>
        intro n ns hle hn hns
        obtain ⟨ks, hturns, hcarry⟩ := ih ns hns
        cases hnext : w (n + 1) with
        | false =>
          refine ⟨n :: ks, turns_cons hturns, ?_⟩
          rw [turn, hcarry]
          simp [hnext, start]
        | true =>
          obtain ⟨ms, hms, hend⟩ := ihk (n + 1) (start ws) (by omega) hnext (start_valid h0)
          exact ⟨ms, ((turns_cons hturns).tail (turn_cons_of_carry hcarry hnext)).trans hms, hend⟩
    cases hv with
    | cons hn hns => exact main last _ _ (Nat.le_add_left _ _) hn hns

theorem turns_settled (h0 : ∀ w ∈ ws, w 0 = true) (hv : Valid ws ns) (hs : Settled ws ns)
    (h : Turns ws ns ms) : Settled ws ms := by
  induction h with
  | refl => exact hs
  | tail hprev ht ih => exact turn_settled (turns_valid h0 hv hprev) ih ht

theorem turns_start_iff (hc : ∀ w ∈ ws, w.Closed) (h0 : ∀ w ∈ ws, w 0 = true) :
    Turns ws (start ws) ns ↔ Valid ws ns ∧ Settled ws ns := by
  refine ⟨fun h => ⟨turns_valid h0 (start_valid h0) h,
    turns_settled h0 (start_valid h0) (start_settled ws) h⟩, ?_⟩
  rintro ⟨hv, hs⟩
  induction hv with
  | nil => exact ReflTransGen.refl
  | @cons w n ws ns hn hv ih =>
    obtain ⟨hwc, hc⟩ := List.forall_mem_cons.mp hc
    obtain ⟨-, h0⟩ := List.forall_mem_cons.mp h0
    have htail : Turns (w :: ws) (n :: start ws) (n :: ns) := turns_cons (ih hc h0 hs.2)
    rcases hs.1 with rfl | hf
    · exact htail
    · have hfirst : Turns (w :: ws) (start (w :: ws)) (n :: start ws) := by
        clear htail
        induction n with
        | zero => exact ReflTransGen.refl
        | succ n ihn =>
          obtain ⟨ms, hms, hcarry⟩ := finite_carries hc h0 hf (start_valid h0)
          exact ((ihn (hwc n hn) ⟨Or.inr hf, hs.2⟩).trans (turns_cons hms)).tail
            (turn_cons_of_carry hcarry hn)
      exact hfirst.trans htail

theorem Valid.exists (hv : Valid ws ns) : ∀ w ∈ ws, ∃ n, w n = true := by
  induction hv with
  | nil => exact fun _ hw => absurd hw List.not_mem_nil
  | cons hn _ ih => exact List.forall_mem_cons.mpr ⟨⟨_, hn⟩, ih⟩

theorem turns_total (h : Turns ws ns ms) {ks : List ℕ} (h' : Turns ws ns ks) :
    Turns ws ms ks ∨ Turns ws ks ms :=
  ReflTransGen.total_of_right_unique
    (fun _ _ _ ha hb => congrArg Prod.fst ((Eq.symm ha).trans hb)) h h'

theorem turns_antisymm (h : Turns ws ns ms) (h' : Turns ws ms ns) : ns = ms :=
  le_antisymm (turns_le h) (turns_le h')

theorem between_finite (h : Turns ws ns ms) : {ks | Turns ws ns ks ∧ Turns ws ks ms}.Finite := by
  induction h with
  | refl => exact (Set.finite_singleton ns).subset fun ks hks => (turns_antisymm hks.1 hks.2).symm
  | @tail ls ms hls hturn ih =>
    refine (ih.insert ms).subset fun ks hks => ?_
    rcases turns_total hls hks.1 with hafter | hbefore
    · rcases ReflTransGen.cases_head hafter with rfl | ⟨x, hx, hxks⟩
      · exact Or.inr ⟨hks.1, ReflTransGen.refl⟩
      · obtain rfl : x = ms := congrArg Prod.fst ((Eq.symm hx).trans hturn)
        exact Or.inl (turns_antisymm hks.2 hxks)
    · exact Or.inr ⟨hks.1, hbefore⟩

end Odometer
