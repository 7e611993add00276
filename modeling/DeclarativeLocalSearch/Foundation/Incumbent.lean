import Mathlib

namespace Incumbent

variable {S V : Type} [LinearOrder V]

structure State (S V : Type) where
  best : Option S
  bestVal : V
  visited : List S

def start (ini : S) (v : V) : State S V := ⟨none, v, [ini]⟩

def offer (i : State S V) (s : S) (v : V) : State S V :=
  if v < i.bestVal then ⟨some s, v, i.visited ++ [s]⟩ else { i with visited := i.visited ++ [s] }

def close (i : State S V) (ini : S) : State S V := { i with best := some (i.best.getD ini) }

structure Tracks (obj : S → V) (ini : S) (i : State S V) : Prop where
  started : ini ∈ i.visited
  least : ∀ s ∈ i.visited, i.bestVal ≤ obj s
  attained : obj (i.best.getD ini) = i.bestVal
  seen : i.best.getD ini ∈ i.visited

structure Reports (obj : S → V) (i : State S V) : Prop where
  best : ∃ s, i.best = some s ∧ s ∈ i.visited ∧ obj s = i.bestVal
  least : ∀ s ∈ i.visited, i.bestVal ≤ obj s

theorem tracks_start (obj : S → V) (ini : S) : Tracks obj ini (start ini (obj ini)) :=
  ⟨by simp [start], by simp [start], rfl, by simp [start]⟩

theorem tracks_offer {obj : S → V} {ini : S} {i : State S V} (h : Tracks obj ini i) (s : S) :
    Tracks obj ini (offer i s (obj s)) := by
  unfold offer
  split
  · rename_i hlt
    refine ⟨by simp [h.started], ?_, rfl, by simp⟩
    intro t ht
    rcases List.mem_append.mp ht with ht | ht
    · exact le_trans (le_of_lt hlt) (h.least t ht)
    · rw [List.mem_singleton.mp ht]
  · rename_i hlt
    refine ⟨by simp [h.started], ?_, h.attained, by simp [h.seen]⟩
    intro t ht
    rcases List.mem_append.mp ht with ht | ht
    · exact h.least t ht
    · rw [List.mem_singleton.mp ht]
      exact not_lt.mp hlt

theorem reports_close {obj : S → V} {ini : S} {i : State S V} (h : Tracks obj ini i) :
    Reports obj (close i ini) :=
  ⟨⟨_, rfl, h.seen, h.attained⟩, h.least⟩

theorem reports_iff {obj : S → V} {ini : S} {i : State S V} (h : Tracks obj ini i) :
    Reports obj i ↔ i.best ≠ none := by
  constructor
  · rintro ⟨⟨s, hs, -⟩, -⟩
    simp [hs]
  · intro hb
    obtain ⟨s, hs⟩ := Option.ne_none_iff_exists'.mp hb
    have ha := h.attained
    have hm := h.seen
    rw [hs] at ha hm
    exact ⟨⟨s, hs, hm, ha⟩, h.least⟩

-- an inner run that starts at the incumbent's value and reports its own best
def absorb (i j : State S V) : State S V :=
  match j.best with
  | some s => if j.bestVal < i.bestVal then ⟨some s, j.bestVal, i.visited ++ j.visited⟩
      else { i with visited := i.visited ++ j.visited }
  | none => { i with visited := i.visited ++ j.visited }

theorem tracks_absorb {obj : S → V} {ini : S} {i j : State S V} (h : Tracks obj ini i)
    (hj : Reports obj j) : Tracks obj ini (absorb i j) := by
  obtain ⟨⟨s, hs, hm, ha⟩, hl⟩ := hj
  unfold absorb
  rw [hs]
  dsimp only
  split
  · rename_i hlt
    refine ⟨by simp [h.started], ?_, ha, by simp [hm]⟩
    intro t ht
    rcases List.mem_append.mp ht with ht | ht
    · exact le_trans (le_of_lt hlt) (h.least t ht)
    · exact hl t ht
  · rename_i hlt
    refine ⟨by simp [h.started], ?_, h.attained, by simp [h.seen]⟩
    intro t ht
    rcases List.mem_append.mp ht with ht | ht
    · exact h.least t ht
    · exact le_trans (not_lt.mp hlt) (hl t ht)

end Incumbent
