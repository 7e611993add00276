import Mathlib.Algebra.Order.Group.Int

namespace CheckedInt

abbrev Value (low high : ℤ) := {n : ℤ // low ≤ n ∧ n ≤ high}

variable {low high : ℤ}

instance decidableLE (a b : Value low high) : Decidable (a ≤ b) := inferInstanceAs (Decidable (a.1 ≤ b.1))

instance decidableLT (a b : Value low high) : Decidable (a < b) := inferInstanceAs (Decidable (a.1 < b.1))

def checked (n : ℤ) : Option (Value low high) := if h : low ≤ n ∧ n ≤ high then some ⟨n, h⟩ else none

theorem checked_eq_some {n : ℤ} {v : Value low high} : checked n = some v ↔ v.1 = n := by
  unfold checked
  split_ifs with h
  · rw [Option.some.injEq, Subtype.ext_iff, eq_comm]
  · exact iff_of_false nofun fun hv => h (hv ▸ v.2)

theorem checked_eq_none {n : ℤ} : (checked n : Option (Value low high)) = none ↔ n < low ∨ high < n := by
  unfold checked
  split_ifs with h
  · exact iff_of_false nofun (by omega)
  · exact iff_of_true rfl (by omega)

@[simp]
theorem checked_val (v : Value low high) : checked v.1 = some v := checked_eq_some.mpr rfl

section Loop

variable {σ : Type} (stop : Value low high) (body : Value low high → σ → Option σ)

-- for (i = start; i <= stop; ++i), where ++i has no result at the largest value
def iterate : ℕ → Value low high → σ → Option σ
  | 0, _, s => some s
  | n + 1, i, s =>
    if i ≤ stop then do
      let s ← body i s
      let i ← checked (i.1 + 1)
      iterate n i s
    else some s

def loop (start : Value low high) (s : σ) : Option σ :=
  iterate stop body ((stop.1 - start.1 + 1).toNat + 1) start s

variable {stop body}

theorem iterate_spec (P : ℤ → σ → Prop) (hstop : stop.1 < high) {n : ℕ} {i : Value low high} {s : σ}
    (hn : stop.1 - i.1 + 1 < n) (hi : i.1 ≤ stop.1 + 1) (h : P i.1 s)
    (hbody : ∀ j : Value low high, i ≤ j → j ≤ stop → ∀ s, P j.1 s → ∃ s', body j s = some s' ∧ P (j.1 + 1) s') :
    ∃ s', iterate stop body n i s = some s' ∧ P (stop.1 + 1) s' := by
  induction n generalizing i s with
  | zero => omega
  | succ n ih =>
    rw [iterate]
    split_ifs with hle
    · obtain ⟨s', hs', hP⟩ := hbody i le_rfl hle s h
      have hle' : i.1 ≤ stop.1 := hle
      have hnext : (checked (i.1 + 1) : Option (Value low high)) =
          some ⟨i.1 + 1, i.2.1.trans (by omega), by omega⟩ := checked_eq_some.mpr rfl
      rw [hs', Option.bind_eq_bind, Option.bind_some, hnext, Option.bind_eq_bind, Option.bind_some]
      refine ih (by simp only; omega) (by simp only; omega) hP fun j hj => hbody j ?_
      have hj' : i.1 + 1 ≤ j.1 := hj
      exact show i.1 ≤ j.1 by omega
    · have hlt : ¬ i.1 ≤ stop.1 := hle
      refine ⟨s, rfl, ?_⟩
      rwa [show stop.1 + 1 = i.1 by omega]

theorem loop_spec (P : ℤ → σ → Prop) {start : Value low high} (hstop : stop.1 < high)
    (hle : start.1 ≤ stop.1 + 1) {s : σ} (h : P start.1 s)
    (hbody : ∀ j : Value low high, start ≤ j → j ≤ stop → ∀ s, P j.1 s →
      ∃ s', body j s = some s' ∧ P (j.1 + 1) s') :
    ∃ s', loop stop body start s = some s' ∧ P (stop.1 + 1) s' :=
  iterate_spec P hstop (by omega) hle h hbody

theorem loop_empty {start : Value low high} (h : stop < start) (s : σ) :
    loop stop body start s = some s := by
  rw [loop, iterate, if_neg h.not_ge]

-- what holds of a result when every round keeps it, and that there was every round
theorem iterate_keeps (P : ℤ → σ → Prop) {n : ℕ} {i : Value low high} {s s' : σ}
    (hr : iterate stop body n i s = some s') (hn : stop.1 - i.1 + 1 < n) (hi : i.1 ≤ stop.1 + 1)
    (h : P i.1 s)
    (hbody : ∀ j : Value low high, i ≤ j → j ≤ stop → ∀ s s', P j.1 s → body j s = some s' →
      P (j.1 + 1) s') :
    P (stop.1 + 1) s' ∧ ∀ j : Value low high, i ≤ j → j ≤ stop → ∃ s s', P j.1 s ∧ body j s = some s' := by
  induction n generalizing i s with
  | zero => omega
  | succ n ih =>
    rw [iterate] at hr
    split_ifs at hr with hle
    · simp only [Option.bind_eq_bind, Option.bind_eq_some_iff] at hr
      obtain ⟨s1, hs1, i1, hi1, hr⟩ := hr
      have hi1 := checked_eq_some.mp hi1
      have hle' : i.1 ≤ stop.1 := hle
      have hlater : ∀ j : Value low high, i1 ≤ j → i ≤ j := by
        intro j hj
        have hj' : i1.1 ≤ j.1 := hj
        exact show i.1 ≤ j.1 by omega
      obtain ⟨hP, hrounds⟩ := ih hr (by omega) (by omega) (hi1 ▸ hbody i le_rfl hle s s1 h hs1)
        fun j hj => hbody j (hlater j hj)
      refine ⟨hP, fun j hj hjs => ?_⟩
      by_cases heq : j = i
      · exact heq ▸ ⟨s, s1, h, hs1⟩
      · have hlt : i.1 < j.1 := lt_of_le_of_ne hj fun h => heq (Subtype.ext h.symm)
        exact hrounds j (show i1.1 ≤ j.1 by omega) hjs
    · have hlt : ¬ i.1 ≤ stop.1 := hle
      obtain rfl := Option.some.inj hr
      rw [show stop.1 + 1 = i.1 by omega]
      exact ⟨h, fun j hj hjs => absurd (hj.trans hjs) hle⟩

theorem loop_keeps (P : ℤ → σ → Prop) {start : Value low high} {s s' : σ}
    (hr : loop stop body start s = some s') (hle : start.1 ≤ stop.1 + 1) (h : P start.1 s)
    (hbody : ∀ j : Value low high, start ≤ j → j ≤ stop → ∀ s s', P j.1 s → body j s = some s' →
      P (j.1 + 1) s') :
    P (stop.1 + 1) s' ∧
      ∀ j : Value low high, start ≤ j → j ≤ stop → ∃ s s', P j.1 s ∧ body j s = some s' :=
  iterate_keeps P hr (by omega) hle h hbody

theorem iterate_none {n : ℕ} {i : Value low high} (s : σ) (hstop : stop.1 = high) (hn : stop.1 - i.1 + 1 < n) :
    iterate stop body n i s = none := by
  induction n generalizing i s with
  | zero =>
    have := i.2.2
    omega
  | succ n ih =>
    have hle : i.1 ≤ stop.1 := i.2.2.trans_eq hstop.symm
    rw [iterate, if_pos (show i ≤ stop from hle)]
    simp only [Option.bind_eq_bind, Option.bind_eq_none_iff]
    intro s1 _ i1 hi1
    have := checked_eq_some.mp hi1
    exact ih s1 (by omega)

theorem loop_none {start : Value low high} (s : σ) (hstop : stop.1 = high) :
    loop stop body start s = none :=
  iterate_none s hstop (by omega)

end Loop

end CheckedInt
