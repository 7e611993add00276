import Mathlib.Order.WellFounded
import Mathlib.Data.Fintype.Card

namespace Descent

variable {σ ρ : Type}

-- the state after n steps, none once a step has ended the run; what a step does may depend on when it is made
def after (step : ℕ → σ → Option σ) (s : σ) : ℕ → Option σ
  | 0 => some s
  | n + 1 => (after step s n).bind (step n)

def Ends (step : ℕ → σ → Option σ) (s : σ) : Prop := ∃ n, after step s n = none

variable {step : ℕ → σ → Option σ} {s : σ}

theorem after_succ {n : ℕ} {a : σ} (h : after step s n = some a) : after step s (n + 1) = step n a := by
  rw [after, h, Option.bind_some]

theorem after_cons (n : ℕ) : after step s (n + 1) = (step 0 s).bind fun a => after (fun i => step (i + 1)) a n := by
  induction n with
  | zero =>
    rw [@after_succ _ step _ _ _ rfl]
    cases step 0 s <;> rfl
  | succ n ih =>
    rw [after, ih]
    cases step 0 s <;> rfl

theorem exists_after_of_loop {τ : Type} (loop : ℕ → σ → Option τ) (out : σ → τ) (hzero : ∀ a, loop 0 a = some (out a))
    (hstep : ∀ t a b, step t a = some b → loop (t + 1) a = loop t b)
    (hend : ∀ t a, step t a = none → loop (t + 1) a = some (out a) ∨ loop (t + 1) a = none) {n : ℕ} {x : τ}
    (h : loop n s = some x) : ∃ k ≤ n, ∃ a, after (fun i => step (n - 1 - i)) s k = some a ∧ out a = x := by
  induction n generalizing s with
  | zero => exact ⟨0, Nat.le_refl 0, s, rfl, Option.some.inj ((hzero s).symm.trans h)⟩
  | succ t ih =>
    cases hs : step t s with
    | none =>
      rcases hend t s hs with hout | hnone
      · exact ⟨0, Nat.zero_le _, s, rfl, Option.some.inj (hout.symm.trans h)⟩
      · exact absurd (hnone.symm.trans h) nofun
    | some b =>
      obtain ⟨k, hk, a, hrun, ha⟩ := ih ((hstep t s b hs).symm.trans h)
      refine ⟨k + 1, Nat.succ_le_succ hk, a, ?_, ha⟩
      rw [after_cons, Nat.add_sub_cancel, Nat.sub_zero, hs, Option.bind_some, ← hrun]
      congr 1
      funext i
      rw [Nat.sub_sub, Nat.add_comm 1 i]

theorem invariant {I : σ → Prop} (hs : I s) (hstep : ∀ n a b, I a → step n a = some b → I b) {n : ℕ} {a : σ}
    (h : after step s n = some a) : I a := by
  induction n generalizing a with
  | zero => exact Option.some.inj h ▸ hs
  | succ n ih =>
    obtain ⟨b, hb, hab⟩ := Option.bind_eq_some_iff.mp h
    exact hstep n b a (ih hb) hab

theorem ends_of_decreasing {r : ρ → ρ → Prop} (hr : WellFounded r) (f : σ → ρ)
    (h : ∀ n a b, after step s n = some a → step n a = some b → r (f b) (f a)) : Ends step s := by
  by_contra hends
  have hgoes : ∀ n, ∃ a, after step s n = some a := fun n =>
    Option.ne_none_iff_exists'.mp fun hnone => hends ⟨n, hnone⟩
  choose run hrun using hgoes
  have : IsWellFounded ρ r := ⟨hr⟩
  obtain ⟨n, hn⟩ := WellFounded.not_rel_apply_succ (r := r) fun n => f (run n)
  exact hn (h n (run n) (run (n + 1)) (hrun n) ((after_succ (hrun n)).symm.trans (hrun (n + 1))))

theorem wellFounded_value [Finite σ] (f : σ → Int) : WellFounded fun a b => f a < f b :=
  have : IsTrans σ fun a b => f a < f b := ⟨fun _ _ _ => Int.lt_trans⟩
  have : Std.Irrefl fun a b : σ => f a < f b := ⟨fun _ => Int.lt_irrefl _⟩
  Finite.wellFounded_of_trans_of_irrefl _

end Descent
