import DeclarativeLocalSearch.LazyGrounding.DelayedRule
import Mathlib.Data.List.Dedup

namespace LazyGrounding

open Grounding (Lit bodyHolds)

variable {Q D : Type} {arity : Q → ℕ} {args : List (HeadArg D)} {headinst : List D} {σ σ' : ℕ → Option D} {v i : ℕ}

def HeadArg.value (σ : ℕ → Option D) : HeadArg D → Option D
  | .var v => σ v
  | .dom d => some d

-- the head is the atom, under the values
def Matches (args : List (HeadArg D)) (headinst : List D) (σ : ℕ → Option D) : Prop :=
  args.map (HeadArg.value σ) = headinst.map some

theorem Matches.length (h : Matches args headinst σ) : args.length = headinst.length := by
  simpa [Matches] using congrArg List.length h

theorem Matches.get (h : Matches args headinst σ) (hi : args[i]? = some (.var v)) : headinst[i]? = σ v := by
  have hget := congrArg (·[i]?) h
  simp only [List.getElem?_map, hi, Option.map_some, HeadArg.value] at hget
  cases hinst : headinst[i]? with
  | none => simp [hinst] at hget
  | some d => simpa [hinst] using hget.symm

theorem Matches.congr (h : Matches args headinst σ) (h' : Matches args headinst σ') (hv : .var v ∈ args) : σ v = σ' v := by
  obtain ⟨i, hi⟩ := List.mem_iff_getElem?.mp hv
  rw [← h.get hi, h'.get hi]

theorem mem_positions : i ∈ positions args v ↔ args[i]? = some (.var v) := by
  rw [positions, List.mem_filterMap]
  constructor
  · rintro ⟨⟨arg, j⟩, hmem, hsome⟩
    have hget := List.mem_zipIdx_iff_getElem?.mp hmem
    cases arg with
    | dom d => exact absurd hsome nofun
    | var w =>
      by_cases hw : w = v
      · obtain rfl : j = i := by simpa [hw] using hsome
        exact hw ▸ hget
      · simp [hw] at hsome
  · exact fun h => ⟨(.var v, i), List.mem_zipIdx_iff_getElem?.mpr h, by simp⟩

theorem mem_headVars : v ∈ headVars args ↔ .var v ∈ args := by
  rw [headVars, List.mem_filterMap]
  constructor
  · rintro ⟨arg, harg, hsome⟩
    cases arg with
    | dom d => exact absurd hsome nofun
    | var w => exact Option.some.inj hsome ▸ harg
  · exact fun h => ⟨_, h, rfl⟩

theorem setContainers_get : ∀ {args : List (HeadArg D)} {headinst : List D} {σ : ℕ → Option D},
    args.length = headinst.length → HeadArg.var v ∈ args →
      ∃ i : ℕ, args[i]? = some (HeadArg.var v) ∧ setContainers args headinst σ v = headinst[i]? := by
  have hset : ∀ {args : List (HeadArg D)} {headinst : List D} {σ : ℕ → Option D}, HeadArg.var v ∉ args →
      setContainers args headinst σ v = σ v := by
    intro args
    induction args with
    | nil => exact fun _ => rfl
    | cons arg args ih =>
      intro headinst σ hv
      obtain ⟨hne, hrest⟩ := not_or.mp (mt List.mem_cons.mpr hv)
      cases headinst with
      | nil => cases arg <;> rfl
      | cons d headinst =>
        cases arg with
        | dom e => exact ih hrest
        | var w => exact (ih hrest).trans (Function.update_of_ne (fun heq : v = w => hne (heq ▸ rfl)) _ _)
  intro args
  induction args with
  | nil => exact fun _ hv => absurd hv List.not_mem_nil
  | cons arg args ih =>
    intro headinst σ hlength hv
    obtain ⟨d, headinst, rfl⟩ := List.exists_cons_of_length_eq_add_one hlength.symm
    by_cases hmem : HeadArg.var v ∈ args
    · have hlength' := Nat.succ.inj hlength
      cases arg with
      | dom e =>
        obtain ⟨i, hi, hvalue⟩ := ih (σ := σ) hlength' hmem
        exact ⟨i + 1, hi, hvalue⟩
      | var w =>
        obtain ⟨i, hi, hvalue⟩ := ih (σ := Function.update σ w (some d)) hlength' hmem
        exact ⟨i + 1, hi, hvalue⟩
    · obtain rfl := (List.mem_cons.mp hv).resolve_right hmem
      exact ⟨0, rfl, (hset hmem).trans (Function.update_self ..)⟩

variable [DecidableEq D]

theorem Matches.matchesHead (h : Matches args headinst σ) : matchesHead args headinst = true := by
  rw [LazyGrounding.matchesHead, Bool.and_eq_true]
  constructor
  · simp only [samevalues, List.all_eq_true, List.mem_map, List.mem_dedup, forall_exists_index, and_imp,
      forall_apply_eq_imp_iff₂, beq_iff_eq]
    intro v hv i hi
    have hne := List.ne_nil_of_mem hi
    have hfirst := mem_positions.mp (List.head_mem hne)
    rw [List.head?_eq_some_head hne, Option.bind_some, h.get hfirst, h.get (mem_positions.mp hi)]
  · rw [List.all_eq_true]
    rintro ⟨arg, d⟩ hmem
    obtain ⟨i, hi⟩ := List.mem_iff_getElem?.mp hmem
    obtain ⟨harg, hd⟩ := List.getElem?_zip_eq_some.mp hi
    cases arg with
    | var v => rfl
    | dom e =>
      have hget := congrArg (·[i]?) h
      simp only [List.getElem?_map, harg, hd, Option.map_some, HeadArg.value, Option.some.injEq] at hget
      simp [hget]

theorem matches_setContainers (hlength : args.length = headinst.length) (h : matchesHead args headinst = true) :
    Matches args headinst (setContainers args headinst σ) := by
  rw [matchesHead, Bool.and_eq_true] at h
  obtain ⟨hsame, hdom⟩ := h
  simp only [samevalues, List.all_eq_true, List.mem_map, List.mem_dedup, forall_exists_index, and_imp,
    forall_apply_eq_imp_iff₂, beq_iff_eq] at hsame
  refine List.ext_getElem? fun i => ?_
  rw [List.getElem?_map, List.getElem?_map]
  cases harg : args[i]? with
  | none =>
    have hnone : headinst[i]? = none := by
      rw [List.getElem?_eq_none_iff] at harg ⊢
      omega
    rw [hnone, Option.map_none, Option.map_none]
  | some arg =>
    obtain ⟨hi, -⟩ := List.getElem?_eq_some_iff.mp harg
    have hd := List.getElem?_eq_getElem (l := headinst) (hlength ▸ hi)
    rw [hd, Option.map_some, Option.map_some, Option.some.injEq]
    cases arg with
    | dom e =>
      have hmem : (HeadArg.dom e, headinst[i]) ∈ args.zip headinst :=
        List.mem_of_getElem? (List.getElem?_zip_eq_some.mpr ⟨harg, hd⟩)
      have heq := List.all_eq_true.mp hdom _ hmem
      simp only [beq_iff_eq] at heq
      rw [HeadArg.value, heq]
    | var v =>
      have hv := List.mem_of_getElem? harg
      obtain ⟨j, hj, hvalue⟩ := setContainers_get (σ := σ) hlength hv
      have hpositions := hsame v (mem_headVars.mpr hv)
      rw [HeadArg.value, hvalue, hpositions j (mem_positions.mpr hj), ← hpositions i (mem_positions.mpr harg), hd]

section Erase

variable {ν : ℕ → Prop} {b : ConjOrDisj}

-- true and false do not stand next to other literals where they decide the body
structure ConjOrDisj.Plain (b : ConjOrDisj) : Prop where
  conj : b.conj = true → falseLit ∈ b.literals → ∀ lit ∈ b.literals, lit = falseLit
  disj : b.conj = false → trueLit ∈ b.literals → ∀ lit ∈ b.literals, lit = trueLit ∨ lit = falseLit

def ConjOrDisj.holds (ν : ℕ → Prop) (b : ConjOrDisj) : Prop := bodyHolds ν b.literals b.conj

theorem mem_erase {lit : Lit} : lit ∈ b.erase.literals ↔ lit ∈ b.literals ∧ lit ≠ trueLit ∧ lit ≠ falseLit := by
  simp [ConjOrDisj.erase]

theorem erase_conj : b.erase.conj = true ↔ if b.literals ≠ [] ∧ b.erase.literals = [] then
    ∃ lit ∈ b.literals, lit ≠ falseLit else b.conj = true := by
  have hconj : b.erase.conj = if b.literals ≠ [] ∧ b.erase.literals = [] then
    ! b.literals.all (fun lit => lit = falseLit) else b.conj := rfl
  rw [hconj]
  by_cases h : b.literals ≠ [] ∧ b.erase.literals = []
  · rw [if_pos h, if_pos h]
    simp
  · rw [if_neg h, if_neg h]

theorem trueLit_holds (hν : ν trueLit.atom) : trueLit.holds ν := Grounding.Lit.holds_pos.mpr hν

theorem falseLit_not_holds (hν : ν trueLit.atom) : ¬ falseLit.holds ν :=
  fun h => Grounding.Lit.holds_neg.mp h (trueLit_holds hν)

theorem erase_holds (hν : ν trueLit.atom) (hplain : b.Plain) : b.erase.holds ν ↔ b.holds ν := by
  have htrue := trueLit_holds hν
  have hfalse := falseLit_not_holds hν
  have hempty : b.erase.literals = [] ↔ ∀ lit ∈ b.literals, lit = trueLit ∨ lit = falseLit := by
    rw [List.eq_nil_iff_forall_not_mem]
    exact forall_congr' fun lit => by rw [mem_erase]; tauto
  by_cases hnil : b.literals ≠ [] ∧ b.erase.literals = []
  · have hall := hempty.mp hnil.2
    have hconj := (erase_conj (b := b)).trans (by rw [if_pos hnil])
    have hholds : b.erase.holds ν ↔ b.erase.conj = true := by
      rw [ConjOrDisj.holds, hnil.2]
      cases b.erase.conj <;> simp [bodyHolds]
    rw [hholds, hconj, ConjOrDisj.holds, bodyHolds]
    cases hb : b.conj with
    | true =>
      rw [if_pos rfl]
      constructor
      · rintro ⟨lit, hmem, hne⟩ lit' hmem'
        rcases hall lit' hmem' with rfl | rfl
        · exact htrue
        · exact absurd (hplain.conj hb hmem' lit hmem) hne
      · intro h
        obtain ⟨lit, hmem⟩ := List.exists_mem_of_ne_nil _ hnil.1
        exact ⟨lit, hmem, fun heq => hfalse (heq ▸ h lit hmem)⟩
    | false =>
      rw [if_neg Bool.false_ne_true]
      refine exists_congr fun lit => and_congr_right fun hmem => ?_
      rcases hall lit hmem with rfl | rfl
      · exact iff_of_true (by decide) htrue
      · exact iff_of_false (fun h => h rfl) hfalse
  · have hconj : b.erase.conj = b.conj := Bool.eq_iff_iff.mpr ((erase_conj (b := b)).trans (by rw [if_neg hnil]))
    rw [ConjOrDisj.holds, ConjOrDisj.holds, hconj, bodyHolds, bodyHolds]
    cases hb : b.conj with
    | true =>
      rw [if_pos rfl, if_pos rfl]
      refine ⟨fun h lit hmem => ?_, fun h lit hmem => h lit (mem_erase.mp hmem).1⟩
      by_cases hmem' : lit = falseLit
      · subst hmem'
        have hne : b.literals ≠ [] := List.ne_nil_of_mem hmem
        exact absurd ⟨hne, hempty.mpr fun lit' h' => Or.inr (hplain.conj hb hmem lit' h')⟩ hnil
      · by_cases hlit : lit = trueLit
        · exact hlit ▸ htrue
        · exact h lit (mem_erase.mpr ⟨hmem, hlit, hmem'⟩)
    | false =>
      rw [if_neg Bool.false_ne_true, if_neg Bool.false_ne_true]
      constructor
      · rintro ⟨lit, hmem, hlit⟩
        exact ⟨lit, (mem_erase.mp hmem).1, hlit⟩
      · rintro ⟨lit, hmem, hlit⟩
        have hmem' : lit ≠ falseLit := fun heq => hfalse (heq ▸ hlit)
        by_cases heq : lit = trueLit
        · subst heq
          exact absurd ⟨List.ne_nil_of_mem hmem, hempty.mpr (hplain.disj hb hmem)⟩ hnil
        · exact ⟨lit, mem_erase.mpr ⟨hmem, heq, hmem'⟩, hlit⟩

end Erase

end LazyGrounding
