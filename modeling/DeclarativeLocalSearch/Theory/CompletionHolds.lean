import DeclarativeLocalSearch.Theory.Completion
import DeclarativeLocalSearch.Theory.NormalFormHolds
import DeclarativeLocalSearch.Theory.SimplifyHolds

set_option linter.unusedSectionVars false

namespace Theory

open Quantified Structure

variable {S P F D : Type} [DecidableEq S] {I : Structure S P F D}

section Agree

theorem holds_congr_free {f : Formula S P F D} {e e' : Variable S → D}
    (h : ∀ v ∈ f.freeVars, e v = e' v) : I.holds f e ↔ I.holds f e' := agree.2.2 f e e' h

theorem values_congr_free {ts : List (Term S P F D)} {e e' : Variable S → D}
    (h : ∀ v ∈ termsFreeVars ts, e v = e' v) : I.values ts e = I.values ts e' :=
  values_congr fun t ht => agree.1 t e e' fun v hv => h v (mem_termsFreeVars.mpr ⟨t, ht, hv⟩)

end Agree

section UnnestTerms

variable (V : SortedVocabulary S P F) {symbol : PFSymbol S P F} {e : Variable S → D}

theorem holds_equality (s : S) (v : Variable S) (t : Term S P F D) (e : Variable S → D) :
    I.holds (.pred .pos (.eq s) [.var v, t]) e ↔ I.value t e = some (e v) := by
  rw [holds, values, values, values, SIGN.apply, applied_pair]
  simp only [value, Option.some.injEq, atom]
  constructor
  · rintro ⟨d, d', rfl, ht, x, hx⟩
    obtain ⟨rfl, hx⟩ := List.cons.inj hx
    obtain ⟨rfl, -⟩ := List.cons.inj hx
    exact ht
  · exact fun ht => ⟨_, _, rfl, ht, _, rfl⟩

theorem equalities_iff (i : ℕ) (ts : List (Term S P F D)) (n : ℕ) :
    (∀ f ∈ equalities V (moveHeadTerms V symbol i ts n), I.holds f e) ↔
      I.values ts e = ((moveHeadTerms V symbol i ts n).map fun x => e x.1).map some := by
  induction ts generalizing i n with
  | nil => simp [moveHeadTerms, equalities, values]
  | cons t ts ih =>
    cases t with
    | var v =>
      simp only [moveHeadTerms, equalities, List.filterMap_cons, Option.map_none, values, value,
        List.map_cons, List.cons.injEq, true_and]
      exact ih (i + 1) n
    | _ =>
      simp only [moveHeadTerms, equalities, List.filterMap_cons, Option.map_some, values, List.map_cons,
        List.cons.injEq, List.forall_mem_cons, holds_equality]
      exact and_congr_right fun _ => ih (i + 1) (n + 1)

theorem mem_movedVars {i n : ℕ} {ts : List (Term S P F D)} {w : Variable S}
    (h : w ∈ movedVars (moveHeadTerms V symbol i ts n)) : n ≤ w.id ∧ w.id < n + ts.length := by
  induction ts generalizing i n with
  | nil => exact absurd h nofun
  | cons t ts ih =>
    cases t with
    | var v =>
      have hrest := ih h
      rw [List.length_cons]
      omega
    | _ =>
      rcases List.mem_cons.mp h with rfl | h
      · exact ⟨Nat.le_refl n, Nat.lt_add_of_pos_right (Nat.succ_pos _)⟩
      · have hrest := ih h
        rw [List.length_cons]
        omega

theorem mem_heads {i n : ℕ} {ts : List (Term S P F D)} {v : Variable S} :
    v ∈ (moveHeadTerms V symbol i ts n).map Prod.fst ↔
      .var v ∈ ts ∨ v ∈ movedVars (moveHeadTerms V symbol i ts n) := by
  induction ts generalizing i n with
  | nil => simp [moveHeadTerms, movedVars]
  | cons t ts ih =>
    cases t with
    | var w =>
      have hrest := ih (i := i + 1) (n := n)
      simp only [moveHeadTerms, movedVars, List.map_cons, List.mem_cons, List.filterMap_cons,
        Option.map_none, Term.var.injEq] at hrest ⊢
      rw [hrest, or_assoc]
    | _ =>
      have hrest := ih (i := i + 1) (n := n + 1)
      simp only [moveHeadTerms, movedVars, List.map_cons, List.mem_cons, List.filterMap_cons,
        Option.map_some, reduceCtorEq, false_or] at hrest ⊢
      rw [hrest, or_left_comm]

theorem length_moveHeadTerms (i : ℕ) (ts : List (Term S P F D)) (n : ℕ) :
    (moveHeadTerms V symbol i ts n).length = ts.length := by
  induction ts generalizing i n with
  | nil => rfl
  | cons t ts ih => cases t <;> exact congrArg Nat.succ (ih _ _)

theorem mem_of_moved {i n : ℕ} {ts : List (Term S P F D)} {w : Variable S} {t : Term S P F D}
    (h : (w, some t) ∈ moveHeadTerms V symbol i ts n) : t ∈ ts := by
  induction ts generalizing i n with
  | nil => exact absurd h List.not_mem_nil
  | cons t' ts ih =>
    cases t' with
    | var v =>
      rcases List.mem_cons.mp h with h | h
      · exact absurd (Prod.mk.inj h).2 nofun
      · exact List.mem_cons_of_mem _ (ih h)
    | _ =>
      rcases List.mem_cons.mp h with h | h
      · exact List.mem_cons.mpr (Or.inl (Option.some.inj (Prod.mk.inj h).2))
      · exact List.mem_cons_of_mem _ (ih h)

theorem mem_equalities {i n : ℕ} {ts : List (Term S P F D)} {f : Formula S P F D}
    (h : f ∈ equalities V (moveHeadTerms V symbol i ts n)) :
    ∃ w ∈ movedVars (moveHeadTerms V symbol i ts n), ∃ t ∈ ts, ∃ s, f = .pred .pos (.eq s) [.var w, t] := by
  obtain ⟨⟨w, t⟩, hmem, hf⟩ := List.mem_filterMap.mp h
  cases t with
  | none => exact absurd hf nofun
  | some t =>
    exact ⟨w, List.mem_filterMap.mpr ⟨_, hmem, rfl⟩, t, mem_of_moved V hmem, _, (Option.some.inj hf).symm⟩

-- the values of the moved terms are in the sorts of the symbol
def movedSorted (I : Structure S P F D) (symbol : PFSymbol S P F) :
    ℕ → List (Term S P F D) → List D → Prop
  | i, .var _ :: ts, _ :: ds => movedSorted I symbol (i + 1) ts ds
  | i, _ :: ts, d :: ds => I.sort (V.sort symbol i) d ∧ movedSorted I symbol (i + 1) ts ds
  | _, _, _ => True

theorem movedSorted_iff (i n : ℕ) (ts : List (Term S P F D)) :
    movedSorted V I symbol i ts ((moveHeadTerms V symbol i ts n).map fun x => e x.1) ↔
      Sorted I (movedVars (moveHeadTerms V symbol i ts n)) e := by
  induction ts generalizing i n with
  | nil => exact iff_of_true trivial nofun
  | cons t ts ih =>
    cases t with
    | var v => exact ih (i + 1) n
    | _ =>
      refine Iff.trans ?_ List.forall_mem_cons.symm
      exact and_congr_right fun _ => ih (i + 1) (n + 1)

-- the moved variables take the values of a tuple
def moveValues : List (Variable S × Option (Term S P F D)) → List D → (Variable S → D) → Variable S → D
  | (_, none) :: head, _ :: ds, e => moveValues head ds e
  | (w, some _) :: head, d :: ds, e => Function.update (moveValues head ds e) w d
  | _, _, e => e

theorem moveValues_of_not_mem {head : List (Variable S × Option (Term S P F D))} {ds : List D}
    {v : Variable S} (h : v ∉ movedVars head) : moveValues head ds e v = e v := by
  induction head generalizing ds with
  | nil => cases ds <;> rfl
  | cons x head ih =>
    obtain ⟨w, t⟩ := x
    cases ds with
    | nil => cases t <;> rfl
    | cons d ds =>
      cases t with
      | none => exact ih h
      | some t =>
        obtain ⟨hw, h⟩ := List.ne_and_not_mem_of_not_mem_cons h
        exact (Function.update_of_ne hw _ _).trans (ih h)

theorem head_ne {i n : ℕ} {ts : List (Term S P F D)} (hbelow : ∀ v ∈ termsFreeVars ts, v.id < n)
    {v : Variable S} (h : v ∈ (moveHeadTerms V symbol i ts (n + 1)).map Prod.fst) : v.id ≠ n := by
  rcases (mem_heads V).mp h with hv | hv
  · exact Nat.ne_of_lt (hbelow v (mem_termsFreeVars.mpr ⟨_, hv, List.mem_singleton_self v⟩))
  · exact Nat.ne_of_gt (mem_movedVars V hv).1

theorem map_moveValues {i n : ℕ} {ts : List (Term S P F D)} {ds : List D}
    (hbelow : ∀ v ∈ termsFreeVars ts, v.id < n) (h : I.values ts e = ds.map some) :
    (moveHeadTerms V symbol i ts n).map (fun x => moveValues (moveHeadTerms V symbol i ts n) ds e x.1) = ds := by
  induction ts generalizing i n ds with
  | nil =>
    rw [List.map_eq_nil_iff.mp h.symm]
    rfl
  | cons t ts ih =>
    obtain ⟨d, ds, rfl, hd, hds⟩ := List.map_eq_cons_iff.mp h.symm
    have hts : ∀ v ∈ termsFreeVars ts, v.id < n := fun v hv => hbelow v (List.mem_append_right _ hv)
    cases t with
    | var v =>
      refine congrArg₂ List.cons ?_ (ih hts hds.symm)
      have hv : v ∉ movedVars (moveHeadTerms V symbol (i + 1) ts n) := fun hmem =>
        absurd (mem_movedVars V hmem).1 (Nat.not_le.mpr (hbelow v (List.mem_append_left _ (List.mem_singleton_self v))))
      exact (moveValues_of_not_mem hv).trans (Option.some.inj hd).symm
    | _ =>
      refine congrArg₂ List.cons (Function.update_self _ _ _) ?_
      refine Eq.trans (List.map_congr_left fun x hx => ?_)
        (ih (i := i + 1) (n := n + 1) (fun v hv => Nat.lt_succ_of_lt (hts v hv)) hds.symm)
      exact Function.update_of_ne (fun heq => head_ne V hts (List.mem_map_of_mem hx) (congrArg Variable.id heq)) _ _

end UnnestTerms

section Matches

-- each term has the value at its position, but a variable at its last one only
def looselyMatches (I : Structure S P F D) (e : Variable S → D) : List (Term S P F D) → List D → Prop
  | [], [] => True
  | .var v :: ts, d :: ds => (.var v ∉ ts → e v = d) ∧ looselyMatches I e ts ds
  | t :: ts, d :: ds => I.value t e = some d ∧ looselyMatches I e ts ds
  | _, _ => False

theorem looselyMatches_congr {e e' : Variable S → D} {ts : List (Term S P F D)} {ds : List D}
    (h : ∀ t ∈ ts, I.value t e = I.value t e') : looselyMatches I e ts ds ↔ looselyMatches I e' ts ds := by
  induction ts generalizing ds with
  | nil => cases ds <;> exact Iff.rfl
  | cons t ts ih =>
    obtain ⟨ht, hts⟩ := List.forall_mem_cons.mp h
    cases ds with
    | nil => cases t <;> exact Iff.rfl
    | cons d ds =>
      cases t with
      | var v =>
        have hv : e v = e' v := Option.some.inj ht
        exact and_congr (by rw [hv]) (ih hts)
      | _ => exact and_congr (by rw [ht]) (ih hts)

variable {e e' : Variable S → D} {ts : List (Term S P F D)} {ds : List D}

theorem looselyMatches_of_values (h : I.values ts e = ds.map some) : looselyMatches I e ts ds := by
  induction ts generalizing ds with
  | nil =>
    rw [List.map_eq_nil_iff.mp h.symm]
    trivial
  | cons t ts ih =>
    obtain ⟨d, ds, rfl, hd, hds⟩ := List.map_eq_cons_iff.mp h.symm
    cases t with
    | var v => exact ⟨fun _ => (Option.some.inj hd).symm, ih hds.symm⟩
    | _ => exact ⟨hd.symm, ih hds.symm⟩

variable (V : SortedVocabulary S P F) {symbol : PFSymbol S P F} {i n : ℕ}

theorem var_mem_heads {ts : List (Term S P F D)} {v : Variable S} :
    (.var v : Term S P F D) ∈ (moveHeadTerms V symbol i ts n).map (fun x => .var x.1) ↔
      v ∈ (moveHeadTerms V symbol i ts n).map Prod.fst := by
  simp

theorem agree_of_matches (hbelow : ∀ v ∈ termsFreeVars ts, v.id < n)
    (h : looselyMatches I e ((moveHeadTerms V symbol i ts n).map fun x => .var x.1) ds)
    (h' : looselyMatches I e' ts ds) {v : Variable S} (hv : .var v ∈ ts) : e v = e' v := by
  induction ts generalizing i n ds with
  | nil => exact absurd hv List.not_mem_nil
  | cons t ts ih =>
    have hts : ∀ v ∈ termsFreeVars ts, v.id < n := fun v hv => hbelow v (List.mem_append_right _ hv)
    cases ds with
    | nil => cases t <;> exact h'.elim
    | cons d ds =>
      cases t with
      | var w =>
        by_cases hlater : .var v ∈ ts
        · exact ih hts h.2 h'.2 hlater
        · obtain rfl : v = w := by simpa [hlater] using hv
          refine (h.1 fun hmem => ?_).trans (h'.1 hlater).symm
          rcases (mem_heads V).mp ((var_mem_heads V).mp hmem) with hvar | hmoved
          · exact hlater hvar
          · exact absurd (mem_movedVars V hmoved).1
              (Nat.not_le.mpr (hbelow v (List.mem_append_left _ (List.mem_singleton_self v))))
      | _ =>
        have hlater : .var v ∈ ts := by simpa using hv
        exact ih (n := n + 1) (fun v hv => Nat.lt_succ_of_lt (hts v hv)) h.2 h'.2 hlater

theorem moved_eq {d : D} (hbelow : ∀ v ∈ termsFreeVars ts, v.id < n)
    (h : (.var ⟨n, V.sort symbol i⟩ : Term S P F D) ∉
        (moveHeadTerms V symbol (i + 1) ts (n + 1)).map (fun x => .var x.1) → e ⟨n, V.sort symbol i⟩ = d) :
    e ⟨n, V.sort symbol i⟩ = d :=
  h fun hmem => head_ne V hbelow ((var_mem_heads V).mp hmem) rfl

theorem matches_of_heads (hbelow : ∀ v ∈ termsFreeVars ts, v.id < n)
    (h : looselyMatches I e ((moveHeadTerms V symbol i ts n).map fun x => .var x.1) ds)
    (heq : ∀ f ∈ equalities V (moveHeadTerms V symbol i ts n), I.holds f e) : looselyMatches I e ts ds := by
  induction ts generalizing i n ds with
  | nil => cases ds <;> exact h
  | cons t ts ih =>
    have hts : ∀ v ∈ termsFreeVars ts, v.id < n := fun v hv => hbelow v (List.mem_append_right _ hv)
    cases ds with
    | nil => cases t <;> exact h.elim
    | cons d ds =>
      cases t with
      | var w =>
        refine ⟨fun hlater => h.1 fun hmem => ?_, ih hts h.2 heq⟩
        rcases (mem_heads V).mp ((var_mem_heads V).mp hmem) with hvar | hmoved
        · exact hlater hvar
        · exact absurd (mem_movedVars V hmoved).1
            (Nat.not_le.mpr (hbelow w (List.mem_append_left _ (List.mem_singleton_self w))))
      | _ =>
        obtain ⟨hvalue, hrest⟩ := List.forall_mem_cons.mp heq
        rw [holds_equality, moved_eq V hts h.1] at hvalue
        exact ⟨hvalue, ih (n := n + 1) (fun v hv => Nat.lt_succ_of_lt (hts v hv)) h.2 hrest⟩

theorem equalities_of_matches (hbelow : ∀ v ∈ termsFreeVars ts, v.id < n)
    (h : looselyMatches I e ((moveHeadTerms V symbol i ts n).map fun x => .var x.1) ds)
    (h' : looselyMatches I e' ts ds) (hvalue : ∀ t ∈ ts, I.value t e = I.value t e') :
    ∀ f ∈ equalities V (moveHeadTerms V symbol i ts n), I.holds f e := by
  induction ts generalizing i n ds with
  | nil => exact fun f hf => absurd hf List.not_mem_nil
  | cons t ts ih =>
    have hts : ∀ v ∈ termsFreeVars ts, v.id < n := fun v hv => hbelow v (List.mem_append_right _ hv)
    obtain ⟨ht, hrest⟩ := List.forall_mem_cons.mp hvalue
    cases ds with
    | nil => cases t <;> exact h'.elim
    | cons d ds =>
      cases t with
      | var w => exact ih hts h.2 h'.2 hrest
      | _ =>
        refine List.forall_mem_cons.mpr ⟨?_, ih (n := n + 1) (fun v hv => Nat.lt_succ_of_lt (hts v hv)) h.2 h'.2 hrest⟩
        rw [holds_equality, moved_eq V hts h.1, ht]
        exact h'.1

theorem old2newheadvars_matches {vs hs : List (Variable S)} (hlength : vs.length = hs.length)
    (e : Variable S → D) {σ : Variable S → Variable S}
    (hσ : ∀ v ∈ vs, σ v = ReplaceDefinitionsWithCompletion.old2newheadvars
      (vs.map .var : List (Term S P F D)) hs v) :
    looselyMatches I (fun v => e (σ v)) (vs.map .var) (hs.map e) := by
  induction vs generalizing hs with
  | nil =>
    rw [List.eq_nil_of_length_eq_zero hlength.symm]
    trivial
  | cons w vs ih =>
    cases hs with
    | nil => exact absurd hlength nofun
    | cons h hs =>
      have hfree : ∀ v, v ∈ termsFreeVars (vs.map .var : List (Term S P F D)) ↔ v ∈ vs := fun v => by
        rw [mem_termsFreeVars]
        simp [Term.freeVars]
      have hstep := fun v hv => (hσ v hv).trans
        (by rw [List.map_cons, ReplaceDefinitionsWithCompletion.old2newheadvars])
      refine ⟨fun hlater => ?_, ih (Nat.succ.inj hlength) fun v hv => ?_⟩
      · have hw : w ∉ vs := fun hmem => hlater (List.mem_map_of_mem hmem)
        exact congrArg e ((hstep w List.mem_cons_self).trans (by rw [if_neg (mt (hfree w).mp hw), if_pos rfl]))
      · exact (hstep v (List.mem_cons_of_mem w hv)).trans (if_pos ((hfree v).mpr hv))

end Matches

end Theory
