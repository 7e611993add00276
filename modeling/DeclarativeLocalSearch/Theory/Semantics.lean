import DeclarativeLocalSearch.Theory.Syntax
import Mathlib.SetTheory.Cardinal.Finite

namespace Theory

-- a two-valued structure; a function has no value where it is undefined, and an aggregate depends
-- on how often each value occurs in the set (none: a term without a value)
structure Structure (S P F D : Type) where
  sort : S → D → Prop
  isEmpty : S → Bool
  isEmpty_iff : ∀ s, isEmpty s = true ↔ ∀ d, ¬ sort s d
  less : D → D → Prop
  predicate : P → List D → Prop
  function : F → List D → Option D
  aggregate : AggFunction → (Option D → ℕ∞) → Option D

theorem isEmpty_unit_iff : ∀ _ : Unit, false = true ↔ ∀ _ : Unit, ¬ True :=
  fun _ => iff_of_false Bool.false_ne_true fun h => h () trivial

def SIGN.apply : SIGN → Prop → Prop
  | .pos, p => p
  | .neg, p => ¬ p

namespace Structure

variable {S P F D : Type} (I : Structure S P F D)

def atom : PFSymbol S P F → List D → Prop
  | .eq _, ds => ∃ d, ds = [d, d]
  | .lt _, ds => ∃ d e, ds = [d, e] ∧ I.less d e
  | .gt _, ds => ∃ d e, ds = [d, e] ∧ I.less e d
  | .sort s, ds => ∃ d, ds = [d] ∧ I.sort s d
  | .predicate p, ds => I.predicate p ds
  | .function f, ds => ∃ xs d, ds = xs ++ [d] ∧ I.function f xs = some d

-- an atom with an undefined argument is false
def applied (symbol : PFSymbol S P F) (values : List (Option D)) : Prop :=
  ∃ ds, values = ds.map some ∧ I.atom symbol ds

def compare : CompType → Option D → Option D → Prop
  | .eq, a, b => ∃ d, a = some d ∧ b = some d
  | .neq, a, b => ¬ ∃ d, a = some d ∧ b = some d
  | .lt, a, b => ∃ d e, a = some d ∧ b = some e ∧ I.less d e
  | .gt, a, b => ∃ d e, a = some d ∧ b = some e ∧ I.less e d
  | .leq, a, b => ¬ ∃ d e, a = some d ∧ b = some e ∧ I.less e d
  | .geq, a, b => ¬ ∃ d e, a = some d ∧ b = some e ∧ I.less d e

def chain (conj : Bool) : List CompType → List (Option D) → Prop
  | c :: cs, a :: b :: vs =>
    if conj then I.compare c a b ∧ chain conj cs (b :: vs)
    else I.compare c a b ∨ chain conj cs (b :: vs)
  | _, _ => conj = true

-- values for the variables, each in the sort of its variable
def Tuple (vars : List (Variable S)) : Type :=
  {a : {v // v ∈ vars} → D // ∀ v, I.sort v.1.sort (a v)}

variable [DecidableEq S]

def extend {vars : List (Variable S)} (e : Variable S → D) (a : I.Tuple vars) (v : Variable S) : D :=
  if h : v ∈ vars then a.1 ⟨v, h⟩ else e v

mutual

noncomputable def value : Term S P F D → (Variable S → D) → Option D
  | .var v, e => some (e v)
  | .func f args, e => (values args e).mapM id >>= I.function f
  | .dom _ d, _ => some d
  | .agg g sets, e => I.aggregate g (occurrences sets e)

noncomputable def values : List (Term S P F D) → (Variable S → D) → List (Option D)
  | [], _ => []
  | t :: ts, e => value t e :: values ts e

noncomputable def setOccurrences : QuantSetExpr S P F D → (Variable S → D) → Option D → ℕ∞
  | .mk vars condition term, e => fun d =>
    ENat.card {a : I.Tuple vars // holds condition (I.extend e a) ∧ value term (I.extend e a) = d}

noncomputable def occurrences : List (QuantSetExpr S P F D) → (Variable S → D) → Option D → ℕ∞
  | [], _ => fun _ => 0
  | s :: ss, e => fun d => setOccurrences s e d + occurrences ss e d

noncomputable def holds : Formula S P F D → (Variable S → D) → Prop
  | .pred sign symbol args, e => sign.apply (I.applied symbol (values args e))
  | .eqChain sign conj comps terms, e => sign.apply (I.chain conj comps (values terms e))
  | .equiv sign l r, e => sign.apply (holds l e ↔ holds r e)
  | .bool sign true subs, e => sign.apply (allHold subs e)
  | .bool sign false subs, e => sign.apply (someHolds subs e)
  | .quant sign .univ vars f, e => sign.apply (∀ a : I.Tuple vars, holds f (I.extend e a))
  | .quant sign .exist vars f, e => sign.apply (∃ a : I.Tuple vars, holds f (I.extend e a))
  | .agg sign bound comp g sets, e =>
    sign.apply (I.compare comp (value bound e) (I.aggregate g (occurrences sets e)))

noncomputable def allHold : List (Formula S P F D) → (Variable S → D) → Prop
  | [], _ => True
  | f :: fs, e => holds f e ∧ allHold fs e

noncomputable def someHolds : List (Formula S P F D) → (Variable S → D) → Prop
  | [], _ => False
  | f :: fs, e => holds f e ∨ someHolds fs e

end

variable {I}

section Lists

attribute [local simp] value values setOccurrences occurrences holds allHold someHolds

theorem values_eq_map (ts : List (Term S P F D)) (e : Variable S → D) :
    I.values ts e = ts.map fun t => I.value t e := by
  induction ts with
  | nil => rfl
  | cons t ts ih => rw [values, ih, List.map_cons]

theorem allHold_iff {fs : List (Formula S P F D)} {e : Variable S → D} :
    I.allHold fs e ↔ ∀ f ∈ fs, I.holds f e := by
  induction fs with
  | nil => simp [allHold]
  | cons f fs ih => simp [allHold, ih]

theorem someHolds_iff {fs : List (Formula S P F D)} {e : Variable S → D} :
    I.someHolds fs e ↔ ∃ f ∈ fs, I.holds f e := by
  induction fs with
  | nil => simp [someHolds]
  | cons f fs ih => simp [someHolds, ih]

end Lists

theorem values_congr {ts : List (Term S P F D)} {e e' : Variable S → D}
    (h : ∀ t ∈ ts, I.value t e = I.value t e') : I.values ts e = I.values ts e' := by
  rw [values_eq_map, values_eq_map]
  exact List.map_congr_left h

theorem occurrences_congr {ss : List (QuantSetExpr S P F D)} {e e' : Variable S → D}
    (h : ∀ s ∈ ss, I.setOccurrences s e = I.setOccurrences s e') :
    I.occurrences ss e = I.occurrences ss e' := by
  induction ss with
  | nil => rfl
  | cons s ss ih =>
    obtain ⟨hs, hss⟩ := List.forall_mem_cons.mp h
    rw [occurrences, occurrences, hs, ih hss]

theorem extend_of_mem {vars : List (Variable S)} {v : Variable S} (h : v ∈ vars)
    (e : Variable S → D) (a : I.Tuple vars) : I.extend e a v = a.1 ⟨v, h⟩ :=
  dif_pos h

theorem extend_of_not_mem {vars : List (Variable S)} {v : Variable S} (h : v ∉ vars)
    (e : Variable S → D) (a : I.Tuple vars) : I.extend e a v = e v :=
  dif_neg h

theorem extend_congr {vars : List (Variable S)} {v : Variable S} {e e' : Variable S → D}
    (h : v ∉ vars → e v = e' v) (a : I.Tuple vars) : I.extend e a v = I.extend e' a v := by
  by_cases hv : v ∈ vars
  · rw [extend_of_mem hv, extend_of_mem hv]
  · rw [extend_of_not_mem hv, extend_of_not_mem hv, h hv]

theorem agree : (∀ (t : Term S P F D) (e e' : Variable S → D), (∀ v ∈ t.freeVars, e v = e' v) →
      I.value t e = I.value t e') ∧
    (∀ (s : QuantSetExpr S P F D) (e e' : Variable S → D), (∀ v ∈ s.freeVars, e v = e' v) →
      I.setOccurrences s e = I.setOccurrences s e') ∧
    ∀ (f : Formula S P F D) (e e' : Variable S → D), (∀ v ∈ f.freeVars, e v = e' v) →
      (I.holds f e ↔ I.holds f e') := by
  have bound : ∀ {vars : List (Variable S)} {l : List (Variable S)} {e e' : Variable S → D},
      (∀ v ∈ l.filter (· ∉ vars), e v = e' v) → ∀ (a : I.Tuple vars), ∀ v ∈ l,
        I.extend e a v = I.extend e' a v := by
    intro vars l e e' h a v hv
    exact extend_congr (fun hn => h v (List.mem_filter.mpr ⟨hv, by simpa using hn⟩)) a
  refine Formula.induct ?_ ?_ ?_ ?_ ?_ ?_ ?_ ?_ ?_ ?_ ?_
  · intro v e e' h
    rw [value, value, h v (List.mem_singleton_self v)]
  · intro f args ih e e' h
    rw [value, value, values_congr fun t ht => ih t ht e e' fun v hv =>
      h v (mem_termsFreeVars.mpr ⟨t, ht, hv⟩)]
  · intro s d e e' _
    rw [value, value]
  · intro g sets ih e e' h
    rw [value, value, occurrences_congr fun s hs => ih s hs e e' fun v hv =>
      h v (mem_setsFreeVars.mpr ⟨s, hs, hv⟩)]
  · intro vars c t ihc iht e e' h
    funext d
    have heq : ∀ a : I.Tuple vars, (I.holds c (I.extend e a) ∧ I.value t (I.extend e a) = d) ↔
        (I.holds c (I.extend e' a) ∧ I.value t (I.extend e' a) = d) := by
      intro a
      have hb := bound h a
      rw [ihc _ _ fun v hv => hb v (List.mem_append_left _ hv),
        iht _ _ fun v hv => hb v (List.mem_append_right _ hv)]
    simp only [setOccurrences, heq]
  · intro sign symbol args ih e e' h
    rw [holds, holds, values_congr fun t ht => ih t ht e e' fun v hv =>
      h v (mem_termsFreeVars.mpr ⟨t, ht, hv⟩)]
  · intro sign conj comps terms ih e e' h
    rw [holds, holds, values_congr fun t ht => ih t ht e e' fun v hv =>
      h v (mem_termsFreeVars.mpr ⟨t, ht, hv⟩)]
  · intro sign l r ihl ihr e e' h
    rw [holds, holds, ihl e e' fun v hv => h v (List.mem_append_left _ hv),
      ihr e e' fun v hv => h v (List.mem_append_right _ hv)]
  · intro sign conj subs ih e e' h
    have hsub : ∀ f ∈ subs, (I.holds f e ↔ I.holds f e') := fun f hf => ih f hf e e' fun v hv =>
      h v (mem_formulasFreeVars.mpr ⟨f, hf, hv⟩)
    cases conj
    · rw [holds, holds, someHolds_iff, someHolds_iff]
      exact iff_of_eq (congrArg sign.apply (propext (exists_congr fun f => and_congr_right (hsub f))))
    · rw [holds, holds, allHold_iff, allHold_iff]
      exact iff_of_eq (congrArg sign.apply (propext (forall₂_congr hsub)))
  · intro sign q vars f ih e e' h
    have hsub : ∀ a : I.Tuple vars, I.holds f (I.extend e a) ↔ I.holds f (I.extend e' a) :=
      fun a => ih _ _ (bound h a)
    cases q
    · simp only [holds, hsub]
    · simp only [holds, hsub]
  · intro sign b comp g sets ihb ih e e' h
    rw [holds, holds, ihb e e' fun v hv => h v (List.mem_append_left _ hv),
      occurrences_congr fun s hs => ih s hs e e' fun v hv =>
        h v (List.mem_append_right _ (mem_setsFreeVars.mpr ⟨s, hs, hv⟩))]

theorem holds_bool {sign : SIGN} {conj : Bool} {fs : List (Formula S P F D)} {e : Variable S → D} :
    I.holds (.bool sign conj fs) e ↔
      sign.apply (if conj then ∀ f ∈ fs, I.holds f e else ∃ f ∈ fs, I.holds f e) := by
  cases conj
  · rw [holds, someHolds_iff]
    simp
  · rw [holds, allHold_iff]
    simp

theorem holds_bool_congr {sign : SIGN} {conj : Bool} {g : Formula S P F D → Formula S P F D}
    {fs : List (Formula S P F D)} {e : Variable S → D}
    (h : ∀ f ∈ fs, (I.holds (g f) e ↔ I.holds f e)) :
    I.holds (.bool sign conj (fs.map g)) e ↔ I.holds (.bool sign conj fs) e := by
  rw [holds_bool, holds_bool]
  refine iff_of_eq (congrArg sign.apply ?_)
  cases conj
  · simp only [Bool.false_eq_true, if_false, List.mem_map, exists_exists_and_eq_and]
    exact propext (exists_congr fun f => and_congr_right (h f))
  · simp only [if_true, List.mem_map, forall_exists_index, and_imp, forall_apply_eq_imp_iff₂]
    exact propext (forall₂_congr h)

theorem holds_quant_congr {sign : SIGN} {q : QUANT} {vars : List (Variable S)}
    {f g : Formula S P F D} {e : Variable S → D}
    (h : ∀ a : I.Tuple vars, I.holds f (I.extend e a) ↔ I.holds g (I.extend e a)) :
    I.holds (.quant sign q vars f) e ↔ I.holds (.quant sign q vars g) e := by
  cases q
  · simp only [holds, h]
  · simp only [holds, h]

theorem holds_quant_restrict {sign : SIGN} {q : QUANT} {vars rem : List (Variable S)}
    {f : Formula S P F D} (hrem : ∀ v ∈ rem, v ∈ vars)
    (h : ∀ v ∈ vars, v ∉ rem → v ∉ f.freeVars ∧ ∃ d, I.sort v.sort d) (e : Variable S → D) :
    I.holds (.quant sign q vars f) e ↔ I.holds (.quant sign q rem f) e := by
  have same : ∀ (a : I.Tuple vars) (b : I.Tuple rem),
      (∀ v (hv : v ∈ rem), b.1 ⟨v, hv⟩ = a.1 ⟨v, hrem v hv⟩) →
      (I.holds f (I.extend e a) ↔ I.holds f (I.extend e b)) := by
    intro a b hab
    refine agree.2.2 f _ _ fun v hf => ?_
    by_cases hv : v ∈ rem
    · rw [extend_of_mem hv, extend_of_mem (hrem v hv), hab v hv]
    · by_cases hv' : v ∈ vars
      · exact absurd hf (h v hv' hv).1
      · rw [extend_of_not_mem hv, extend_of_not_mem hv']
  have restrict : ∀ a : I.Tuple vars, ∃ b : I.Tuple rem,
      (I.holds f (I.extend e a) ↔ I.holds f (I.extend e b)) := fun a =>
    ⟨⟨fun v => a.1 ⟨v.1, hrem v.1 v.2⟩, fun v => a.2 ⟨v.1, hrem v.1 v.2⟩⟩, same _ _ fun _ _ => rfl⟩
  have enlarge : ∀ b : I.Tuple rem, ∃ a : I.Tuple vars,
      (I.holds f (I.extend e a) ↔ I.holds f (I.extend e b)) := by
    intro b
    have hex : ∀ v : {v // v ∈ vars}, ∃ d, I.sort v.1.sort d ∧ ∀ hv : v.1 ∈ rem, b.1 ⟨v, hv⟩ = d := by
      intro v
      by_cases hv : v.1 ∈ rem
      · exact ⟨b.1 ⟨v, hv⟩, b.2 ⟨v, hv⟩, fun _ => rfl⟩
      · obtain ⟨d, hd⟩ := (h v.1 v.2 hv).2
        exact ⟨d, hd, fun hv' => absurd hv' hv⟩
    choose g hg hb using hex
    exact ⟨⟨g, hg⟩, same _ _ fun v hv => hb ⟨v, hrem v hv⟩ hv⟩
  cases q
  · rw [holds, holds]
    refine iff_of_eq (congrArg sign.apply (propext ⟨fun hall b => ?_, fun hall a => ?_⟩))
    · obtain ⟨a, ha⟩ := enlarge b
      exact ha.mp (hall a)
    · obtain ⟨b, hb⟩ := restrict a
      exact hb.mpr (hall b)
  · rw [holds, holds]
    refine iff_of_eq (congrArg sign.apply (propext ⟨?_, ?_⟩))
    · rintro ⟨a, ha⟩
      obtain ⟨b, hb⟩ := restrict a
      exact ⟨b, hb.mp ha⟩
    · rintro ⟨b, hb⟩
      obtain ⟨a, ha⟩ := enlarge b
      exact ⟨a, ha.mpr hb⟩

section Rename

variable {ρ : Variable S → Variable S} (hρ : ∀ v, ρ (ρ v) = v) (hs : ∀ v, (ρ v).sort = v.sort)

omit [DecidableEq S] in
include hρ in
theorem mem_map_iff {vars : List (Variable S)} {v : Variable S} : ρ v ∈ vars.map ρ ↔ v ∈ vars := by
  rw [List.mem_map]
  constructor
  · rintro ⟨w, hw, e⟩
    rw [← hρ v, ← e, hρ w]
    exact hw
  · exact fun h => ⟨v, h, rfl⟩

def pull (vars : List (Variable S)) : I.Tuple (vars.map ρ) ≃ I.Tuple vars where
  toFun a := ⟨fun v => a.1 ⟨ρ v.1, List.mem_map_of_mem v.2⟩, fun v => hs v.1 ▸ a.2 ⟨ρ v.1, _⟩⟩
  invFun a := ⟨fun v => a.1 ⟨ρ v.1, (mem_map_iff hρ).mp ((hρ v.1).symm ▸ v.2)⟩,
    fun v => hs v.1 ▸ a.2 ⟨ρ v.1, _⟩⟩
  left_inv a := Subtype.ext (funext fun v => congrArg a.1 (Subtype.ext (hρ v.1)))
  right_inv a := Subtype.ext (funext fun v => congrArg a.1 (Subtype.ext (hρ v.1)))

theorem extend_comp (vars : List (Variable S)) (e : Variable S → D) (a : I.Tuple (vars.map ρ)) :
    (fun v => I.extend e a (ρ v)) = I.extend (fun v => e (ρ v)) (pull hρ hs vars a) := by
  funext v
  by_cases hv : v ∈ vars
  · rw [extend_of_mem hv, extend_of_mem ((mem_map_iff hρ).mpr hv)]
    rfl
  · rw [extend_of_not_mem hv, extend_of_not_mem fun h => hv ((mem_map_iff hρ).mp h)]

include hρ hs in
theorem rename_agree :
    (∀ (t : Term S P F D) (e : Variable S → D),
      I.value (t.rename ρ) e = I.value t fun v => e (ρ v)) ∧
    (∀ (s : QuantSetExpr S P F D) (e : Variable S → D),
      I.setOccurrences (s.rename ρ) e = I.setOccurrences s fun v => e (ρ v)) ∧
    ∀ (f : Formula S P F D) (e : Variable S → D),
      I.holds (f.rename ρ) e ↔ I.holds f fun v => e (ρ v) := by
  have terms : ∀ {ts : List (Term S P F D)} {e : Variable S → D},
      (∀ t ∈ ts, ∀ e : Variable S → D, I.value (t.rename ρ) e = I.value t fun v => e (ρ v)) →
      I.values (renameTerms ρ ts) e = I.values ts fun v => e (ρ v) := by
    intro ts e h
    rw [renameTerms_eq_map, values_eq_map, values_eq_map, List.map_map]
    exact List.map_congr_left fun t ht => h t ht e
  have sets : ∀ {ss : List (QuantSetExpr S P F D)} {e : Variable S → D},
      (∀ s ∈ ss, ∀ e : Variable S → D,
        I.setOccurrences (s.rename ρ) e = I.setOccurrences s fun v => e (ρ v)) →
      I.occurrences (renameSets ρ ss) e = I.occurrences ss fun v => e (ρ v) := by
    intro ss e h
    induction ss with
    | nil => rfl
    | cons s ss ih =>
      obtain ⟨hs, hss⟩ := List.forall_mem_cons.mp h
      rw [renameSets, occurrences, occurrences, hs e, ih hss]
  refine Formula.induct ?_ ?_ ?_ ?_ ?_ ?_ ?_ ?_ ?_ ?_ ?_
  · intro v e
    rfl
  · intro f args ih e
    rw [Term.rename, value, value, terms ih]
  · intro s d e
    rfl
  · intro g ss ih e
    rw [Term.rename, value, value, sets ih]
  · intro vars c t ihc iht e
    funext d
    rw [QuantSetExpr.rename, setOccurrences, setOccurrences]
    refine ENat.card_congr ((pull hρ hs vars).subtypeEquiv fun a => ?_)
    rw [ihc, iht, extend_comp hρ hs]
  · intro sign symbol args ih e
    rw [Formula.rename, holds, holds, terms ih]
  · intro sign conj comps ts ih e
    rw [Formula.rename, holds, holds, terms ih]
  · intro sign l r ihl ihr e
    rw [Formula.rename, holds, holds, ihl, ihr]
  · intro sign conj subs ih e
    have hsub : ∀ f ∈ subs, (I.holds (f.rename ρ) e ↔ I.holds f fun v => e (ρ v)) :=
      fun f hf => ih f hf e
    rw [Formula.rename, renameFormulas_eq_map]
    cases conj
    · rw [holds, holds, someHolds_iff, someHolds_iff]
      refine iff_of_eq (congrArg sign.apply (propext ?_))
      simp only [List.mem_map, exists_exists_and_eq_and]
      exact exists_congr fun f => and_congr_right (hsub f)
    · rw [holds, holds, allHold_iff, allHold_iff]
      refine iff_of_eq (congrArg sign.apply (propext ?_))
      simp only [List.mem_map, forall_exists_index, and_imp, forall_apply_eq_imp_iff₂]
      exact forall₂_congr hsub
  · intro sign q vars f ih e
    have hsub : ∀ a : I.Tuple (vars.map ρ), I.holds (f.rename ρ) (I.extend e a) ↔
        I.holds f (I.extend (fun v => e (ρ v)) (pull hρ hs vars a)) := fun a => by
      rw [ih, extend_comp hρ hs]
    rw [Formula.rename]
    cases q
    · rw [holds, holds]
      exact iff_of_eq (congrArg sign.apply (propext ((pull hρ hs vars).forall_congr hsub)))
    · rw [holds, holds]
      exact iff_of_eq (congrArg sign.apply (propext ((pull hρ hs vars).exists_congr hsub)))
  · intro sign b comp g ss ihb ih e
    rw [Formula.rename, holds, holds, ihb, sets ih]

theorem holds_quant_freshen {sign : SIGN} {q : QUANT} {vs : List (Variable S)}
    {f : Formula S P F D} {n : ℕ} (hvs : ∀ v ∈ vs, v.id < n) (hf : ∀ v ∈ f.freeVars, v.id < n)
    (e : Variable S → D) :
    I.holds (.quant sign q (vs.map (freshen n vs)) (f.rename (freshen n vs))) e ↔
      I.holds (.quant sign q vs f) e := by
  refine (((rename_agree (freshen_freshen hvs) freshen_sort).2.2 (.quant sign q vs f) e).trans
    (agree.2.2 _ _ _ fun v hv => ?_))
  obtain ⟨hv, hvs'⟩ := List.mem_filter.mp hv
  rw [freshen_of_old (by simpa using hvs') (hf v hv)]

end Rename

end Structure

end Theory
