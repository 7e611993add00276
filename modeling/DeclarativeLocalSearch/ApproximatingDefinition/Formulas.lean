import DeclarativeLocalSearch.Theory.Syntax
import Mathlib.Data.List.Dedup

set_option linter.unusedSectionVars false

namespace ApproximatingDefinition

open Theory (SIGN Variable PFSymbol)

-- functions and aggregates have been taken out of the atoms
inductive Arg (S D : Type) where
  | var (v : Variable S)
  | dom (sort : S) (d : D)
  deriving DecidableEq

-- equivalences are removed and negations pushed; there is nothing below the other formulas, the aggregates and the
-- chains of comparisons
inductive Formula (S Q D O : Type) where
  | pred (sign : SIGN) (symbol : Q) (args : List (Arg S D))
  | bool (conj : Bool) (subformulas : List (Formula S Q D O))
  | quant (univ : Bool) (quantVars : List (Variable S)) (sub : Formula S Q D O)
  | other (form : O) (vars : List (Variable S))

variable {S Q D O : Type} [DecidableEq S]

def Arg.freeVars : Arg S D → List (Variable S)
  | .var v => [v]
  | .dom _ _ => []

def Arg.sort : Arg S D → S
  | .var v => v.sort
  | .dom s _ => s

def Arg.value (e : Variable S → D) : Arg S D → D
  | .var v => e v
  | .dom _ d => d

namespace Formula

mutual

def freeVars : Formula S Q D O → List (Variable S)
  | .pred _ _ args => args.flatMap Arg.freeVars
  | .bool _ subs => freeVarsOf subs
  | .quant _ vars f => f.freeVars.filter (· ∉ vars)
  | .other _ vars => vars

def freeVarsOf : List (Formula S Q D O) → List (Variable S)
  | [] => []
  | f :: fs => f.freeVars ++ freeVarsOf fs

end

def children : Formula S Q D O → List (Formula S Q D O)
  | .bool _ subs => subs
  | .quant _ _ f => [f]
  | _ => []

end Formula

-- the symbols are interpreted twice: where they have to be true and where they have to be false
structure Interpretation (S Q D O : Type) where
  sort : S → D → Prop
  holds : Q → List D → Prop
  possible : Q → List D → Prop
  other : O → List D → Prop

-- other values for the variables, in their sorts
def Variant (sort : S → D → Prop) (vars : List (Variable S)) (e e' : Variable S → D) : Prop :=
  (∀ v ∉ vars, e' v = e v) ∧ ∀ v ∈ vars, sort v.sort (e' v)

namespace Formula

variable (I : Interpretation S Q D O)

mutual

def holds : Formula S Q D O → (Variable S → D) → Prop
  | .pred .pos q args, e => I.holds q (args.map (Arg.value e))
  | .pred .neg q args, e => ¬ I.possible q (args.map (Arg.value e))
  | .bool true subs, e => allHold subs e
  | .bool false subs, e => someHolds subs e
  | .quant true vars f, e => ∀ e', Variant I.sort vars e e' → f.holds e'
  | .quant false vars f, e => ∃ e', Variant I.sort vars e e' ∧ f.holds e'
  | .other form vars, e => I.other form (vars.map e)

def allHold : List (Formula S Q D O) → (Variable S → D) → Prop
  | [], _ => True
  | f :: fs, e => f.holds e ∧ allHold fs e

def someHolds : List (Formula S Q D O) → (Variable S → D) → Prop
  | [], _ => False
  | f :: fs, e => f.holds e ∨ someHolds fs e

end

variable {I}

theorem allHold_iff {fs : List (Formula S Q D O)} {e : Variable S → D} :
    allHold I fs e ↔ ∀ f ∈ fs, f.holds I e := by
  induction fs with
  | nil => simp [allHold]
  | cons f fs ih => simp [allHold, ih]

theorem someHolds_iff {fs : List (Formula S Q D O)} {e : Variable S → D} :
    someHolds I fs e ↔ ∃ f ∈ fs, f.holds I e := by
  induction fs with
  | nil => simp [someHolds]
  | cons f fs ih => simp [someHolds, ih]

theorem mem_freeVarsOf {v : Variable S} {fs : List (Formula S Q D O)} :
    v ∈ freeVarsOf fs ↔ ∃ f ∈ fs, v ∈ f.freeVars := by
  induction fs with
  | nil => simp [freeVarsOf]
  | cons f fs ih => simp [freeVarsOf, ih]

theorem values_agree {args : List (Arg S D)} {e e' : Variable S → D}
    (h : ∀ v ∈ args.flatMap Arg.freeVars, e v = e' v) : args.map (Arg.value e) = args.map (Arg.value e') := by
  refine List.map_congr_left fun t ht => ?_
  cases t with
  | var v => exact h v (List.mem_flatMap.mpr ⟨.var v, ht, List.mem_singleton.mpr rfl⟩)
  | dom s d => rfl

theorem variant_agree {sort : S → D → Prop} {vars : List (Variable S)} {e e' a : Variable S → D}
    (ha : Variant sort vars e a) : ∃ b, Variant sort vars e' b ∧ ∀ v, (v ∉ vars → e v = e' v) → a v = b v := by
  refine ⟨fun v => if v ∈ vars then a v else e' v, ⟨fun v hv => if_neg hv, fun v hv => ?_⟩, fun v hv => ?_⟩
  · simpa only [if_pos hv] using ha.2 v hv
  · by_cases hmem : v ∈ vars
    · exact (if_pos hmem).symm
    · exact ((ha.1 v hmem).trans (hv hmem)).trans (if_neg hmem).symm

theorem induct {p : Formula S Q D O → Prop} (pred : ∀ sign q args, p (.pred sign q args))
    (bool : ∀ conj subs, (∀ f ∈ subs, p f) → p (.bool conj subs)) (quant : ∀ univ vars f, p f → p (.quant univ vars f))
    (other : ∀ form vars, p (.other form vars)) (f : Formula S Q D O) : p f :=
  @Formula.rec S Q D O p (fun fs => ∀ f ∈ fs, p f) pred bool quant other (fun _ hf => absurd hf List.not_mem_nil)
    (fun _ _ hf hfs => List.forall_mem_cons.mpr ⟨hf, hfs⟩) f

theorem agree (f : Formula S Q D O) : ∀ e e', (∀ v ∈ f.freeVars, e v = e' v) → (f.holds I e ↔ f.holds I e') := by
  induction f using induct with
  | pred sign q args =>
    intro e e' h
    rw [freeVars] at h
    cases sign
    · rw [holds, holds, values_agree h]
    · rw [holds, holds, values_agree h]
  | bool conj subs ih =>
    intro e e' h
    have hsub : ∀ f ∈ subs, (f.holds I e ↔ f.holds I e') := fun f hf =>
      ih f hf e e' fun v hv => h v (mem_freeVarsOf.mpr ⟨f, hf, hv⟩)
    cases conj
    · rw [holds, holds, someHolds_iff, someHolds_iff]
      exact exists_congr fun f => and_congr_right (hsub f)
    · rw [holds, holds, allHold_iff, allHold_iff]
      exact forall₂_congr hsub
  | quant univ vars f ih =>
    intro e e' h
    have hfree : ∀ v ∈ f.freeVars, v ∉ vars → e v = e' v := fun v hv hmem =>
      h v (List.mem_filter.mpr ⟨hv, by simpa using hmem⟩)
    have hsame : ∀ {a b : Variable S → D}, (∀ v, (v ∉ vars → e v = e' v) → a v = b v) →
        (f.holds I a ↔ f.holds I b) := fun hab => ih _ _ fun v hv => hab v (hfree v hv)
    have hback : ∀ b, Variant I.sort vars e' b → ∃ a, Variant I.sort vars e a ∧
        ∀ v, (v ∉ vars → e v = e' v) → a v = b v := fun b hb => by
      obtain ⟨a, ha, hab⟩ := @variant_agree _ _ _ I.sort vars e' e b hb
      exact ⟨a, ha, fun v hv => (hab v fun hmem => (hv hmem).symm).symm⟩
    cases univ
    · rw [holds, holds]
      constructor
      · rintro ⟨a, ha, hf⟩
        obtain ⟨b, hb, hab⟩ := @variant_agree _ _ _ I.sort vars e e' a ha
        exact ⟨b, hb, (hsame hab).mp hf⟩
      · rintro ⟨b, hb, hf⟩
        obtain ⟨a, ha, hab⟩ := hback b hb
        exact ⟨a, ha, (hsame hab).mpr hf⟩
    · rw [holds, holds]
      constructor
      · intro hall b hb
        obtain ⟨a, ha, hab⟩ := hback b hb
        exact (hsame hab).mp (hall a ha)
      · intro hall a ha
        obtain ⟨b, hb, hab⟩ := @variant_agree _ _ _ I.sort vars e e' a ha
        exact (hsame hab).mpr (hall b hb)
  | other form vars =>
    intro e e' h
    rw [freeVars] at h
    rw [holds, holds, List.map_congr_left h]

theorem holds_bool {conj : Bool} {subs : List (Formula S Q D O)} {e : Variable S → D} :
    (Formula.bool conj subs).holds I e ↔ if conj then ∀ f ∈ subs, f.holds I e else ∃ f ∈ subs, f.holds I e := by
  cases conj
  · rw [holds, someHolds_iff]
    simp
  · rw [holds, allHold_iff]
    simp

theorem holds_mono {J : Interpretation S Q D O} (hsort : J.sort = I.sort) (hother : J.other = I.other)
    (hholds : ∀ q ds, I.holds q ds → J.holds q ds) (hpossible : ∀ q ds, J.possible q ds → I.possible q ds)
    (f : Formula S Q D O) : ∀ e, f.holds I e → f.holds J e := by
  induction f using induct with
  | pred sign q args =>
    intro e h
    cases sign
    · rw [holds] at h ⊢
      exact hholds _ _ h
    · rw [holds] at h ⊢
      exact fun hp => h (hpossible _ _ hp)
  | bool conj subs ih =>
    intro e h
    rw [holds_bool] at h ⊢
    cases conj
    · obtain ⟨f, hf, h⟩ := h
      exact ⟨f, hf, ih f hf e h⟩
    · exact fun f hf => ih f hf e (h f hf)
  | quant univ vars f ih =>
    intro e h
    cases univ
    · rw [holds] at h ⊢
      obtain ⟨e', he', h⟩ := h
      exact ⟨e', hsort ▸ he', ih e' h⟩
    · rw [holds] at h ⊢
      exact fun e' he' => ih e' (h e' (hsort ▸ he'))
  | other form vars =>
    intro e h
    rw [holds] at h ⊢
    rwa [hother]

end Formula

end ApproximatingDefinition
