import Mathlib.Data.List.Basic
import Mathlib.Data.Set.Basic

namespace NaturalJoin

variable {C D : Type} {σ τ υ : C → Option D} {names : List C} {tuple : List D}

def Extends (σ τ : C → Option D) : Prop := ∀ c d, σ c = some d → τ c = some d

theorem Extends.refl : Extends σ σ := fun _ _ h => h

theorem Extends.trans (h : Extends σ τ) (h' : Extends τ υ) : Extends σ υ := fun c d hc => h' c d (h c d hc)

theorem Extends.map_eq (h : Extends σ τ) (hmatch : names.map σ = tuple.map some) :
    names.map τ = tuple.map some := by
  induction names generalizing tuple with
  | nil => simpa using hmatch
  | cons c names ih =>
    cases tuple with
    | nil => simp at hmatch
    | cons d tuple =>
      obtain ⟨hc, hrest⟩ := List.cons.inj hmatch
      rw [List.map_cons, List.map_cons, ih hrest, h c d hc]

structure Relation (C D : Type) where
  names : List C
  tuples : Set (List D)

-- an assignment of the names of the relations and of those of σ, with a tuple in each relation
structure Completes (σ : C → Option D) (relations : List (Relation C D)) (τ : C → Option D) : Prop where
  extending : Extends σ τ
  domain : ∀ c, (τ c).isSome ↔ (σ c).isSome ∨ ∃ r ∈ relations, c ∈ r.names
  matched : ∀ r ∈ relations, ∃ t ∈ r.tuples, r.names.map τ = t.map some

theorem Extends.eq (h : Extends σ τ) (hdom : ∀ c, (τ c).isSome → (σ c).isSome) : τ = σ := by
  funext c
  cases hσ : σ c with
  | some d => exact h c d hσ
  | none =>
    have hnone := mt (hdom c) (by simp [hσ])
    simpa using hnone

theorem completes_nil : Completes σ [] τ ↔ τ = σ := by
  constructor
  · intro h
    exact h.extending.eq fun c hc => ((h.domain c).mp hc).resolve_right (by simp)
  · rintro rfl
    exact ⟨Extends.refl, by simp, by simp⟩

-- the smallest assignment that extends σ by the tuple
structure Binds (σ : C → Option D) (names : List C) (tuple : List D) (τ : C → Option D) : Prop where
  extending : Extends σ τ
  domain : ∀ c, (τ c).isSome ↔ (σ c).isSome ∨ c ∈ names
  matched : names.map τ = tuple.map some

theorem Completes.cons {r : Relation C D} {relations : List (Relation C D)} (ht : tuple ∈ r.tuples)
    (hτ : Binds σ r.names tuple τ) (hυ : Completes τ relations υ) : Completes σ (r :: relations) υ where
  extending := hτ.extending.trans hυ.extending
  domain := fun c => by
    rw [hυ.domain, hτ.domain, or_assoc]
    simp
  matched := by
    intro r' hr'
    rcases List.mem_cons.mp hr' with rfl | hr'
    · exact ⟨tuple, ht, hυ.extending.map_eq hτ.matched⟩
    · exact hυ.matched r' hr'

theorem Completes.of_cons {r : Relation C D} {relations : List (Relation C D)}
    (h : Completes σ (r :: relations) υ) :
    ∃ t ∈ r.tuples, r.names.map υ = t.map some ∧ ∀ τ, Binds σ r.names t τ → Completes τ relations υ := by
  obtain ⟨t, ht, hmatch⟩ := h.matched r List.mem_cons_self
  refine ⟨t, ht, hmatch, fun τ hτ => ⟨fun c d hc => ?_, fun c => ?_, fun r' hr' => ?_⟩⟩
  · have hsome : (σ c).isSome ∨ c ∈ r.names := (hτ.domain c).mp (by rw [hc, Option.isSome_some])
    rcases hsome with hsome | hname
    · obtain ⟨e, he⟩ := Option.isSome_iff_exists.mp hsome
      have heq : e = d := Option.some.inj ((hτ.extending c e he).symm.trans hc)
      exact h.extending c d (heq ▸ he)
    · have hboth : r.names.map υ = r.names.map τ := hmatch.trans hτ.matched.symm
      rw [List.map_inj_left.mp hboth c hname, hc]
  · rw [h.domain, hτ.domain, or_assoc]
    simp
  · exact h.matched r' (List.mem_cons_of_mem r hr')

theorem completes_tuple {relations : List (Relation C D)} (hτ : Binds σ names tuple τ) :
    Completes σ (⟨names, {tuple}⟩ :: relations) υ ↔ Completes τ relations υ := by
  constructor
  · intro h
    obtain ⟨t, rfl, -, hrest⟩ := h.of_cons
    exact hrest τ hτ
  · exact Completes.cons rfl hτ

theorem completes_cons {r : Relation C D} {relations : List (Relation C D)} :
    Completes σ (r :: relations) τ ↔ ∃ t ∈ r.tuples, Completes σ (⟨r.names, {t}⟩ :: relations) τ := by
  constructor
  · intro h
    obtain ⟨t, ht, hmatch⟩ := h.matched r List.mem_cons_self
    refine ⟨t, ht, h.extending, fun c => by simpa using h.domain c, fun r' hr' => ?_⟩
    rcases List.mem_cons.mp hr' with rfl | hr'
    · exact ⟨t, rfl, hmatch⟩
    · exact h.matched r' (List.mem_cons_of_mem r hr')
  · rintro ⟨t, ht, h⟩
    refine ⟨h.extending, fun c => by simpa using h.domain c, fun r' hr' => ?_⟩
    rcases List.mem_cons.mp hr' with rfl | hr'
    · obtain ⟨t', rfl, hmatch⟩ := h.matched _ List.mem_cons_self
      exact ⟨t', ht, hmatch⟩
    · exact h.matched r' (List.mem_cons_of_mem _ hr')

end NaturalJoin
