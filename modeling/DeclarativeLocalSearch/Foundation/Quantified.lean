import Mathlib.Logic.Function.Basic

namespace Quantified

variable {α β : Type}

-- for all, or for some
def each (univ : Bool) (p : α → Prop) : Prop := if univ then ∀ a, p a else ∃ a, p a

def eachOf (conj : Bool) (l : List α) (p : α → Prop) : Prop :=
  if conj then ∀ a ∈ l, p a else ∃ a ∈ l, p a

def both (conj : Bool) (p q : Prop) : Prop := if conj then p ∧ q else p ∨ q

theorem each_congr {univ : Bool} {p q : α → Prop} (h : ∀ a, p a ↔ q a) :
    each univ p ↔ each univ q := by
  rw [funext fun a => propext (h a)]

theorem each_const {univ : Bool} {p : Prop} [Nonempty α] : each univ (fun _ : α => p) ↔ p := by
  cases univ with
  | false => exact exists_const α
  | true => exact forall_const α

theorem each_surjective {univ : Bool} {p : β → Prop} {f : α → β} (hf : Function.Surjective f) :
    each univ (fun a => p (f a)) ↔ each univ p := by
  cases univ with
  | false => exact hf.exists.symm
  | true => exact hf.forall.symm

theorem each_prod {univ : Bool} {p : α → β → Prop} :
    each univ (fun x : α × β => p x.1 x.2) ↔ each univ fun a => each univ (p a) := by
  cases univ with
  | false => exact Prod.exists
  | true => exact Prod.forall

theorem each_both {univ conj : Bool} {p : Prop} {q : α → Prop} [Nonempty α] :
    each univ (fun a => both conj p (q a)) ↔ both conj p (each univ q) := by
  cases univ with
  | false =>
    cases conj with
    | false => exact exists_or.trans (or_congr_left (exists_const α))
    | true => exact exists_and_left
  | true =>
    cases conj with
    | false => exact forall_or_left
    | true => exact forall_and.trans (and_congr_left' (forall_const α))

theorem eachOf_congr {conj : Bool} {l : List α} {p q : α → Prop} (h : ∀ a ∈ l, (p a ↔ q a)) :
    eachOf conj l p ↔ eachOf conj l q := by
  cases conj with
  | false => exact exists_congr fun a => and_congr_right (h a)
  | true => exact forall₂_congr h

theorem eachOf_of_mem_iff {conj : Bool} {l l' : List α} {p : α → Prop} (h : ∀ a, a ∈ l ↔ a ∈ l') :
    eachOf conj l p ↔ eachOf conj l' p := by
  cases conj with
  | false => exact exists_congr fun a => and_congr_left' (h a)
  | true => exact forall_congr' fun a => imp_congr_left (h a)

theorem eachOf_singleton {conj : Bool} {a : α} {p : α → Prop} : eachOf conj [a] p ↔ p a := by
  cases conj with
  | false => simp [eachOf]
  | true => exact List.forall_mem_singleton

theorem eachOf_cons {conj : Bool} {a : α} {l : List α} {p : α → Prop} :
    eachOf conj (a :: l) p ↔ both conj (p a) (eachOf conj l p) := by
  cases conj with
  | false => simp [eachOf, both]
  | true => exact List.forall_mem_cons

theorem eachOf_append {conj : Bool} {l l' : List α} {p : α → Prop} :
    eachOf conj (l ++ l') p ↔ both conj (eachOf conj l p) (eachOf conj l' p) := by
  cases conj with
  | false => simp [eachOf, both, or_and_right, exists_or]
  | true => exact List.forall_mem_append

theorem eachOf_map {conj : Bool} {f : α → β} {l : List α} {p : β → Prop} :
    eachOf conj (l.map f) p ↔ eachOf conj l fun a => p (f a) := by
  cases conj with
  | false => simp [eachOf]
  | true => exact List.forall_mem_map

theorem eachOf_flatMap {conj : Bool} {f : α → List β} {l : List α} {p : β → Prop} :
    eachOf conj (l.flatMap f) p ↔ eachOf conj l fun a => eachOf conj (f a) p := by
  cases conj with
  | false =>
    constructor
    · rintro ⟨b, hb, h⟩
      obtain ⟨a, ha, hb⟩ := List.mem_flatMap.mp hb
      exact ⟨a, ha, b, hb, h⟩
    · rintro ⟨a, ha, b, hb, h⟩
      exact ⟨b, List.mem_flatMap_of_mem ha hb, h⟩
  | true => exact List.forall_mem_flatMap

theorem each_eachOf {univ : Bool} {l : List β} {p : α → β → Prop} :
    each univ (fun a => eachOf univ l (p a)) ↔ eachOf univ l fun b => each univ fun a => p a b := by
  cases univ with
  | false =>
    constructor
    · rintro ⟨a, b, hb, h⟩
      exact ⟨b, hb, a, h⟩
    · rintro ⟨b, hb, a, h⟩
      exact ⟨a, b, hb, h⟩
  | true => exact ⟨fun h b hb a => h a b hb, fun h a b hb => h b hb a⟩

end Quantified
