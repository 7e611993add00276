import DeclarativeLocalSearch.Theory.Visitor

set_option linter.unusedSectionVars false
set_option linter.dupNamespace false

namespace Theory

variable {S P F D : Type}

structure Rule (S P F D : Type) where
  quantVars : List (Variable S)
  head : PFSymbol S P F
  args : List (Term S P F D)
  body : Formula S P F D

inductive FixpDef (R : Type) where
  | mk (lfp : Bool) (rules : List R) (defs : List (FixpDef R))

structure Theory (S P F D : Type) where
  sentences : List (Formula S P F D)
  definitions : List (List (Rule S P F D))
  fixpdefs : List (FixpDef (Rule S P F D))

section FixpDef

variable {R R' : Type}

mutual

def FixpDef.all : FixpDef R → List R
  | .mk _ rules defs => rules ++ allOf defs

def allOf : List (FixpDef R) → List R
  | [] => []
  | d :: ds => d.all ++ allOf ds

end

mutual

def FixpDef.map (g : R → R') : FixpDef R → FixpDef R'
  | .mk lfp rules defs => .mk lfp (rules.map g) (mapOf g defs)

def mapOf (g : R → R') : List (FixpDef R) → List (FixpDef R')
  | [] => []
  | d :: ds => d.map g :: mapOf g ds

end

end FixpDef

section Visit

variable {α : Type} (g : α → ℕ → α × ℕ)

def visitEach : List α → ℕ → List α × ℕ
  | [], n => ([], n)
  | x :: l, n =>
    let x := g x n
    let l := visitEach l x.2
    (x.1 :: l.1, l.2)

mutual

def visitFixpDef : FixpDef α → ℕ → FixpDef α × ℕ
  | .mk lfp rules defs, n =>
    let rules := visitEach g rules n
    let defs := visitFixpDefs defs rules.2
    (.mk lfp rules.1 defs.1, defs.2)

def visitFixpDefs : List (FixpDef α) → ℕ → List (FixpDef α) × ℕ
  | [], n => ([], n)
  | d :: ds, n =>
    let d := visitFixpDef d n
    let ds := visitFixpDefs ds d.2
    (d.1 :: ds.1, ds.2)

end

def visitTheory (visitSentence : Formula S P F D → ℕ → Formula S P F D × ℕ)
    (visitRule : Rule S P F D → ℕ → Rule S P F D × ℕ) (T : Theory S P F D) (n : ℕ) :
    Theory S P F D × ℕ :=
  let sentences := visitEach visitSentence T.sentences n
  let definitions := visitEach (visitEach visitRule) T.definitions sentences.2
  let fixpdefs := visitFixpDefs visitRule T.fixpdefs definitions.2
  (⟨sentences.1, definitions.1, fixpdefs.1⟩, fixpdefs.2)

end Visit

namespace Structure

def reinterpret (I : Structure S P F D) (p : P → List D → Prop) (f : F → List D → Option D) :
    Structure S P F D :=
  { I with predicate := p, function := f }

variable [DecidableEq S] (I : Structure S P F D)

-- the tuples that an instance of the rule puts in its head
def derives (r : Rule S P F D) (e : Variable S → D) (ds : List D) : Prop :=
  ∃ a : I.Tuple r.quantVars, I.values r.args (I.extend e a) = ds.map some ∧ I.holds r.body (I.extend e a)

end Structure

-- what a rule derives, in every interpretation of the symbols
abbrev Operator (S P F D : Type) :=
  PFSymbol S P F × ((P → List D → Prop) → (F → List D → Option D) → List D → Prop)

variable [DecidableEq S]

def Rule.operator (I : Structure S P F D) (r : Rule S P F D) (e : Variable S → D) : Operator S P F D :=
  (r.head, fun p f => (I.reinterpret p f).derives r e)

-- when a definition is satisfied, by the operators of its rules
structure DefinitionSemantics (S P F D : Type) where
  definition : List (Operator S P F D) → Prop
  fixpdef : FixpDef (Operator S P F D) → Prop

def Theory.holds (I : Structure S P F D) (semantics : DefinitionSemantics S P F D) (T : Theory S P F D)
    (e : Variable S → D) : Prop :=
  (∀ f ∈ T.sentences, I.holds f e) ∧
  (∀ d ∈ T.definitions, semantics.definition (d.map fun r => r.operator I e)) ∧
  ∀ d ∈ T.fixpdefs, semantics.fixpdef (d.map fun r => r.operator I e)

def Rule.freeVars (r : Rule S P F D) : List (Variable S) :=
  (termsFreeVars r.args ++ r.body.freeVars).filter (· ∉ r.quantVars)

def Theory.freeVars (T : Theory S P F D) : List (Variable S) :=
  T.sentences.flatMap Formula.freeVars ++
    (T.definitions.flatMap fun d => d.flatMap Rule.freeVars) ++ (allOf T.fixpdefs).flatMap Rule.freeVars

section Steps

variable {α β γ : Type}

-- a visit that keeps the meaning, and frees no variable
structure Keeps (fit : ℕ → α → Prop) (free : α → List (Variable S)) (meaning : α → β)
    (g : α → ℕ → α × ℕ) : Prop where
  mono : ∀ {x n m}, fit n x → n ≤ m → fit m x
  le : ∀ {x n}, fit n x → n ≤ (g x n).2
  free : ∀ {x n}, fit n x → ∀ v ∈ free (g x n).1, v ∈ free x
  meaning : ∀ {x n}, fit n x → meaning (g x n).1 = meaning x

variable {fit : ℕ → α → Prop} {free : α → List (Variable S)} {meaning : α → β} {g : α → ℕ → α × ℕ}
  {gs : List α → ℕ → List α × ℕ} {l : List α} {n : ℕ}

theorem Keeps.visitEach (h : Keeps fit free meaning g) :
    Keeps (fun n l => ∀ x ∈ l, fit n x) (fun l => l.flatMap free) (fun l => l.map meaning)
      (visitEach g) where
  mono hl hn x hx := h.mono (hl x hx) hn
  le {l n} hl := by
    induction l generalizing n with
    | nil => exact Nat.le_refl n
    | cons x l ih =>
      obtain ⟨hx, hl⟩ := List.forall_mem_cons.mp hl
      exact Nat.le_trans (h.le hx) (ih fun y hy => h.mono (hl y hy) (h.le hx))
  free {l n} hl v hv := by
    induction l generalizing n with
    | nil => exact hv
    | cons x l ih =>
      obtain ⟨hx, hl⟩ := List.forall_mem_cons.mp hl
      exact List.mem_append.mpr ((List.mem_append.mp hv).imp (h.free hx v)
        (ih fun y hy => h.mono (hl y hy) (h.le hx)))
  meaning {l n} hl := by
    induction l generalizing n with
    | nil => rfl
    | cons x l ih =>
      obtain ⟨hx, hl⟩ := List.forall_mem_cons.mp hl
      exact congrArg₂ List.cons (h.meaning hx) (ih fun y hy => h.mono (hl y hy) (h.le hx))

mutual

theorem visitFixpDef_le (h : Keeps fit free meaning g) : (d : FixpDef α) → (n : ℕ) →
    (∀ x ∈ d.all, fit n x) → n ≤ (visitFixpDef g d n).2
  | .mk _ rules defs, n, hd => by
    obtain ⟨hrules, hdefs⟩ := List.forall_mem_append.mp hd
    have hle := h.visitEach.le hrules
    exact Nat.le_trans hle (visitFixpDefs_le h defs _ fun x hx => h.mono (hdefs x hx) hle)

theorem visitFixpDefs_le (h : Keeps fit free meaning g) : (ds : List (FixpDef α)) → (n : ℕ) →
    (∀ x ∈ allOf ds, fit n x) → n ≤ (visitFixpDefs g ds n).2
  | [], n, _ => Nat.le_refl n
  | d :: ds, n, hds => by
    obtain ⟨hd, hds⟩ := List.forall_mem_append.mp hds
    have hle := visitFixpDef_le h d n hd
    exact Nat.le_trans hle (visitFixpDefs_le h ds _ fun x hx => h.mono (hds x hx) hle)

end

mutual

theorem visitFixpDef_free (h : Keeps fit free meaning g) : (d : FixpDef α) → (n : ℕ) →
    (∀ x ∈ d.all, fit n x) → ∀ v ∈ (visitFixpDef g d n).1.all.flatMap free, v ∈ d.all.flatMap free
  | .mk _ rules defs, n, hd => by
    intro v hv
    obtain ⟨hrules, hdefs⟩ := List.forall_mem_append.mp hd
    have hle := h.visitEach.le hrules
    rw [visitFixpDef, FixpDef.all, List.flatMap_append] at hv
    rw [FixpDef.all, List.flatMap_append]
    exact List.mem_append.mpr ((List.mem_append.mp hv).imp (h.visitEach.free hrules v)
      (visitFixpDefs_free h defs _ (fun x hx => h.mono (hdefs x hx) hle) v))

theorem visitFixpDefs_free (h : Keeps fit free meaning g) : (ds : List (FixpDef α)) → (n : ℕ) →
    (∀ x ∈ allOf ds, fit n x) → ∀ v ∈ (allOf (visitFixpDefs g ds n).1).flatMap free,
      v ∈ (allOf ds).flatMap free
  | [], _, _ => fun _ hv => hv
  | d :: ds, n, hds => by
    intro v hv
    obtain ⟨hd, hds⟩ := List.forall_mem_append.mp hds
    have hle := visitFixpDef_le h d n hd
    rw [visitFixpDefs, allOf, List.flatMap_append] at hv
    rw [allOf, List.flatMap_append]
    exact List.mem_append.mpr ((List.mem_append.mp hv).imp (visitFixpDef_free h d n hd v)
      (visitFixpDefs_free h ds _ (fun x hx => h.mono (hds x hx) hle) v))

end

mutual

theorem visitFixpDef_meaning (h : Keeps fit free meaning g) : (d : FixpDef α) → (n : ℕ) →
    (∀ x ∈ d.all, fit n x) → (visitFixpDef g d n).1.map meaning = d.map meaning
  | .mk _ rules defs, n, hd => by
    obtain ⟨hrules, hdefs⟩ := List.forall_mem_append.mp hd
    have hle := h.visitEach.le hrules
    rw [visitFixpDef, FixpDef.map, FixpDef.map, h.visitEach.meaning hrules,
      visitFixpDefs_meaning h defs _ fun x hx => h.mono (hdefs x hx) hle]

theorem visitFixpDefs_meaning (h : Keeps fit free meaning g) : (ds : List (FixpDef α)) → (n : ℕ) →
    (∀ x ∈ allOf ds, fit n x) → mapOf meaning (visitFixpDefs g ds n).1 = mapOf meaning ds
  | [], _, _ => rfl
  | d :: ds, n, hds => by
    obtain ⟨hd, hds⟩ := List.forall_mem_append.mp hds
    have hle := visitFixpDef_le h d n hd
    rw [visitFixpDefs, mapOf, mapOf, visitFixpDef_meaning h d n hd,
      visitFixpDefs_meaning h ds _ fun x hx => h.mono (hds x hx) hle]

end

theorem Keeps.visitFixpDefs (h : Keeps fit free meaning g) :
    Keeps (fun n ds => ∀ x ∈ allOf ds, fit n x) (fun ds => (allOf ds).flatMap free) (mapOf meaning)
      (visitFixpDefs g) where
  mono hds hn x hx := h.mono (hds x hx) hn
  le {ds n} := visitFixpDefs_le h ds n
  free {ds n} := visitFixpDefs_free h ds n
  meaning {ds n} := visitFixpDefs_meaning h ds n

end Steps

section Theory

variable {I : Structure S P F D}

-- the same truth value, whatever the definitions mean, and no variable that was bound is free
structure Theory.Keeps (I : Structure S P F D) (T T' : Theory S P F D) : Prop where
  holds : ∀ semantics e, T'.holds I semantics e ↔ T.holds I semantics e
  freeVars : ∀ v ∈ T'.freeVars, v ∈ T.freeVars

theorem mapOf_eq_map {R R' : Type} (g : R → R') (ds : List (FixpDef R)) :
    mapOf g ds = ds.map (FixpDef.map g) := by
  induction ds with
  | nil => rfl
  | cons d ds ih => rw [mapOf, ih, List.map_cons]

mutual

theorem FixpDef.map_map {R R' R'' : Type} (g : R → R') (g' : R' → R'') :
    (d : FixpDef R) → (d.map g).map g' = d.map fun r => g' (g r)
  | .mk lfp rules defs => by
    rw [FixpDef.map, FixpDef.map, FixpDef.map, mapOf_map, List.map_map]
    rfl

theorem mapOf_map {R R' R'' : Type} (g : R → R') (g' : R' → R'') :
    (ds : List (FixpDef R)) → mapOf g' (mapOf g ds) = mapOf (fun r => g' (g r)) ds
  | [] => rfl
  | d :: ds => by
    rw [mapOf, mapOf, mapOf, d.map_map, mapOf_map]

end

theorem visitTheory_keeps {visitSentence : Formula S P F D → ℕ → Formula S P F D × ℕ}
    {visitRule : Rule S P F D → ℕ → Rule S P F D × ℕ}
    {fit : ℕ → Formula S P F D → Prop} {fitRule : ℕ → Rule S P F D → Prop}
    (hs : Keeps fit Formula.freeVars I.holds visitSentence)
    (hr : Keeps fitRule Rule.freeVars (Rule.operator I) visitRule) {T : Theory S P F D} {n : ℕ}
    (sentences : ∀ f ∈ T.sentences, fit n f) (definitions : ∀ d ∈ T.definitions, ∀ r ∈ d, fitRule n r)
    (fixpdefs : ∀ r ∈ allOf T.fixpdefs, fitRule n r) :
    T.Keeps I (visitTheory visitSentence visitRule T n).1 := by
  have hdefs := hr.visitEach.visitEach
  have hfixp := hr.visitFixpDefs
  have hsle := hs.visitEach.le sentences
  have hd := hdefs.mono definitions hsle
  have hf := hfixp.mono fixpdefs (Nat.le_trans hsle (hdefs.le hd))
  have hsentences := hs.visitEach.meaning sentences
  have hdefinitions := hdefs.meaning hd
  have hfixpdefs := hfixp.meaning hf
  rw [visitTheory]
  refine ⟨fun semantics e => and_congr ?_ (and_congr ?_ ?_), fun v hv => ?_⟩
  · have := congrArg (fun l => ∀ p ∈ l, p e) hsentences
    simpa using this
  · have := congrArg (fun l => ∀ d ∈ l, semantics.definition (d.map fun o => o e)) hdefinitions
    simpa [Function.comp_def] using this
  · have := congrArg (fun l => ∀ d ∈ l, semantics.fixpdef (d.map fun o => o e)) hfixpdefs
    simpa [mapOf_eq_map, FixpDef.map_map] using this
  · simp only [Theory.freeVars, List.mem_append] at hv ⊢
    exact hv.imp (Or.imp (hs.visitEach.free sentences v) (hdefs.free hd v)) (hfixp.free hf v)

end Theory

end Theory
