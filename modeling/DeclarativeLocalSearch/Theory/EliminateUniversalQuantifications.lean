import DeclarativeLocalSearch.Theory.NormalFormShape

set_option linter.unusedSectionVars false

namespace Theory

variable {S Q F D : Type}

-- pushing a negation into an atom over a derived symbol makes a new atom and deletes this one
def replacedWhenPushed : Formula S (Predicate Q) F D → Bool
  | .pred .neg (.predicate (.derived _ _)) _ => true
  | _ => false

mutual

def Term.eliminateUniversalQuantifications : Term S (Predicate Q) F D → Option (Term S (Predicate Q) F D)
  | .var v => some (.var v)
  | .func f args => (eliminateTerms args).map (.func f)
  | .dom s d => some (.dom s d)
  | .agg g sets => (eliminateSets sets).map (.agg g)

def eliminateTerms : List (Term S (Predicate Q) F D) → Option (List (Term S (Predicate Q) F D))
  | [] => some []
  | t :: ts => do
    let t ← t.eliminateUniversalQuantifications
    let ts ← eliminateTerms ts
    some (t :: ts)

def QuantSetExpr.eliminateUniversalQuantifications :
    QuantSetExpr S (Predicate Q) F D → Option (QuantSetExpr S (Predicate Q) F D)
  | .mk vars condition term => do
    let term ← term.eliminateUniversalQuantifications
    let condition ← condition.eliminateUniversalQuantifications
    some (.mk vars condition term)

def eliminateSets : List (QuantSetExpr S (Predicate Q) F D) → Option (List (QuantSetExpr S (Predicate Q) F D))
  | [] => some []
  | s :: ss => do
    let s ← s.eliminateUniversalQuantifications
    let ss ← eliminateSets ss
    some (s :: ss)

-- a quantification is not visited below; there is no result when its subformula is deleted
def Formula.eliminateUniversalQuantifications : Formula S (Predicate Q) F D → Option (Formula S (Predicate Q) F D)
  | .pred sign symbol args => (eliminateTerms args).map (.pred sign symbol)
  | .eqChain sign conj comps terms => (eliminateTerms terms).map (.eqChain sign conj comps)
  | .equiv sign l r => do
    let l ← l.eliminateUniversalQuantifications
    let r ← r.eliminateUniversalQuantifications
    some (.equiv sign l r)
  | .bool sign conj subs => (eliminateFormulas subs).map (.bool sign conj)
  | .quant sign .univ vars f =>
    if replacedWhenPushed f.negate then none
    else some (.quant sign.negate .exist vars (f.negate.pushNegations .pos))
  | .quant sign .exist vars f => some (.quant sign .exist vars f)
  | .agg sign bound comp g sets => do
    let bound ← bound.eliminateUniversalQuantifications
    let sets ← eliminateSets sets
    some (.agg sign bound comp g sets)

def eliminateFormulas : List (Formula S (Predicate Q) F D) → Option (List (Formula S (Predicate Q) F D))
  | [] => some []
  | f :: fs => do
    let f ← f.eliminateUniversalQuantifications
    let fs ← eliminateFormulas fs
    some (f :: fs)

end

def Formula.notUniv : Formula S (Predicate Q) F D → Prop
  | .quant _ .univ _ _ => False
  | _ => True

section Existential

mutual

-- each quantification is existential when the negations above it are pushed into it
def Term.existential : Term S (Predicate Q) F D → Prop
  | .var _ => True
  | .func _ args => termsExistential args
  | .dom _ _ => True
  | .agg _ sets => setsExistential sets

def termsExistential : List (Term S (Predicate Q) F D) → Prop
  | [] => True
  | t :: ts => t.existential ∧ termsExistential ts

def QuantSetExpr.existential : QuantSetExpr S (Predicate Q) F D → Prop
  | .mk _ condition term => condition.existential .pos ∧ term.existential

def setsExistential : List (QuantSetExpr S (Predicate Q) F D) → Prop
  | [] => True
  | s :: ss => s.existential ∧ setsExistential ss

def Formula.existential : Formula S (Predicate Q) F D → SIGN → Prop
  | .pred _ _ args, _ => termsExistential args
  | .eqChain _ _ _ terms, _ => termsExistential terms
  | .equiv sign l r, outer => l.existential .pos ∧ r.existential (outer.under sign)
  | .bool sign _ subs, outer => formulasExistential subs (outer.under sign)
  | .quant sign q _ f, outer => (outer.under sign = .pos ↔ q = .exist) ∧ f.existential (outer.under sign)
  | .agg _ bound _ _ sets, _ => bound.existential ∧ setsExistential sets

def formulasExistential : List (Formula S (Predicate Q) F D) → SIGN → Prop
  | [], _ => True
  | f :: fs, outer => f.existential outer ∧ formulasExistential fs outer

end

end Existential

section Eliminable

mutual

-- below the first universal quantification there are only existential ones once the negation is pushed, and
-- below the first existential one there is none
def Term.eliminable : Term S (Predicate Q) F D → Prop
  | .var _ => True
  | .func _ args => termsEliminable args
  | .dom _ _ => True
  | .agg _ sets => setsEliminable sets

def termsEliminable : List (Term S (Predicate Q) F D) → Prop
  | [] => True
  | t :: ts => t.eliminable ∧ termsEliminable ts

def QuantSetExpr.eliminable : QuantSetExpr S (Predicate Q) F D → Prop
  | .mk _ condition term => condition.eliminable ∧ term.eliminable

def setsEliminable : List (QuantSetExpr S (Predicate Q) F D) → Prop
  | [] => True
  | s :: ss => s.eliminable ∧ setsEliminable ss

def Formula.eliminable : Formula S (Predicate Q) F D → Prop
  | .pred _ _ args => termsEliminable args
  | .eqChain _ _ _ terms => termsEliminable terms
  | .equiv _ l r => l.eliminable ∧ r.eliminable
  | .bool _ _ subs => formulasEliminable subs
  | .quant _ .univ _ f => replacedWhenPushed f.negate = false ∧ f.existential .neg
  | .quant _ .exist _ f => f.every Formula.notUniv
  | .agg _ bound _ _ sets => bound.eliminable ∧ setsEliminable sets

def formulasEliminable : List (Formula S (Predicate Q) F D) → Prop
  | [] => True
  | f :: fs => f.eliminable ∧ formulasEliminable fs

end

end Eliminable

end Theory

set_option linter.unusedSectionVars false

namespace Theory

open Structure Quantified

variable {S Q F D : Type} [DecidableEq S]

theorem negate_pushNegations (f : Formula S (Predicate Q) F D) : f.negate.pushNegations .pos = f.pushNegations .neg := by
  cases f <;> rfl

section Lists

variable {α β : Type} {g : α → Option α} {gs : List α → Option (List α)}

-- what the lists of the visitor are, whatever it visits
structure Lists (g : α → Option α) (gs : List α → Option (List α)) : Prop where
  nil : gs [] = some []
  cons : ∀ x l, gs (x :: l) = do
    let x ← g x
    let l ← gs l
    some (x :: l)

theorem Lists.cons_iff (h : Lists g gs) {x : α} {l l' : List α} :
    gs (x :: l) = some l' ↔ ∃ x' l'', g x = some x' ∧ gs l = some l'' ∧ x' :: l'' = l' := by
  simp only [h.cons, Option.bind_eq_bind, Option.bind_eq_some_iff, Option.some.injEq]
  exact exists_congr fun x' => ⟨fun ⟨hx, l'', hl, heq⟩ => ⟨l'', hx, hl, heq⟩, fun ⟨l'', hx, hl, heq⟩ => ⟨hx, l'', hl, heq⟩⟩

theorem Lists.exists_iff (h : Lists g gs) {p : α → Prop} {l : List α} :
    (∃ l', gs l = some l' ∧ ∀ x ∈ l', p x) ↔ ∀ x ∈ l, ∃ x', g x = some x' ∧ p x' := by
  induction l with
  | nil => simp [h.nil]
  | cons x l ih =>
    simp only [h.cons_iff, List.forall_mem_cons, ← ih]
    constructor
    · rintro ⟨_, ⟨x', l', hx', hl', rfl⟩, hp⟩
      obtain ⟨hx, hl⟩ := List.forall_mem_cons.mp hp
      exact ⟨⟨x', hx', hx⟩, l', hl', hl⟩
    · rintro ⟨⟨x', hx', hx⟩, l', hl', hl⟩
      exact ⟨x' :: l', ⟨x', l', hx', hl', rfl⟩, List.forall_mem_cons.mpr ⟨hx, hl⟩⟩

theorem Lists.map_eq (h : Lists g gs) {m : α → β} {l l' : List α} (hl : gs l = some l')
    (hm : ∀ x ∈ l, ∀ x', g x = some x' → m x' = m x) : l'.map m = l.map m := by
  induction l generalizing l' with
  | nil =>
    rw [h.nil] at hl
    cases hl
    rfl
  | cons x l ih =>
    obtain ⟨x', l'', hx', hl'', rfl⟩ := h.cons_iff.mp hl
    obtain ⟨hx, hrest⟩ := List.forall_mem_cons.mp hm
    rw [List.map_cons, List.map_cons, hx x' hx', ih hl'' hrest]

theorem exists_map_iff {x : Option α} {c : α → β} {p : β → Prop} {q : α → Prop} (h : ∀ a, p (c a) ↔ q a) :
    (∃ y, x.map c = some y ∧ p y) ↔ ∃ a, x = some a ∧ q a := by
  simp only [Option.map_eq_some_iff, ← h]
  exact ⟨fun ⟨_, ⟨a, ha, rfl⟩, hp⟩ => ⟨a, ha, hp⟩, fun ⟨a, ha, hp⟩ => ⟨_, ⟨a, ha, rfl⟩, hp⟩⟩

theorem exists_bind_iff {γ : Type} {x : Option α} {y : Option β} {c : α → β → γ} {p : γ → Prop} {q : α → Prop}
    {r : β → Prop} (h : ∀ a b, p (c a b) ↔ q a ∧ r b) :
    (∃ z, (x.bind fun a => y.bind fun b => some (c a b)) = some z ∧ p z) ↔
      (∃ a, x = some a ∧ q a) ∧ ∃ b, y = some b ∧ r b := by
  simp only [Option.bind_eq_some_iff, Option.some.injEq]
  constructor
  · rintro ⟨_, ⟨a, ha, b, hb, rfl⟩, hp⟩
    obtain ⟨hq, hr⟩ := (h a b).mp hp
    exact ⟨⟨a, ha, hq⟩, b, hb, hr⟩
  · rintro ⟨⟨a, ha, hq⟩, b, hb, hr⟩
    exact ⟨_, ⟨a, ha, b, hb, rfl⟩, (h a b).mpr ⟨hq, hr⟩⟩

theorem lists_terms : Lists (Term.eliminateUniversalQuantifications (S := S) (Q := Q) (F := F) (D := D)) eliminateTerms :=
  ⟨rfl, fun _ _ => rfl⟩

theorem lists_sets :
    Lists (QuantSetExpr.eliminateUniversalQuantifications (S := S) (Q := Q) (F := F) (D := D)) eliminateSets :=
  ⟨rfl, fun _ _ => rfl⟩

theorem lists_formulas :
    Lists (Formula.eliminateUniversalQuantifications (S := S) (Q := Q) (F := F) (D := D)) eliminateFormulas :=
  ⟨rfl, fun _ _ => rfl⟩

end Lists

section Shape

theorem termsExistential_iff {ts : List (Term S (Predicate Q) F D)} :
    termsExistential ts ↔ ∀ t ∈ ts, t.existential := by
  induction ts with
  | nil => simp [termsExistential]
  | cons t ts ih => simp [termsExistential, ih]

theorem formulasExistential_iff {fs : List (Formula S (Predicate Q) F D)} {outer : SIGN} :
    formulasExistential fs outer ↔ ∀ f ∈ fs, f.existential outer := by
  induction fs with
  | nil => simp [formulasExistential]
  | cons f fs ih => simp [formulasExistential, ih]

theorem termsEliminable_iff {ts : List (Term S (Predicate Q) F D)} : termsEliminable ts ↔ ∀ t ∈ ts, t.eliminable := by
  induction ts with
  | nil => simp [termsEliminable]
  | cons t ts ih => simp [termsEliminable, ih]

theorem setsEliminable_iff {ss : List (QuantSetExpr S (Predicate Q) F D)} :
    setsEliminable ss ↔ ∀ s ∈ ss, s.eliminable := by
  induction ss with
  | nil => simp [setsEliminable]
  | cons s ss ih => simp [setsEliminable, ih]

theorem formulasEliminable_iff {fs : List (Formula S (Predicate Q) F D)} :
    formulasEliminable fs ↔ ∀ f ∈ fs, f.eliminable := by
  induction fs with
  | nil => simp [formulasEliminable]
  | cons f fs ih => simp [formulasEliminable, ih]

theorem pushNegations_notUniv :
    (∀ t : Term S (Predicate Q) F D, t.pushNegations.every Formula.notUniv ↔ t.existential) ∧
    (∀ s : QuantSetExpr S (Predicate Q) F D, s.pushNegations.every Formula.notUniv ↔ s.existential) ∧
    ∀ (f : Formula S (Predicate Q) F D) outer, (f.pushNegations outer).every Formula.notUniv ↔ f.existential outer := by
  have terms : ∀ {ts : List (Term S (Predicate Q) F D)},
      (∀ t ∈ ts, t.pushNegations.every Formula.notUniv ↔ t.existential) →
      (termsEvery Formula.notUniv (pushTerms ts) ↔ termsExistential ts) := by
    intro ts ih
    rw [pushTerms_eq_map, termsEvery_iff, List.forall_mem_map, termsExistential_iff]
    exact forall₂_congr ih
  have sets : ∀ {ss : List (QuantSetExpr S (Predicate Q) F D)},
      (∀ s ∈ ss, s.pushNegations.every Formula.notUniv ↔ s.existential) →
      (setsEvery Formula.notUniv (pushSets ss) ↔ setsExistential ss) := by
    intro ss ih
    induction ss with
    | nil => exact Iff.rfl
    | cons s ss ihs =>
      obtain ⟨hs, hrest⟩ := List.forall_mem_cons.mp ih
      exact and_congr hs (ihs hrest)
  refine Formula.induct ?_ ?_ ?_ ?_ ?_ ?_ ?_ ?_ ?_ ?_ ?_
  · exact fun v => Iff.rfl
  · exact fun f args ih => terms ih
  · exact fun s d => Iff.rfl
  · exact fun g ss ih => sets ih
  · exact fun vars c t ihc iht => and_congr (ihc .pos) iht
  · intro sign symbol args ih outer
    have hatom : (pushAtom (outer.under sign) symbol (pushTerms args)).every Formula.notUniv ↔
        termsEvery Formula.notUniv (pushTerms args) := by
      unfold pushAtom
      split <;> exact and_iff_right trivial
    exact hatom.trans (terms ih)
  · intro sign conj comps ts ih outer
    rw [Formula.pushNegations]
    cases outer.under sign <;> exact (and_iff_right trivial).trans (terms ih)
  · exact fun sign l r ihl ihr outer => (and_iff_right trivial).trans (and_congr (ihl .pos) (ihr _))
  · intro sign conj fs ih outer
    refine (and_iff_right trivial).trans ?_
    rw [pushFormulas_eq_map, formulasEvery_iff, List.forall_mem_map]
    exact (forall₂_congr fun f hf => ih f hf _).trans formulasExistential_iff.symm
  · intro sign q vars f ih outer
    rw [Formula.pushNegations, Formula.existential]
    refine and_congr ?_ (ih _)
    cases outer.under sign <;> cases q <;> simp [QUANT.negate, Formula.notUniv]
  · exact fun sign b comp g ss ihb ih outer => (and_iff_right trivial).trans (and_congr ihb (sets ih))

theorem eliminate_notUniv_iff :
    (∀ t : Term S (Predicate Q) F D,
      (∃ t', t.eliminateUniversalQuantifications = some t' ∧ t'.every Formula.notUniv) ↔ t.eliminable) ∧
    (∀ s : QuantSetExpr S (Predicate Q) F D,
      (∃ s', s.eliminateUniversalQuantifications = some s' ∧ s'.every Formula.notUniv) ↔ s.eliminable) ∧
    ∀ f : Formula S (Predicate Q) F D,
      (∃ f', f.eliminateUniversalQuantifications = some f' ∧ f'.every Formula.notUniv) ↔ f.eliminable := by
  have terms : ∀ {ts : List (Term S (Predicate Q) F D)},
      (∀ t ∈ ts, (∃ t', t.eliminateUniversalQuantifications = some t' ∧ t'.every Formula.notUniv) ↔ t.eliminable) →
      ((∃ ts', eliminateTerms ts = some ts' ∧ termsEvery Formula.notUniv ts') ↔ termsEliminable ts) := by
    intro ts ih
    simp only [termsEvery_iff, lists_terms.exists_iff, termsEliminable_iff]
    exact forall₂_congr ih
  have sets : ∀ {ss : List (QuantSetExpr S (Predicate Q) F D)},
      (∀ s ∈ ss, (∃ s', s.eliminateUniversalQuantifications = some s' ∧ s'.every Formula.notUniv) ↔ s.eliminable) →
      ((∃ ss', eliminateSets ss = some ss' ∧ setsEvery Formula.notUniv ss') ↔ setsEliminable ss) := by
    intro ss ih
    simp only [setsEvery_iff, lists_sets.exists_iff, setsEliminable_iff]
    exact forall₂_congr ih
  refine Formula.induct ?_ ?_ ?_ ?_ ?_ ?_ ?_ ?_ ?_ ?_ ?_
  · exact fun v => ⟨fun _ => trivial, fun _ => ⟨_, rfl, trivial⟩⟩
  · exact fun f args ih => (exists_map_iff fun _ => Iff.rfl).trans (terms ih)
  · exact fun s d => ⟨fun _ => trivial, fun _ => ⟨_, rfl, trivial⟩⟩
  · exact fun g ss ih => (exists_map_iff fun _ => Iff.rfl).trans (sets ih)
  · intro vars c t ihc iht
    refine Iff.trans (exists_bind_iff (p := QuantSetExpr.every Formula.notUniv) fun _ _ => and_comm) ?_
    exact (and_congr iht ihc).trans and_comm
  · intro sign symbol args ih
    exact Iff.trans (exists_map_iff (p := Formula.every Formula.notUniv) fun _ => and_iff_right trivial) (terms ih)
  · intro sign conj comps ts ih
    exact Iff.trans (exists_map_iff (p := Formula.every Formula.notUniv) fun _ => and_iff_right trivial) (terms ih)
  · intro sign l r ihl ihr
    refine Iff.trans (exists_bind_iff (p := Formula.every Formula.notUniv) fun _ _ => and_iff_right trivial) ?_
    exact and_congr ihl ihr
  · intro sign conj fs ih
    refine Iff.trans (exists_map_iff (p := Formula.every Formula.notUniv)
      fun _ => (and_iff_right trivial).trans formulasEvery_iff) ?_
    rw [lists_formulas.exists_iff]
    exact (forall₂_congr ih).trans formulasEliminable_iff.symm
  · intro sign q vars f _
    cases q with
    | exist =>
      rw [Formula.eliminateUniversalQuantifications, Formula.eliminable]
      simp [Formula.every, Formula.notUniv]
    | univ =>
      rw [Formula.eliminateUniversalQuantifications, Formula.eliminable, ← pushNegations_notUniv.2.2,
        negate_pushNegations]
      cases replacedWhenPushed f.negate <;> simp [Formula.every, Formula.notUniv]
  · intro sign b comp g ss ihb ih
    refine Iff.trans (exists_bind_iff (p := Formula.every Formula.notUniv) fun _ _ => and_iff_right trivial) ?_
    exact and_congr ihb (sets ih)

end Shape

section Meaning

variable (I : DerivedStructure S Q F D)

mutual

-- what is pushed into the subformulas of universal quantifications may be negated there
def Term.pushSafe : Term S (Predicate Q) F D → (Variable S → D) → Prop
  | .var _, _ => True
  | .func _ args, e => termsPushSafe args e
  | .dom _ _, _ => True
  | .agg _ sets, e => setsPushSafe sets e

def termsPushSafe : List (Term S (Predicate Q) F D) → (Variable S → D) → Prop
  | [], _ => True
  | t :: ts, e => t.pushSafe e ∧ termsPushSafe ts e

def QuantSetExpr.pushSafe : QuantSetExpr S (Predicate Q) F D → (Variable S → D) → Prop
  | .mk vars condition term, e =>
    ∀ a : I.Tuple vars, condition.pushSafe (I.extend e a) ∧ term.pushSafe (I.extend e a)

def setsPushSafe : List (QuantSetExpr S (Predicate Q) F D) → (Variable S → D) → Prop
  | [], _ => True
  | s :: ss, e => s.pushSafe e ∧ setsPushSafe ss e

def Formula.pushSafe : Formula S (Predicate Q) F D → (Variable S → D) → Prop
  | .pred _ _ args, e => termsPushSafe args e
  | .eqChain _ _ _ terms, e => termsPushSafe terms e
  | .equiv _ l r, e => l.pushSafe e ∧ r.pushSafe e
  | .bool _ _ subs, e => formulasPushSafe subs e
  | .quant _ .univ vars f, e =>
    ∀ a : I.Tuple vars, f.safe I.toStructure I.interpretations.mayNegate .neg (I.extend e a)
  | .quant _ .exist _ _, _ => True
  | .agg _ bound _ _ sets, e => bound.pushSafe e ∧ setsPushSafe sets e

def formulasPushSafe : List (Formula S (Predicate Q) F D) → (Variable S → D) → Prop
  | [], _ => True
  | f :: fs, e => f.pushSafe e ∧ formulasPushSafe fs e

end

variable {I}

theorem termsPushSafe_iff {ts : List (Term S (Predicate Q) F D)} {e : Variable S → D} :
    termsPushSafe I ts e ↔ ∀ t ∈ ts, t.pushSafe I e := by
  induction ts with
  | nil => simp [termsPushSafe]
  | cons t ts ih => simp [termsPushSafe, ih]

theorem setsPushSafe_iff {ss : List (QuantSetExpr S (Predicate Q) F D)} {e : Variable S → D} :
    setsPushSafe I ss e ↔ ∀ s ∈ ss, s.pushSafe I e := by
  induction ss with
  | nil => simp [setsPushSafe]
  | cons s ss ih => simp [setsPushSafe, ih]

theorem formulasPushSafe_iff {fs : List (Formula S (Predicate Q) F D)} {e : Variable S → D} :
    formulasPushSafe I fs e ↔ ∀ f ∈ fs, f.pushSafe I e := by
  induction fs with
  | nil => simp [formulasPushSafe]
  | cons f fs ih => simp [formulasPushSafe, ih]

theorem eliminate_holds :
    (∀ (t : Term S (Predicate Q) F D) t' e, t.eliminateUniversalQuantifications = some t' → t.pushSafe I e →
      I.value t' e = I.value t e) ∧
    (∀ (s : QuantSetExpr S (Predicate Q) F D) s' e, s.eliminateUniversalQuantifications = some s' → s.pushSafe I e →
      I.setOccurrences s' e = I.setOccurrences s e) ∧
    ∀ (f : Formula S (Predicate Q) F D) f' e, f.eliminateUniversalQuantifications = some f' → f.pushSafe I e →
      (I.holds f' e ↔ I.holds f e) := by
  have terms : ∀ {ts ts' : List (Term S (Predicate Q) F D)} {e : Variable S → D},
      (∀ t ∈ ts, ∀ t' e, t.eliminateUniversalQuantifications = some t' → t.pushSafe I e →
        I.value t' e = I.value t e) →
      eliminateTerms ts = some ts' → termsPushSafe I ts e → I.values ts' e = I.values ts e := by
    intro ts ts' e ih hts hsafe
    rw [values_eq_map, values_eq_map]
    exact lists_terms.map_eq hts fun t ht t' ht' => ih t ht t' e ht' (termsPushSafe_iff.mp hsafe t ht)
  have sets : ∀ {ss ss' : List (QuantSetExpr S (Predicate Q) F D)} {e : Variable S → D},
      (∀ s ∈ ss, ∀ s' e, s.eliminateUniversalQuantifications = some s' → s.pushSafe I e →
        I.setOccurrences s' e = I.setOccurrences s e) →
      eliminateSets ss = some ss' → setsPushSafe I ss e → I.occurrences ss' e = I.occurrences ss e := by
    intro ss ss' e ih hss hsafe
    exact occurrences_of_list (lists_sets.map_eq (m := fun s => I.setOccurrences s e) hss
      fun s hs s' hs' => ih s hs s' e hs' (setsPushSafe_iff.mp hsafe s hs))
  refine Formula.induct ?_ ?_ ?_ ?_ ?_ ?_ ?_ ?_ ?_ ?_ ?_
  · rintro v _ e ⟨⟩ _
    rfl
  · intro f args ih t' e ht' hsafe
    obtain ⟨args', hargs, rfl⟩ := Option.map_eq_some_iff.mp ht'
    rw [value, value, terms ih hargs hsafe]
  · rintro s d _ e ⟨⟩ _
    rfl
  · intro g ss ih t' e ht' hsafe
    obtain ⟨ss', hss, rfl⟩ := Option.map_eq_some_iff.mp ht'
    rw [value, value, sets ih hss hsafe]
  · intro vars c t ihc iht s' e hs' hsafe
    obtain ⟨t', ht', c', hc', rfl⟩ : ∃ t', t.eliminateUniversalQuantifications = some t' ∧
        ∃ c', c.eliminateUniversalQuantifications = some c' ∧ .mk vars c' t' = s' := by
      simpa [QuantSetExpr.eliminateUniversalQuantifications, Option.bind_eq_some_iff] using hs'
    have hc := fun a : I.Tuple vars => ihc c' _ hc' (hsafe a).1
    have ht := fun a : I.Tuple vars => iht t' _ ht' (hsafe a).2
    simp only [setOccurrences, hc, ht]
  · intro sign symbol args ih f' e hf' hsafe
    obtain ⟨args', hargs, rfl⟩ := Option.map_eq_some_iff.mp hf'
    rw [holds, holds, terms ih hargs hsafe]
  · intro sign conj comps ts ih f' e hf' hsafe
    obtain ⟨ts', hts, rfl⟩ := Option.map_eq_some_iff.mp hf'
    rw [holds, holds, terms ih hts hsafe]
  · intro sign l r ihl ihr f' e hf' hsafe
    obtain ⟨l', hl', r', hr', rfl⟩ : ∃ l', l.eliminateUniversalQuantifications = some l' ∧
        ∃ r', r.eliminateUniversalQuantifications = some r' ∧ .equiv sign l' r' = f' := by
      simpa [Formula.eliminateUniversalQuantifications, Option.bind_eq_some_iff] using hf'
    rw [holds, holds, ihl l' e hl' hsafe.1, ihr r' e hr' hsafe.2]
  · intro sign conj fs ih f' e hf' hsafe
    obtain ⟨fs', hfs, rfl⟩ := Option.map_eq_some_iff.mp hf'
    have hmap := lists_formulas.map_eq (m := fun f => I.holds f e) hfs fun f hf f' hf' =>
      propext (ih f hf f' e hf' (formulasPushSafe_iff.mp hsafe f hf))
    rw [holds_bool_iff, holds_bool_iff]
    refine iff_of_eq (congrArg sign.apply ?_)
    have heach : ∀ l : List (Formula S (Predicate Q) F D),
        eachOf conj l (fun f => I.holds f e) ↔ eachOf conj (l.map fun f => I.holds f e) id := fun l =>
          (eachOf_map (f := fun f => I.holds f e) (p := id)).symm
    exact propext ((heach fs').trans ((iff_of_eq (congrArg (eachOf conj · id) hmap)).trans (heach fs).symm))
  · intro sign q vars f _ f' e hf' hsafe
    cases q with
    | exist =>
      obtain rfl := Option.some.inj hf'
      exact Iff.rfl
    | univ =>
      rw [Formula.eliminateUniversalQuantifications] at hf'
      split_ifs at hf'
      obtain rfl := Option.some.inj hf'
      have hpush := fun a : I.Tuple vars => pushNegations_holds.2.2 f .neg _ (hsafe a)
      rw [negate_pushNegations, holds, holds]
      simp only [hpush, SIGN.apply]
      cases sign <;> simp [SIGN.negate]
  · intro sign b comp g ss ihb ih f' e hf' hsafe
    obtain ⟨b', hb', ss', hss, rfl⟩ : ∃ b', b.eliminateUniversalQuantifications = some b' ∧
        ∃ ss', eliminateSets ss = some ss' ∧ .agg sign b' comp g ss' = f' := by
      simpa [Formula.eliminateUniversalQuantifications, Option.bind_eq_some_iff] using hf'
    rw [holds, holds, ihb b' e hb' hsafe.1, sets ih hss hsafe.2]

end Meaning

theorem eliminateUniversalQuantifications_right_iff (f : Formula S (Predicate Q) F D) :
    ((∃ f', f.eliminateUniversalQuantifications = some f' ∧ f'.every Formula.notUniv) ↔ f.eliminable) ∧
      ∀ f', f.eliminateUniversalQuantifications = some f' →
        ∀ (I : DerivedStructure S Q F D) e, f.pushSafe I e → (I.holds f' e ↔ I.holds f e) :=
  ⟨eliminate_notUniv_iff.2.2 f, fun f' hf' _ e => eliminate_holds.2.2 f f' e hf'⟩

section Alternation

-- for all x there is a y
def alternation : Formula Unit (Predicate Unit) Unit Unit :=
  .quant .pos .univ [⟨0, ()⟩] (.quant .pos .exist [⟨1, ()⟩]
    (.pred .pos (.predicate (.symbol ())) [.var ⟨0, ()⟩, .var ⟨1, ()⟩]))

-- the existential quantification becomes universal
theorem eliminateUniversalQuantifications_alternation :
    ¬ ∃ f', alternation.eliminateUniversalQuantifications = some f' ∧ f'.every Formula.notUniv := by
  rintro ⟨f', hf', huniv⟩
  obtain rfl := Option.some.inj hf'
  exact huniv.2.1

def onlyUniversal : Formula Unit (Predicate Unit) Unit Unit :=
  .quant .pos .univ [⟨0, ()⟩] (.pred .pos (.predicate (.symbol ())) [.var ⟨0, ()⟩])

theorem eliminateUniversalQuantifications_onlyUniversal : ∃ f',
    onlyUniversal.eliminateUniversalQuantifications = some f' ∧ f'.every Formula.notUniv ∧
      ∀ (I : DerivedStructure Unit Unit Unit Unit) e, I.holds f' e ↔ I.holds onlyUniversal e := by
  obtain ⟨hshape, hholds⟩ := eliminateUniversalQuantifications_right_iff onlyUniversal
  obtain ⟨f', hf', huniv⟩ := hshape.mpr ⟨rfl, trivial, trivial⟩
  exact ⟨f', hf', huniv, fun I e => hholds f' hf' I e fun _ => ⟨⟨trivial, trivial⟩, fun _ => trivial⟩⟩

end Alternation

end Theory
