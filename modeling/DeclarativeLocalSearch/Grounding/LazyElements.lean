import Mathlib.Data.Int.Notation
import Mathlib.Data.List.Pairwise

namespace LazyElements

variable {D : Type}

inductive GroundTerm (D : Type) where
  | domelement (d : D)
  | varid (n : ℕ)
  deriving DecidableEq

abbrev Terms (D : Type) (arity : ℕ) := {terms : List (GroundTerm D) // terms.length = arity}

-- a literal of the grounding, or the one that reify gives for an equality of two terms
inductive Lit (D : Type) where
  | atom (n : ℕ)
  | equality (left right : GroundTerm D)

-- what is added for RIMPL and a conjunction: the clause with the head and the complements of the body
structure Implication (D : Type) where
  head : ℕ
  body : List (Lit D)

structure Entry (D : Type) (arity : ℕ) where
  terms : Terms D arity
  lit : ℕ

structure Translator (D : Type) (arity : ℕ) where
  lazyatoms2lit : List (Entry D arity)
  next : ℕ
  clauses : List (Implication D)

section Source

variable [DecidableEq D] {arity : ℕ}

-- none is an equality that is certainly false
def equalities : List (GroundTerm D) → List (GroundTerm D) → Option (List (Lit D))
  | termleft :: ls, termright :: rs => do
    match termleft, termright with
    | .domelement d, .domelement d' => if d ≠ d' then none else pure ()
    | _, _ => pure ()
    let rest ← equalities ls rs
    some (.equality termleft termright :: rest)
  | _, _ => some []

def implications (newhead : ℕ) (terms : Terms D arity) (terms2lit : Entry D arity) : List (Implication D) :=
  match equalities terms.1 terms2lit.terms.1 with
  | none => []
  | some equalities =>
    [⟨newhead, equalities⟩, ⟨terms2lit.lit, equalities.set (equalities.length - 1) (.atom newhead)⟩]

def createImplications (newhead : ℕ) (term2lits : List (Entry D arity)) (terms : Terms D arity) :
    List (Implication D) :=
  term2lits.flatMap (implications newhead terms)

def addLazyElement (terms : Terms D arity) (g : Translator D arity) : Translator D arity :=
  if g.lazyatoms2lit.any fun e => e.terms = terms then g
  else
    { lazyatoms2lit := g.lazyatoms2lit ++ [⟨terms, g.next⟩]
      next := g.next + 1
      clauses := g.clauses ++ createImplications g.next g.lazyatoms2lit terms }

def run (g : Translator D arity) (requests : List (Terms D arity)) : Translator D arity :=
  requests.foldl (fun g terms => addLazyElement terms g) g

def start (next : ℕ) : Translator D arity := ⟨[], next, []⟩

end Source

section Meaning

-- the values of the variables, and of the atoms
structure Assignment (D : Type) where
  value : ℕ → D
  holds : ℕ → Prop

variable {arity : ℕ}

def GroundTerm.eval (value : ℕ → D) : GroundTerm D → D
  | domelement d => d
  | varid n => value n

def Terms.eval (value : ℕ → D) (terms : Terms D arity) : List D := terms.1.map (GroundTerm.eval value)

def Lit.holds (I : Assignment D) : Lit D → Prop
  | atom n => I.holds n
  | equality left right => left.eval I.value = right.eval I.value

def Implication.holds (I : Assignment D) (c : Implication D) : Prop := (∀ l ∈ c.body, l.holds I) → I.holds c.head

def Congruent (I : Assignment D) (entries : List (Entry D arity)) : Prop :=
  ∀ e ∈ entries, ∀ e' ∈ entries, Terms.eval I.value e.terms = Terms.eval I.value e'.terms →
    (I.holds e.lit ↔ I.holds e'.lit)

-- the clauses say just that equal tuples have equal literals
def Correct (g : Translator D arity) : Prop :=
  ∀ I : Assignment D, (∀ c ∈ g.clauses, c.holds I) ↔ Congruent I g.lazyatoms2lit

-- two different elements at one place
def Differ (terms terms' : List (GroundTerm D)) : Prop :=
  ∃ d d', (GroundTerm.domelement d, GroundTerm.domelement d') ∈ terms.zip terms' ∧ d ≠ d'

-- the tuples can agree on all places but the last
def Agree (terms terms' : Terms D arity) : Prop :=
  ∃ value : ℕ → D, (Terms.eval value terms).dropLast = (Terms.eval value terms').dropLast

def Apart (terms terms' : Terms D arity) : Prop := Differ terms.1 terms'.1 ∨ ¬ Agree terms terms'

def Separate (requests : List (Terms D arity)) : Prop :=
  ∀ terms ∈ requests, ∀ terms' ∈ requests, terms ≠ terms' → Apart terms terms'

end Meaning

section Equalities

variable {value : ℕ → D} {I : Assignment D}

@[simp] theorem holds_equality (l r : GroundTerm D) :
    (Lit.equality l r).holds I ↔ l.eval I.value = r.eval I.value := Iff.rfl

theorem zipWith_hold {ls rs : List (GroundTerm D)} (hlen : ls.length = rs.length) :
    (∀ l ∈ List.zipWith Lit.equality ls rs, l.holds I) ↔
      ls.map (GroundTerm.eval I.value) = rs.map (GroundTerm.eval I.value) := by
  induction ls generalizing rs with
  | nil => cases rs <;> simp_all
  | cons l ls ih =>
    cases rs with
    | nil => simp at hlen
    | cons r rs => simp [ih (by simpa using hlen)]

theorem differ_cons {l r : GroundTerm D} {ls rs : List (GroundTerm D)} :
    Differ (l :: ls) (r :: rs) ↔
      (∃ d d', l = .domelement d ∧ r = .domelement d' ∧ d ≠ d') ∨ Differ ls rs := by
  constructor
  · rintro ⟨d, d', hmem, hne⟩
    rw [List.zip_cons_cons, List.mem_cons, Prod.mk.injEq] at hmem
    rcases hmem with ⟨hl, hr⟩ | hmem
    · exact Or.inl ⟨d, d', hl.symm, hr.symm, hne⟩
    · exact Or.inr ⟨d, d', hmem, hne⟩
  · rintro (⟨d, d', rfl, rfl, hne⟩ | ⟨d, d', hmem, hne⟩)
    · exact ⟨d, d', by simp, hne⟩
    · exact ⟨d, d', by simp [hmem], hne⟩

theorem differ_symm {ls rs : List (GroundTerm D)} (h : Differ ls rs) : Differ rs ls := by
  induction ls generalizing rs with
  | nil => simp [Differ] at h
  | cons l ls ih =>
    cases rs with
    | nil => simp [Differ] at h
    | cons r rs =>
      rw [differ_cons] at h ⊢
      rcases h with ⟨d, d', hl, hr, hne⟩ | h
      · exact Or.inl ⟨d', d, hr, hl, hne.symm⟩
      · exact Or.inr (ih h)

theorem eval_ne {ls rs : List (GroundTerm D)} (h : Differ ls rs) :
    ls.map (GroundTerm.eval value) ≠ rs.map (GroundTerm.eval value) := by
  induction ls generalizing rs with
  | nil => simp [Differ] at h
  | cons l ls ih =>
    cases rs with
    | nil => simp [Differ] at h
    | cons r rs =>
      rw [List.map_cons, List.map_cons, Ne, List.cons.injEq, not_and]
      intro heq
      rcases differ_cons.1 h with ⟨d, d', rfl, rfl, hne⟩ | h
      · exact absurd heq hne
      · exact ih h

theorem equalities_cases [DecidableEq D] (ls rs : List (GroundTerm D)) :
    (Differ ls rs ∧ equalities ls rs = none) ∨
      (¬ Differ ls rs ∧ equalities ls rs = some (List.zipWith Lit.equality ls rs)) := by
  induction ls generalizing rs with
  | nil => exact Or.inr ⟨by simp [Differ], rfl⟩
  | cons l ls ih =>
    cases rs with
    | nil => exact Or.inr ⟨by simp [Differ], rfl⟩
    | cons r rs =>
      have := ih rs
      rw [differ_cons]
      cases l <;> cases r <;> simp [equalities] <;> grind

theorem set_last {α : Type} {l : List α} (hne : l ≠ []) (a : α) : l.set (l.length - 1) a = l.dropLast ++ [a] := by
  have hlt : l.length - 1 < l.length := Nat.sub_lt (List.length_pos_iff.2 hne) Nat.one_pos
  rw [List.set_eq_take_append_cons_drop, if_pos hlt, List.dropLast_eq_take, Nat.sub_add_cancel
    (List.length_pos_iff.2 hne), List.drop_length]

theorem dropLast_zipWith {ls rs : List (GroundTerm D)} (hlen : ls.length = rs.length) :
    (List.zipWith Lit.equality ls rs).dropLast = List.zipWith Lit.equality ls.dropLast rs.dropLast := by
  rw [List.dropLast_eq_take, List.dropLast_eq_take, List.dropLast_eq_take, List.take_zipWith,
    List.length_zipWith, ← hlen, Nat.min_self]

end Equalities

section Pair

variable {arity : ℕ} {I : Assignment D}

theorem eval_apart {value : ℕ → D} {terms terms' : Terms D arity} (h : Apart terms terms') :
    Terms.eval value terms ≠ Terms.eval value terms' := by
  rcases h with h | h
  · exact eval_ne h
  · intro heq
    exact h ⟨value, by rw [heq]⟩

theorem apart_symm {terms terms' : Terms D arity} (h : Apart terms terms') : Apart terms' terms := by
  rcases h with h | h
  · exact Or.inl (differ_symm h)
  · exact Or.inr fun ⟨value, heq⟩ => h ⟨value, heq.symm⟩

-- both clauses of a pair hold
def Linked (I : Assignment D) (old new : Entry D arity) : Prop :=
  (Terms.eval I.value new.terms = Terms.eval I.value old.terms → I.holds new.lit) ∧
  ((Terms.eval I.value new.terms).dropLast = (Terms.eval I.value old.terms).dropLast →
    I.holds new.lit → I.holds old.lit)

theorem implications_hold [DecidableEq D] (old new : Entry D arity) (hne : new.terms ≠ old.terms) :
    (∀ c ∈ implications new.lit new.terms old, c.holds I) ↔
      Differ new.terms.1 old.terms.1 ∨ Linked I old new := by
  have hlen : new.terms.1.length = old.terms.1.length := new.terms.2.trans old.terms.2.symm
  rw [implications]
  rcases equalities_cases new.terms.1 old.terms.1 with ⟨hd, he⟩ | ⟨hd, he⟩
  · simp [he, hd]
  · rw [he]
    have hnil : List.zipWith Lit.equality new.terms.1 old.terms.1 ≠ [] := by
      intro hnil
      have : new.terms.1 = [] ∨ old.terms.1 = [] := by simpa using hnil
      refine hne (Subtype.ext ?_)
      rcases this with h | h
      · have : old.terms.1 = [] := List.eq_nil_of_length_eq_zero (by rw [← hlen, h]; rfl)
        rw [h, this]
      · have : new.terms.1 = [] := List.eq_nil_of_length_eq_zero (by rw [hlen, h]; rfl)
        rw [h, this]
    have hlast : new.terms.1.dropLast.length = old.terms.1.dropLast.length := by
      rw [List.length_dropLast, List.length_dropLast, hlen]
    simp only [List.forall_mem_cons, set_last hnil, dropLast_zipWith hlen, Implication.holds, zipWith_hold hlen,
      List.forall_mem_append, zipWith_hold hlast, hd, false_or, Linked, Terms.eval, List.map_dropLast]
    simp [Lit.holds]

end Pair

section Runs

variable [DecidableEq D] {arity : ℕ} {I : Assignment D} {g : Translator D arity} {requests : List (Terms D arity)}

def PairHolds (I : Assignment D) (old new : Entry D arity) : Prop :=
  ∀ c ∈ implications new.lit new.terms old, c.holds I

structure Stored (requests : List (Terms D arity)) (g : Translator D arity) : Prop where
  terms : ∀ terms, terms ∈ requests ↔ ∃ e ∈ g.lazyatoms2lit, e.terms = terms
  fresh : ∀ e ∈ g.lazyatoms2lit, e.lit < g.next
  distinct : g.lazyatoms2lit.Pairwise fun e e' => e.terms ≠ e'.terms ∧ e.lit ≠ e'.lit
  clauses : ∀ I, (∀ c ∈ g.clauses, c.holds I) ↔ g.lazyatoms2lit.Pairwise (PairHolds I)

theorem stored_start (next : ℕ) : Stored [] (start next : Translator D arity) := by
  constructor <;> simp [start]

theorem createImplications_hold (entries : List (Entry D arity)) (new : Entry D arity) :
    (∀ c ∈ createImplications new.lit entries new.terms, c.holds I) ↔ ∀ e ∈ entries, PairHolds I e new := by
  simp only [createImplications, List.mem_flatMap, PairHolds]
  constructor
  · intro h e he c hc
    exact h c ⟨e, he, hc⟩
  · rintro h c ⟨e, he, hc⟩
    exact h e he c hc

theorem stored_addLazyElement (h : Stored requests g) (terms : Terms D arity) :
    Stored (requests ++ [terms]) (addLazyElement terms g) := by
  by_cases hmem : g.lazyatoms2lit.any (fun e => e.terms = terms)
  · rw [addLazyElement, if_pos hmem]
    refine ⟨fun terms' => ?_, h.fresh, h.distinct, h.clauses⟩
    have hmem : ∃ e ∈ g.lazyatoms2lit, e.terms = terms := by simpa using hmem
    rw [← h.terms] at hmem ⊢
    simp only [List.mem_append, List.mem_singleton, or_iff_left_iff_imp]
    rintro rfl
    exact hmem
  · have hnew : ∀ e ∈ g.lazyatoms2lit, e.terms ≠ terms := by simpa using hmem
    rw [addLazyElement, if_neg hmem]
    refine ⟨fun terms' => ?_, ?_, ?_, fun I => ?_⟩
    · simp [h.terms, or_and_right, exists_or, eq_comm]
    · intro e he
      rcases List.mem_append.1 he with he | he
      · exact Nat.lt_succ_of_lt (h.fresh e he)
      · rw [List.mem_singleton.1 he]
        exact Nat.lt_succ_self _
    · refine List.pairwise_append.2 ⟨h.distinct, List.pairwise_singleton _ _, fun e he e' he' => ?_⟩
      rw [List.mem_singleton.1 he']
      exact ⟨hnew e he, Nat.ne_of_lt (h.fresh e he)⟩
    · rw [List.forall_mem_append, h.clauses, List.pairwise_append,
        createImplications_hold g.lazyatoms2lit ⟨terms, g.next⟩]
      simp

theorem stored_run (h : Stored requests g) (more : List (Terms D arity)) : Stored (requests ++ more) (run g more) := by
  induction more generalizing requests g with
  | nil => simpa [run] using h
  | cons terms more ih => simpa [run] using ih (stored_addLazyElement h terms)

end Runs

section Congruence

variable [DecidableEq D] {arity : ℕ} {I : Assignment D} {g : Translator D arity} {requests : List (Terms D arity)}

omit [DecidableEq D] in
theorem forall_pairs {entries : List (Entry D arity)} {R : Entry D arity → Entry D arity → Prop}
    (hsymm : ∀ e e', R e e' → R e' e) (hrefl : ∀ e, R e e) (h : entries.Pairwise R) :
    ∀ e ∈ entries, ∀ e' ∈ entries, R e e' := by
  have : Std.Symm R := ⟨hsymm⟩
  exact fun e he e' he' => h.forall_of_forall (fun e _ => hrefl e) he he'

theorem separate_iff (h : Stored requests g) :
    Separate requests ↔ g.lazyatoms2lit.Pairwise fun e e' => Apart e'.terms e.terms := by
  constructor
  · intro hsep
    refine h.distinct.imp_of_mem fun {e e'} he he' hne => ?_
    exact hsep _ ((h.terms _).2 ⟨e', he', rfl⟩) _ ((h.terms _).2 ⟨e, he, rfl⟩) hne.1.symm
  · intro hpair terms hmem terms' hmem' hne
    obtain ⟨e, he, rfl⟩ := (h.terms _).1 hmem
    obtain ⟨e', he', rfl⟩ := (h.terms _).1 hmem'
    have hordered : g.lazyatoms2lit.Pairwise fun e e' => e.terms ≠ e'.terms → Apart e.terms e'.terms := by
      refine hpair.imp ?_
      intro e e' h _
      exact apart_symm h
    have hall := forall_pairs (fun _ _ h hne => apart_symm (h hne.symm)) (fun _ hne => absurd rfl hne) hordered
    exact hall e he e' he' hne

theorem pairHolds_of_apart {old new : Entry D arity} (hne : new.terms ≠ old.terms)
    (h : Apart new.terms old.terms) : PairHolds I old new := by
  refine (implications_hold old new hne).2 (h.imp id fun hag => ?_)
  have hdrop : (Terms.eval I.value new.terms).dropLast ≠ (Terms.eval I.value old.terms).dropLast :=
    fun heq => hag ⟨I.value, heq⟩
  exact ⟨fun heq => absurd (by rw [heq]) hdrop, fun heq => absurd heq hdrop⟩

theorem correct_of_separate (h : Stored requests g) (hsep : Separate requests) : Correct g := by
  have hpair := (separate_iff h).1 hsep
  intro I
  have hhold : ∀ c ∈ g.clauses, c.holds I :=
    (h.clauses I).2 ((h.distinct.and hpair).imp fun h => pairHolds_of_apart h.1.1.symm h.2)
  have hcon : Congruent I g.lazyatoms2lit :=
    forall_pairs (fun _ _ h heq => (h heq.symm).symm) (fun _ _ => Iff.rfl)
      (hpair.imp fun h heq => absurd heq.symm (eval_apart h))
  exact iff_of_true hhold hcon

-- the tuples that have the value of the newer one get a true literal, which forces the older one
def answer (value : ℕ → D) (entries : List (Entry D arity)) (terms : Terms D arity) : Assignment D where
  value := value
  holds n := ∃ e ∈ entries, e.lit = n ∧ Terms.eval value e.terms = Terms.eval value terms

theorem holds_answer (h : Stored requests g) (value : ℕ → D) (terms : Terms D arity) {e : Entry D arity}
    (he : e ∈ g.lazyatoms2lit) :
    (answer value g.lazyatoms2lit terms).holds e.lit ↔ Terms.eval value e.terms = Terms.eval value terms := by
  constructor
  · rintro ⟨e', he', hlit, heval⟩
    have hsame : e'.lit = e.lit → e' = e :=
      forall_pairs (R := fun e e' => e.lit = e'.lit → e = e') (fun _ _ h heq => (h heq.symm).symm) (fun _ _ => rfl)
        (h.distinct.imp fun h heq => absurd heq h.2) e' he' e he
    rwa [hsame hlit] at heval
  · exact fun heval => ⟨e, he, rfl, heval⟩

theorem congruent_answer (h : Stored requests g) (value : ℕ → D) (terms : Terms D arity) :
    Congruent (answer value g.lazyatoms2lit terms) g.lazyatoms2lit := by
  intro e he e' he' heq
  rw [holds_answer h value terms he, holds_answer h value terms he']
  exact ⟨heq.symm.trans, heq.trans⟩

omit [DecidableEq D] in
theorem congruent_none (value : ℕ → D) (entries : List (Entry D arity)) :
    Congruent ⟨value, fun _ => False⟩ entries :=
  fun _ _ _ _ _ => Iff.rfl

theorem apart_of_correct (h : Stored requests g) (hcor : Correct g) {old new : Entry D arity}
    (hsub : [old, new].Sublist g.lazyatoms2lit) : Apart new.terms old.terms := by
  have hne := (List.pairwise_iff_forall_sublist.1 h.distinct hsub).1
  have hold : old ∈ g.lazyatoms2lit := hsub.subset (by simp)
  have hnew : new ∈ g.lazyatoms2lit := hsub.subset (by simp)
  have hlinked : ∀ I, Congruent I g.lazyatoms2lit → Differ new.terms.1 old.terms.1 ∨ Linked I old new := by
    intro I hcon
    have hpairs := (h.clauses I).1 ((hcor I).2 hcon)
    exact (implications_hold old new hne.symm).1 (List.pairwise_iff_forall_sublist.1 hpairs hsub)
  rw [Apart, or_iff_not_imp_left]
  rintro hd ⟨value, hag⟩
  by_cases heq : Terms.eval value new.terms = Terms.eval value old.terms
  · -- both literals are false, but the first clause wants the newer one
    have hlink := (hlinked _ (congruent_none value g.lazyatoms2lit)).resolve_left hd
    exact hlink.1 heq
  · -- the newer literal is true, and the second clause wants the older one
    have hlink := (hlinked _ (congruent_answer h value new.terms)).resolve_left hd
    have htrue := (holds_answer h value new.terms hnew).2 rfl
    exact heq ((holds_answer h value new.terms hold).1 (hlink.2 hag htrue)).symm

theorem separate_of_correct (h : Stored requests g) (hcor : Correct g) : Separate requests :=
  (separate_iff h).2 (List.pairwise_iff_forall_sublist.2 fun hsub => apart_of_correct h hcor hsub)

end Congruence

section Answer

variable [DecidableEq D] {arity : ℕ}

theorem correct_run_iff (next : ℕ) (requests : List (Terms D arity)) :
    Correct (run (start next) requests) ↔ Separate requests := by
  have hstored : Stored requests (run (start next) requests) := by
    simpa using stored_run (stored_start next) requests
  exact ⟨separate_of_correct hstored, correct_of_separate hstored⟩

end Answer

-- two variables with one value, and both literals false
theorem not_correct_variables :
    ¬ Correct (run (start 1) [(⟨[.varid 0], rfl⟩ : Terms ℤ 1), ⟨[.varid 1], rfl⟩]) := by
  intro h
  have hhold := (h ⟨fun _ => 0, fun _ => False⟩).2 (congruent_none _ _)
  have : (⟨2, [.equality (.varid 1) (.varid 0)]⟩ : Implication ℤ) ∈
      (run (start 1) [(⟨[.varid 0], rfl⟩ : Terms ℤ 1), ⟨[.varid 1], rfl⟩]).clauses := by
    simp [run, start, addLazyElement, createImplications, implications, equalities]
  exact hhold _ this (by simp [GroundTerm.eval])

end LazyElements
