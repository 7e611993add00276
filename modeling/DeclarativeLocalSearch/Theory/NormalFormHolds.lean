import DeclarativeLocalSearch.Theory.NormalFormPasses

set_option linter.unusedSectionVars false

namespace Theory

open Quantified Structure

section SplitComparisonChains

variable {S P F D : Type} [DecidableEq S] {I : Structure S P F D}
  {ok : PFSymbol S P F → List (Option D) → Prop} {V : SortedVocabulary S P F} {voc : Option (S → Bool)}

theorem applied_pair (symbol : PFSymbol S P F) (a b : Option D) :
    I.applied symbol [a, b] ↔ ∃ d e, a = some d ∧ b = some e ∧ I.atom symbol [d, e] := by
  constructor
  · rintro ⟨ds, hds, h⟩
    obtain ⟨d, tail, rfl, rfl, htail⟩ := List.map_eq_cons_iff.mp hds.symm
    obtain ⟨e, rest, rfl, rfl, hrest⟩ := List.map_eq_cons_iff.mp htail
    rw [List.map_eq_nil_iff.mp hrest] at h
    exact ⟨d, e, rfl, rfl, h⟩
  · rintro ⟨d, e, rfl, rfl, h⟩
    exact ⟨[d, e], rfl, h⟩

theorem holds_comparison (c : CompType) (sort : S) (l r : Term S P F D) (e : Variable S → D) :
    I.holds (.pred c.sign (c.symbol sort) [l, r]) e ↔ I.compare c (I.value l e) (I.value r e) := by
  have heq : ∀ d d' : D, (∃ x, [d, d'] = [x, x]) ↔ d = d' := fun d d' => by simp [eq_comm]
  have hless : ∀ (p : D → D → Prop) (d d' : D), (∃ x y, [d, d'] = [x, y] ∧ p x y) ↔ p d d' :=
    fun p d d' => by simp
  cases c <;>
    simp only [holds, values, applied_pair, CompType.sign, CompType.symbol, SIGN.apply, atom, Structure.compare,
      heq, hless]
  · constructor
    · rintro ⟨d, d', hl, hr, h⟩
      exact ⟨d, hl, h ▸ hr⟩
    · rintro ⟨d, hl, hr⟩
      exact ⟨d, d, hl, hr, rfl⟩
  · refine not_congr ⟨?_, ?_⟩
    · rintro ⟨d, d', hl, hr, h⟩
      exact ⟨d, hl, h ▸ hr⟩
    · rintro ⟨d, hl, hr⟩
      exact ⟨d, d, hl, hr, rfl⟩

variable (I ok V voc) in
-- what the comparisons of a chain have in common with it
structure Splits (conj first : Bool) (comps : List CompType) (ts : List (Term S P F D)) (n : ℕ) : Prop where
  le : n ≤ (splitComparisons V voc first comps ts n).2
  free : ∀ f ∈ (splitComparisons V voc first comps ts n).1, ∀ v ∈ f.freeVars, v ∈ termsFreeVars ts
  holds : ∀ e, eachOf conj (splitComparisons V voc first comps ts n).1 (fun f => I.holds f e) ↔
    I.chain conj comps (I.values ts e)
  safe : ∀ outer e, (∀ f ∈ (splitComparisons V voc first comps ts n).1, f.safe I ok outer e) ↔
    chainSafe I ok comps ts e

theorem Splits.nil {conj first : Bool} {comps : List CompType} {ts : List (Term S P F D)} {n : ℕ}
    (hnil : splitComparisons V voc first comps ts n = ([], n))
    (hchain : ∀ e, I.chain conj comps (I.values ts e) ↔ conj = true)
    (hsafe : ∀ e, chainSafe I ok comps ts e) : Splits I ok V voc conj first comps ts n where
  le := by rw [hnil]
  free f hf := by
    rw [hnil] at hf
    exact absurd hf List.not_mem_nil
  holds e := by
    rw [hnil, hchain]
    cases conj <;> simp [eachOf]
  safe outer e := by
    rw [hnil]
    exact iff_of_true (fun f hf => absurd hf List.not_mem_nil) (hsafe e)

theorem splitComparisons_splits (hok : ∀ (c : CompType) sort values, ok (c.symbol sort) values)
    (conj : Bool) (ts : List (Term S P F D)) (first : Bool) (comps : List CompType) (n : ℕ)
    (h : ∀ v ∈ termsFreeVars ts, v.id < n) : Splits I ok V voc conj first comps ts n := by
  induction ts generalizing first comps n with
  | nil => cases comps <;> exact Splits.nil rfl (fun _ => Iff.rfl) fun _ => trivial
  | cons l ts ih =>
    cases comps with
    | nil => exact Splits.nil rfl (fun _ => Iff.rfl) fun _ => trivial
    | cons c cs =>
      cases ts with
      | nil => exact Splits.nil rfl (fun _ => Iff.rfl) fun _ => trivial
      | cons r ts =>
        have hleft : ∃ l' m, (if first then (l, n) else l.clone id n) = (l', m) ∧ n ≤ m ∧
            (Term.polar I ok).Keeps l l' := by
          cases first with
          | false => exact ⟨_, _, rfl, cloneTerm_keeps l fun v hv => h v (List.mem_append_left _ hv)⟩
          | true => exact ⟨l, n, rfl, Nat.le_refl n, Kind.Keeps.refl l⟩
        obtain ⟨l', m, hl', hle, hkeeps⟩ := hleft
        have hrest := ih false cs m fun v hv => Nat.lt_of_lt_of_le (h v (List.mem_append_right _ hv)) hle
        have hvalue := fun e => (Prod.mk.inj (congrFun hkeeps.meaning e)).1
        have htsafe := fun e => iff_of_eq (Prod.mk.inj (congrFun hkeeps.meaning e)).2
        have hsplit : splitComparisons V voc first (c :: cs) (l :: r :: ts) n =
            (.pred c.sign (c.symbol ((comparisonSort V voc l r).getD (V.std .int))) [l', r] ::
              (splitComparisons V voc false cs (r :: ts) m).1,
              (splitComparisons V voc false cs (r :: ts) m).2) := by
          rw [splitComparisons, hl']
        refine ⟨?_, ?_, ?_, ?_⟩
        · rw [hsplit]
          exact Nat.le_trans hle hrest.le
        · rw [hsplit]
          intro f hf v hv
          rcases List.mem_cons.mp hf with rfl | hf
          · simp only [Formula.freeVars, termsFreeVars, List.append_nil, List.mem_append] at hv ⊢
            exact hv.imp (hkeeps.free v) Or.inl
          · exact List.mem_append_right _ (hrest.free f hf v hv)
        · intro e
          rw [hsplit, eachOf_cons, hrest.holds, holds_comparison, hvalue]
          cases conj <;> simp [both, chain, values]
        · intro outer e
          rw [hsplit, List.forall_mem_cons, hrest.safe]
          simp only [Formula.safe, termsSafe, and_true, htsafe]
          exact and_congr_left' ⟨fun h => h.1, fun h => ⟨h, fun _ => hok _ _ _⟩⟩

theorem splitComparisonChains_sound (hok : ∀ (c : CompType) sort values, ok (c.symbol sort) values) :
    (splitComparisonChains V voc : FormulaVisitor S P F D).Sound I ok where
  equiv _ _ _ _ _ := ⟨Nat.le_refl _, Kind.Keeps.refl _⟩
  bool _ _ _ := Kind.Keeps.refl _
  quant _ _ _ _ := Kind.Keeps.refl _
  eqChain sign conj comps ts n h := by
    have hs : Splits I ok V voc conj true comps ts n := splitComparisons_splits hok conj ts true comps n h
    obtain ⟨le, free, hholds, safe⟩ := hs
    simp only [splitComparisonChains]
    split
    · rename_i f hf
      rw [hf] at free hholds safe
      simp only [List.mem_singleton, forall_eq, eachOf_singleton] at free hholds safe
      cases sign with
      | pos =>
        refine ⟨le, free, funext fun e => polar_ext ?_ fun outer => ?_⟩
        · rw [holds, ← hholds]
          exact Iff.rfl
        · exact safe outer e
      | neg =>
        refine ⟨le, fun v hv => free v (freeVars_negate f ▸ hv), funext fun e => polar_ext ?_ fun outer => ?_⟩
        · rw [if_pos rfl, holds_negate, hholds, holds]
          exact Iff.rfl
        · rw [if_pos rfl, safe_negate, safe]
          exact Iff.rfl
    · refine ⟨le, fun v hv => ?_, funext fun e => polar_ext ?_ fun outer => ?_⟩
      · obtain ⟨f, hf, hv⟩ := mem_formulasFreeVars.mp hv
        exact free f hf v hv
      · rw [holds_bool_iff, hholds, holds]
      · exact formulasSafe_iff.trans (safe _ e)

end SplitComparisonChains

section PushNegations

variable {S Q F D : Type} [DecidableEq S]

-- the derived symbols whose negation is the derived symbol of the negated type, on a tuple of the universe
def Interpretations.mayNegate (J : Interpretations Q D) : PFSymbol S (Predicate Q) F → List (Option D) → Prop
  | .predicate (.derived p type), values =>
    (type = .ct ∨ type = .pt) ∧ ∃ ds, values = ds.map some ∧ J.univ p.parent ds
  | _, _ => True

theorem predicate_negate (J : Interpretations Q D) (p : Predicate Q) (type : SymbolType) (ds : List D) :
    J.predicate ((Predicate.derived p type).derivedSymbol type.negate) ds ↔
      J.univ p.parent ds ∧
        if type = .ct ∨ type = .pt then ¬ J.predicate (.derived p type) ds
        else J.predicate (.derived p type) ds := by
  have huniv := (J.inter_univ (.derived p type) ds).1
  simp only [Predicate.parent] at huniv
  cases type with
  | ct => exact and_comm
  | cf =>
    simp only [Interpretations.predicate, Predicate.derivedSymbol, SymbolType.negate, Interpretations.inter,
      Predicate.parent] at huniv ⊢
    simp only [reduceCtorEq, or_self, if_false]
    tauto
  | pt => exact and_comm
  | pf =>
    simp only [Interpretations.predicate, Predicate.derivedSymbol, SymbolType.negate, Interpretations.inter,
      Predicate.parent] at huniv ⊢
    simp only [reduceCtorEq, or_self, if_false]
    tauto

variable (I : DerivedStructure S Q F D)

theorem holds_pushAtom_iff (sign : SIGN) (symbol : PFSymbol S (Predicate Q) F)
    (args : List (Term S (Predicate Q) F D)) (e : Variable S → D) :
    (I.holds (pushAtom sign symbol args) e ↔ I.holds (.pred sign symbol args) e) ↔
      (sign = .neg → I.interpretations.mayNegate symbol (I.values args e)) := by
  unfold pushAtom
  split
  · rename_i p type
    have hatom : ∀ (r : Predicate Q) ds, I.atom (.predicate r) ds ↔ I.interpretations.predicate r ds :=
      fun r ds => by rw [Structure.atom, I.predicate_eq]
    simp only [forall_const, holds, SIGN.apply, Interpretations.mayNegate]
    by_cases hvalues : ∃ ds : List D, I.values args e = ds.map some
    · obtain ⟨ds, hds⟩ := hvalues
      have hinj : ∀ ds', ds.map some = ds'.map some ↔ ds' = ds := fun ds' =>
        ⟨fun h => (List.map_injective_iff.mpr (Option.some_injective D) h).symm, fun h => h ▸ rfl⟩
      have happlied : ∀ r : Predicate Q, I.applied (.predicate r) (I.values args e) ↔
          I.interpretations.predicate r ds := fun r => by
        simp only [applied, hds, hinj, exists_eq_left, hatom]
      have huniv := (I.interpretations.inter_univ (.derived p type) ds).1
      rw [happlied, happlied, predicate_negate]
      simp only [hds, hinj, exists_eq_left]
      simp only [Predicate.parent] at huniv
      by_cases htype : type = .ct ∨ type = .pt
      · simp only [htype, if_true, true_and]
        refine ⟨fun h => ?_, fun h => and_iff_right h⟩
        by_contra hn
        exact hn (h.mpr fun hp => hn (huniv hp)).1
      · simp only [htype, if_false, false_and, iff_false]
        intro h
        by_cases hp : I.interpretations.predicate (.derived p type) ds
        · exact h.mp ⟨huniv hp, hp⟩ hp
        · exact hp (h.mpr hp).2
    · have hnone : ∀ r : Predicate Q, ¬ I.applied (.predicate r) (I.values args e) := by
        rintro r ⟨ds, hds, -⟩
        exact hvalues ⟨ds, hds⟩
      refine iff_of_false (fun h => hnone _ (h.mpr (hnone _))) ?_
      rintro ⟨-, ds, hds, -⟩
      exact hvalues ⟨ds, hds⟩
  · rename_i sign' symbol' hnot
    refine iff_of_true Iff.rfl fun hsign => ?_
    unfold Interpretations.mayNegate
    split
    · rename_i p type
      exact absurd rfl (hnot p type hsign)
    · trivial

variable {I}

theorem compare_negate (c : CompType) (a b : Option D) : I.compare c.negate a b ↔ ¬ I.compare c a b := by
  cases c <;> simp only [CompType.negate, Structure.compare, not_not]

theorem chain_negate (conj : Bool) (comps : List CompType) (vs : List (Option D)) :
    I.chain (! conj) (comps.map CompType.negate) vs ↔ ¬ I.chain conj comps vs := by
  induction vs generalizing comps with
  | nil => cases comps <;> cases conj <;> simp [chain]
  | cons a vs ih =>
    cases comps with
    | nil => cases conj <;> simp [chain]
    | cons c cs =>
      cases vs with
      | nil => cases conj <;> simp [chain]
      | cons b vs =>
        have hrest := ih cs
        cases conj
        · simp only [Bool.not_false, List.map_cons, chain, if_true, Bool.false_eq_true, if_false, not_or,
            compare_negate] at hrest ⊢
          exact and_congr_right fun _ => hrest
        · simp only [Bool.not_true, List.map_cons, chain, if_true, Bool.false_eq_true, if_false, not_and_or,
            compare_negate] at hrest ⊢
          exact or_congr_right hrest

theorem eachOf_not {α : Type} {conj : Bool} {l : List α} {p : α → Prop} :
    eachOf (! conj) l (fun a => ¬ p a) ↔ ¬ eachOf conj l p := by
  cases conj <;> simp [eachOf]

theorem pushTerms_eq_map (ts : List (Term S (Predicate Q) F D)) :
    pushTerms ts = ts.map Term.pushNegations := by
  induction ts with
  | nil => rfl
  | cons t ts ih => rw [pushTerms, ih, List.map_cons]

theorem pushFormulas_eq_map (fs : List (Formula S (Predicate Q) F D)) (outer : SIGN) :
    pushFormulas fs outer = fs.map fun f => f.pushNegations outer := by
  induction fs with
  | nil => rfl
  | cons f fs ih => rw [pushFormulas, ih, List.map_cons]

section Lists

variable {ok : PFSymbol S (Predicate Q) F → List (Option D) → Prop} {e : Variable S → D}

theorem values_push {ts : List (Term S (Predicate Q) F D)}
    (h : ∀ t ∈ ts, ∀ e, t.safe I.toStructure ok e → I.value t.pushNegations e = I.value t e)
    (hsafe : termsSafe I.toStructure ok ts e) : I.values (pushTerms ts) e = I.values ts e := by
  rw [pushTerms_eq_map, values_eq_map, values_eq_map, List.map_map]
  exact List.map_congr_left fun t ht => h t ht e (termsSafe_iff.mp hsafe t ht)

theorem occurrences_push {ss : List (QuantSetExpr S (Predicate Q) F D)}
    (h : ∀ s ∈ ss, ∀ e, s.safe I.toStructure ok e →
      I.setOccurrences s.pushNegations e = I.setOccurrences s e)
    (hsafe : setsSafe I.toStructure ok ss e) : I.occurrences (pushSets ss) e = I.occurrences ss e := by
  induction ss with
  | nil => rfl
  | cons s ss ih =>
    obtain ⟨hs, hss⟩ := List.forall_mem_cons.mp h
    rw [pushSets, occurrences, occurrences, hs e hsafe.1, ih hss hsafe.2]

theorem chain_push {ts : List (Term S (Predicate Q) F D)} {conj : Bool} {comps : List CompType}
    (h : ∀ t ∈ ts, ∀ e, t.safe I.toStructure ok e → I.value t.pushNegations e = I.value t e)
    (hsafe : chainSafe I.toStructure ok comps ts e) :
    I.chain conj comps (I.values (pushTerms ts) e) ↔ I.chain conj comps (I.values ts e) := by
  induction ts generalizing comps with
  | nil => exact Iff.rfl
  | cons l ts ih =>
    cases comps with
    | nil => exact Iff.rfl
    | cons c cs =>
      cases ts with
      | nil => exact Iff.rfl
      | cons r ts =>
        obtain ⟨hl, hts⟩ := List.forall_mem_cons.mp h
        have hrest := ih hts hsafe.2
        simp only [pushTerms, values, hl e hsafe.1.1, hts r List.mem_cons_self e hsafe.1.2] at hrest ⊢
        cases conj with
        | true => exact and_congr_right' hrest
        | false => exact or_congr_right hrest

end Lists

theorem pushNegations_holds :
    (∀ (t : Term S (Predicate Q) F D) e, t.safe I.toStructure I.interpretations.mayNegate e →
      I.value t.pushNegations e = I.value t e) ∧
    (∀ (s : QuantSetExpr S (Predicate Q) F D) e, s.safe I.toStructure I.interpretations.mayNegate e →
      I.setOccurrences s.pushNegations e = I.setOccurrences s e) ∧
    ∀ (f : Formula S (Predicate Q) F D) outer e,
      f.safe I.toStructure I.interpretations.mayNegate outer e →
        (I.holds (f.pushNegations outer) e ↔ outer.apply (I.holds f e)) := by
  refine Formula.induct ?_ ?_ ?_ ?_ ?_ ?_ ?_ ?_ ?_ ?_ ?_
  · exact fun v e _ => rfl
  · intro f args ih e h
    rw [Term.pushNegations, value, value, values_push ih h]
  · exact fun s d e _ => rfl
  · intro g ss ih e h
    rw [Term.pushNegations, value, value, occurrences_push ih h]
  · intro vars c t ihc iht e h
    have hholds : ∀ a : I.Tuple vars, I.holds (c.pushNegations .pos) (I.extend e a) ↔
        I.holds c (I.extend e a) := fun a => ihc .pos _ (h a).1
    have hvalue : ∀ a : I.Tuple vars, I.value t.pushNegations (I.extend e a) = I.value t (I.extend e a) :=
      fun a => iht _ (h a).2
    simp only [QuantSetExpr.pushNegations, setOccurrences, hholds, hvalue]
  · intro sign symbol args ih outer e h
    have hvalues := values_push ih h.1
    rw [Formula.pushNegations, (holds_pushAtom_iff I _ symbol _ e).mpr (hvalues ▸ h.2), holds, holds, hvalues,
      SIGN.apply_under]
  · intro sign conj comps ts ih outer e h
    rw [Formula.pushNegations, holds, ← SIGN.apply_under]
    cases outer.under sign with
    | pos =>
      rw [holds]
      exact chain_push ih h
    | neg =>
      rw [holds]
      exact (chain_negate conj comps _).trans (not_congr (chain_push ih h))
  · intro sign l r ihl ihr outer e h
    have hr : r.safe I.toStructure I.interpretations.mayNegate (outer.under sign) e := by
      cases outer.under sign
      · exact h.2.1
      · exact h.2.2
    rw [Formula.pushNegations, holds, holds, ihl .pos e h.1.1, ihr _ e hr, ← SIGN.apply_under]
    cases outer.under sign with
    | pos => exact Iff.rfl
    | neg =>
      simp only [SIGN.apply]
      tauto
  · intro sign conj fs ih outer e h
    have hfs : ∀ f ∈ fs, (I.holds (f.pushNegations (outer.under sign)) e ↔
        (outer.under sign).apply (I.holds f e)) := fun f hf => ih f hf _ e (formulasSafe_iff.mp h f hf)
    rw [Formula.pushNegations, pushFormulas_eq_map, holds_bool_pos, eachOf_map, eachOf_congr hfs,
      holds_bool_iff, ← SIGN.apply_under]
    cases outer.under sign with
    | pos => exact Iff.rfl
    | neg => exact eachOf_not
  · intro sign q vars f ih outer e h
    have hf : ∀ a : I.Tuple vars, I.holds (f.pushNegations (outer.under sign)) (I.extend e a) ↔
        (outer.under sign).apply (I.holds f (I.extend e a)) := fun a => ih _ _ (h a)
    have hquant : I.holds (.quant sign q vars f) e ↔
        sign.apply (each q.isUniv fun a : I.Tuple vars => I.holds f (I.extend e a)) := by
      cases q <;> exact Iff.rfl
    rw [Formula.pushNegations, holds_quant_pos, each_congr hf, hquant, ← SIGN.apply_under]
    cases outer.under sign with
    | pos => exact Iff.rfl
    | neg =>
      cases q with
      | univ => exact not_forall.symm
      | exist => exact not_exists.symm
  · intro sign b comp g ss ihb ih outer e h
    rw [Formula.pushNegations, holds, holds, ihb e h.1, occurrences_push ih h.2, SIGN.apply_under]

end PushNegations

end Theory
