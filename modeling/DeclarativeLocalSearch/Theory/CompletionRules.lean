import DeclarativeLocalSearch.Theory.CompletionHolds

set_option linter.unusedSectionVars false

namespace Theory

open Quantified Structure

variable {S P F D : Type} [DecidableEq S] {I : Structure S P F D}

section Clones

variable {ρ : Variable S → Variable S} {n : ℕ}

theorem holds_clone {f : Formula S P F D} (h : ∀ v ∈ f.freeVars, (ρ v).id < n) (e : Variable S → D) :
    I.holds (f.clone ρ n).1 e ↔ I.holds f fun v => e (ρ v) :=
  iff_of_eq (Prod.mk.inj ((@clones S P F D _ I fun _ _ => True).2.2 f ρ n |>.meaning h e)).1

theorem clones_terms (I : Structure S P F D) (ts : List (Term S P F D)) (ρ : Variable S → Variable S) (n : ℕ) :
    (Term.polar I fun _ _ => True).list.Clones ρ n ts (cloneTerms ts ρ n).2 (cloneTerms ts ρ n).1 :=
  clones_list Term.clone cloneTerms (fun _ _ => rfl) (fun _ _ _ _ => rfl) (fun t _ => clones.1 t) ρ n

theorem values_clone {ts : List (Term S P F D)} (h : ∀ v ∈ termsFreeVars ts, (ρ v).id < n)
    (e : Variable S → D) : I.values (cloneTerms ts ρ n).1 e = I.values ts fun v => e (ρ v) := by
  refine (values_of_polar ((clones_terms I ts ρ n).meaning (fun v hv => h v ?_) e)).1
  rwa [termsFreeVars_eq_flatMap]

theorem le_clone (I : Structure S P F D) (f : Formula S P F D) (ρ : Variable S → Variable S) (n : ℕ) :
    n ≤ (f.clone ρ n).2 := ((@clones S P F D _ I fun _ _ => True).2.2 f ρ n).le

end Clones

theorem applied_map_some (symbol : PFSymbol S P F) (ds : List D) :
    I.applied symbol (ds.map some) ↔ I.atom symbol ds := by
  constructor
  · rintro ⟨ds', hds, h⟩
    rwa [List.map_injective_iff.mpr (Option.some_injective D) hds]
  · exact fun h => ⟨ds, rfl, h⟩

theorem values_vars (vs : List (Variable S)) (e : Variable S → D) :
    I.values (vs.map .var) e = (vs.map e).map some := by
  rw [values_eq_map, List.map_map, List.map_map]
  rfl

namespace ReplaceDefinitionsWithCompletion

theorem holds_quantified (q : QUANT) (vars : List (Variable S)) (f : Formula S P F D) (e : Variable S → D) :
    I.holds (quantified q vars f) e ↔ each q.isUniv fun a : I.Tuple vars => I.holds f (I.extend e a) := by
  unfold quantified
  split_ifs with hnil
  · subst hnil
    have hextend : ∀ a : I.Tuple ([] : List (Variable S)), I.extend e a = e := fun a => extend_nil e a
    simp only [hextend]
    cases q with
    | univ => exact ⟨fun h _ => h, fun h => h (emptyTuple I)⟩
    | exist => exact ⟨fun h => ⟨emptyTuple I, h⟩, fun ⟨_, h⟩ => h⟩
  · rw [holds_quant_pos]

variable (V : SortedVocabulary S P F)

-- the variables of a rule are quantified, and there are as many terms in its head as the symbol has arguments
structure RuleFits (arity : PFSymbol S P F → ℕ) (r : Rule S P F D) : Prop where
  closed : ∀ v ∈ termsFreeVars r.args ++ r.body.freeVars, v ∈ r.quantVars
  length : r.args.length = arity r.head

section UnnestedRule

variable {V} {arity : PFSymbol S P F → ℕ} {r : Rule S P F D} {n : ℕ} {e : Variable S → D}

theorem visitRuleHead_body (r : Rule S P F D) (n : ℕ) (e : Variable S → D) :
    I.holds (visitRuleHead V r n).body e ↔
      (∀ f ∈ equalities V (moveHeadTerms V r.head 0 r.args n), I.holds f e) ∧ I.holds r.body e := by
  rw [visitRuleHead]
  dsimp only
  split_ifs with hnil htrue
  · rw [hnil]
    exact (and_iff_right fun f hf => absurd hf List.not_mem_nil).symm
  · rw [holds_bool_pos, List.append_nil, and_iff_left (Simplify.holds_of_isTrue htrue e)]
    exact Iff.rfl
  · rw [holds_bool_pos]
    refine Iff.trans List.forall_mem_append (and_congr_right fun _ => ?_)
    simp

theorem visitRuleHead_args (r : Rule S P F D) (n : ℕ) : (visitRuleHead V r n).args =
    ((moveHeadTerms V r.head 0 r.args n).map Prod.fst).map .var := by
  rw [visitRuleHead, List.map_map]
  rfl

variable (hfits : RuleFits arity r) (hbelow : ∀ v ∈ r.quantVars, v.id < n)

include hfits in
theorem mem_quantVars_of_args {v : Variable S} (hv : v ∈ termsFreeVars r.args) : v ∈ r.quantVars :=
  hfits.closed v (List.mem_append_left _ hv)

include hfits in
theorem mem_quantVars_of_var {v : Variable S} (hv : .var v ∈ r.args) : v ∈ r.quantVars :=
  mem_quantVars_of_args hfits (mem_termsFreeVars.mpr ⟨_, hv, List.mem_singleton_self v⟩)

theorem mem_args_visitRuleHead {v : Variable S} : v ∈ termsFreeVars (visitRuleHead V r n).args ↔
    .var v ∈ r.args ∨ v ∈ movedVars (moveHeadTerms V r.head 0 r.args n) := by
  rw [visitRuleHead_args, mem_termsFreeVars, ← mem_heads V]
  simp [Term.freeVars]

include hfits in
theorem closed_visitRuleHead {v : Variable S}
    (hv : v ∈ termsFreeVars (visitRuleHead V r n).args ++ (visitRuleHead V r n).body.freeVars) :
    v ∈ (visitRuleHead V r n).quantVars := by
  have hargs : ∀ v ∈ termsFreeVars (visitRuleHead V r n).args, v ∈ (visitRuleHead V r n).quantVars := by
    intro v hv
    rcases mem_args_visitRuleHead.mp hv with hv | hv
    · exact List.mem_append_left _ (mem_quantVars_of_var hfits hv)
    · exact List.mem_append_right _ hv
  have hequalities : ∀ f ∈ equalities V (moveHeadTerms V r.head 0 r.args n), ∀ v ∈ f.freeVars,
      v ∈ (visitRuleHead V r n).quantVars := by
    intro f hf v hv
    obtain ⟨w, hw, t, ht, s, rfl⟩ := mem_equalities V hf
    simp only [Formula.freeVars, termsFreeVars, Term.freeVars, List.append_nil, List.mem_append,
      List.mem_singleton] at hv
    rcases hv with rfl | hv
    · exact List.mem_append_right _ hw
    · exact List.mem_append_left _ (mem_quantVars_of_args hfits (mem_termsFreeVars.mpr ⟨t, ht, hv⟩))
  have hbody : ∀ v ∈ r.body.freeVars, v ∈ (visitRuleHead V r n).quantVars := fun v hv =>
    List.mem_append_left _ (hfits.closed v (List.mem_append_right _ hv))
  rcases List.mem_append.mp hv with hv | hv
  · exact hargs v hv
  · rw [visitRuleHead] at hv
    dsimp only at hv
    split_ifs at hv with hnil htrue
    · exact hbody v hv
    · obtain ⟨f, hf, hv⟩ := mem_formulasFreeVars.mp hv
      rw [List.append_nil] at hf
      exact hequalities f hf v hv
    · obtain ⟨f, hf, hv⟩ := mem_formulasFreeVars.mp hv
      rcases List.mem_append.mp hf with hf | hf
      · exact hequalities f hf v hv
      · exact hbody v (List.mem_singleton.mp hf ▸ hv)

theorem visitRuleHead_derives (Q : List D → Prop)
    (hfits : RuleFits arity r) (hbelow : ∀ v ∈ r.quantVars, v.id < n) :
    (∀ e, Sorted I (visitRuleHead V r n).quantVars e → I.holds (visitRuleHead V r n).body e →
      ∀ ds, I.values (visitRuleHead V r n).args e = ds.map some → Q ds) ↔
    ∀ e, Sorted I r.quantVars e → I.holds r.body e → ∀ ds, I.values r.args e = ds.map some →
      movedSorted V I r.head 0 r.args ds → Q ds := by
  have hheads : ∀ e, I.values (visitRuleHead V r n).args e =
      ((moveHeadTerms V r.head 0 r.args n).map fun x => e x.1).map some := fun e => by
    rw [visitRuleHead_args, values_vars]
    simp only [List.map_map, Function.comp_def]
  have hargs : ∀ v ∈ termsFreeVars r.args, v.id < n := fun v hv => hbelow v (mem_quantVars_of_args hfits hv)
  constructor
  · intro h e hsorted hbody ds hds hmoved
    -- the moved variables take the values of the terms
    have hmap := @map_moveValues S P F D _ I V r.head _ 0 _ _ _ hargs hds
    have hsame : ∀ v ∈ r.quantVars, moveValues (moveHeadTerms V r.head 0 r.args n) ds e v = e v := fun v hv =>
      moveValues_of_not_mem fun hmem => absurd (mem_movedVars V hmem).1 (Nat.not_le.mpr (hbelow v hv))
    have hvalues : I.values r.args (moveValues (moveHeadTerms V r.head 0 r.args n) ds e) = I.values r.args e :=
      values_congr_free fun v hv => hsame v (mem_quantVars_of_args hfits hv)
    refine h (moveValues (moveHeadTerms V r.head 0 r.args n) ds e) ?_ ?_ ds ?_
    · refine sorted_append.mpr ⟨fun v hv => hsame v hv ▸ hsorted v hv, ?_⟩
      rwa [← movedSorted_iff V 0 n r.args, hmap]
    · refine (visitRuleHead_body r n _).mpr ⟨(equalities_iff V 0 r.args n).mpr ?_, ?_⟩
      · rw [hmap, hvalues, hds]
      · exact (holds_congr_free fun v hv => hsame v (hfits.closed v (List.mem_append_right _ hv))).mpr hbody
    · rw [hheads, hmap]
  · intro h e hsorted hbody ds hds
    obtain ⟨hequalities, hbody⟩ := (visitRuleHead_body r n e).mp hbody
    obtain ⟨hquant, hmoved⟩ := sorted_append.mp hsorted
    have hvalues := (equalities_iff V 0 r.args n).mp hequalities
    have heads : ((moveHeadTerms V r.head 0 r.args n).map fun x => e x.1) = ds :=
      List.map_injective_iff.mpr (Option.some_injective D) ((hheads e).symm.trans hds)
    rw [heads] at hvalues
    refine h e hquant hbody ds hvalues ?_
    rw [← heads]
    exact (movedSorted_iff V 0 n r.args).mpr hmoved

end UnnestedRule

section Sentences

variable {V} {arity : PFSymbol S P F → ℕ} {rule : Rule S P F D} {n : ℕ} {e : Variable S → D}

def headVars (r : Rule S P F D) : List (Variable S) := r.quantVars.filter (· ∈ termsFreeVars r.args)

def bodyVars (r : Rule S P F D) : List (Variable S) := r.quantVars.filter (· ∉ termsFreeVars r.args)

theorem mem_headVars {r : Rule S P F D} {v : Variable S} :
    v ∈ headVars r ↔ v ∈ r.quantVars ∧ v ∈ termsFreeVars r.args := by simp [headVars]

theorem mem_bodyVars {r : Rule S P F D} {v : Variable S} :
    v ∈ bodyVars r ↔ v ∈ r.quantVars ∧ v ∉ termsFreeVars r.args := by simp [bodyVars]

theorem mem_freeVars_quantified {q : QUANT} {vars : List (Variable S)} {f : Formula S P F D} {v : Variable S} :
    v ∈ (quantified q vars f).freeVars ↔ v ∈ f.freeVars ∧ v ∉ vars := by
  unfold quantified
  split_ifs with hnil
  · simp [hnil]
  · exact mem_freeVars_quant

theorem mem_headVars_of_body {r : Rule S P F D}
    (hclosed : ∀ v ∈ termsFreeVars r.args ++ r.body.freeVars, v ∈ r.quantVars) {v : Variable S}
    (hv : v ∈ (quantified .exist (bodyVars r) r.body).freeVars) : v ∈ headVars r := by
  obtain ⟨hv, hnot⟩ := mem_freeVars_quantified.mp hv
  have hquant := hclosed v (List.mem_append_right _ hv)
  by_contra hhead
  exact hnot (mem_bodyVars.mpr ⟨hquant, fun hargs => hhead (mem_headVars.mpr ⟨hquant, hargs⟩)⟩)

theorem exists_body_iff {r : Rule S P F D}
    (hclosed : ∀ v ∈ termsFreeVars r.args ++ r.body.freeVars, v ∈ r.quantVars) {Q : List (Option D) → Prop}
    (e : Variable S → D) :
    (∃ a : I.Tuple (headVars r), I.holds (quantified .exist (bodyVars r) r.body) (I.extend e a) ∧
      Q (I.values r.args (I.extend e a))) ↔
      ∃ e', Sorted I r.quantVars e' ∧ I.holds r.body e' ∧ Q (I.values r.args e') := by
  have hsplit : ∀ v ∈ r.quantVars, v ∈ headVars r ∨ v ∈ bodyVars r := fun v hv => by
    rw [mem_headVars, mem_bodyVars]
    tauto
  have hargs : ∀ {e e' : Variable S → D}, (∀ v ∈ headVars r, e v = e' v) → I.values r.args e = I.values r.args e' :=
    fun h => values_congr_free fun v hv =>
      h v (mem_headVars.mpr ⟨hclosed v (List.mem_append_left _ hv), hv⟩)
  constructor
  · rintro ⟨a, hbody, hQ⟩
    obtain ⟨b, hb⟩ := (holds_quantified .exist _ _ _).mp hbody
    have hhead : ∀ v ∈ headVars r, I.extend (I.extend e a) b v = I.extend e a v := fun v hv =>
      extend_of_not_mem (fun hmem => (mem_bodyVars.mp hmem).2 (mem_headVars.mp hv).2) _ _
    refine ⟨_, fun v hv => ?_, hb, hargs hhead ▸ hQ⟩
    rcases hsplit v hv with hv | hv
    · rw [hhead v hv]
      exact sorted_extend e a v hv
    · exact sorted_extend _ b v hv
  · rintro ⟨e', hsorted, hbody, hQ⟩
    have hsortedHead : Sorted I (headVars r) e' := fun v hv => hsorted v (mem_headVars.mp hv).1
    have hsortedBody : Sorted I (bodyVars r) e' := fun v hv => hsorted v (mem_bodyVars.mp hv).1
    have hhead : ∀ v ∈ headVars r, I.extend e (restricted hsortedHead) v = e' v := fun v hv =>
      extend_restricted hsortedHead hv
    refine ⟨restricted hsortedHead, (holds_quantified .exist _ _ _).mpr ⟨restricted hsortedBody, ?_⟩,
      (hargs hhead).symm ▸ hQ⟩
    refine (holds_congr_free fun v hv => ?_).mpr hbody
    rcases hsplit v (hclosed v (List.mem_append_right _ hv)) with hv | hv
    · rw [extend_of_not_mem fun hmem => (mem_bodyVars.mp hmem).2 (mem_headVars.mp hv).2]
      exact hhead v hv
    · exact extend_restricted hsortedBody hv

theorem implies_iff {u : Rule S P F D} {m : ℕ}
    (hclosed : ∀ v ∈ termsFreeVars u.args ++ u.body.freeVars, v ∈ u.quantVars) (e : Variable S → D) :
    let body := quantified .exist (bodyVars u) u.body
    let left := body.clone (renewed m (headVars u) id) (m + firstFree (headVars u))
    let right := cloneTerms u.args (renewed m (headVars u) id) left.2
    I.holds (quantified .univ ((headVars u).map (fresh m))
        (.bool .pos false [left.1.negate, .pred .pos u.head right.1])) e ↔
      ∀ e', Sorted I u.quantVars e' → I.holds u.body e' → I.applied u.head (I.values u.args e') := by
  intro body left right
  have hfresh : ∀ v ∈ headVars u, (renewed m (headVars u) id v).id < m + firstFree (headVars u) := fun v hv => by
    rw [renewed, if_pos hv]
    exact Nat.add_lt_add_left (lt_firstFree hv) m
  have hargs : ∀ v ∈ termsFreeVars u.args, v ∈ headVars u := fun v hv =>
    mem_headVars.mpr ⟨hclosed v (List.mem_append_left _ hv), hv⟩
  have hbody : ∀ v ∈ body.freeVars, v ∈ headVars u := fun v hv => mem_headVars_of_body hclosed hv
  have hrenew : ∀ (a : I.Tuple (headVars u)) {v : Variable S}, v ∈ headVars u →
      I.extend e (renew I m (headVars u) a) (renewed m (headVars u) id v) = I.extend e a v := fun a v hv =>
    extend_renew (ρ := id) a fun hnot => absurd hv hnot
  have heach : I.holds (quantified .univ ((headVars u).map (fresh m))
        (.bool .pos false [left.1.negate, .pred .pos u.head right.1])) e ↔
      ∀ a : I.Tuple (headVars u), I.holds body (I.extend e a) →
        I.applied u.head (I.values u.args (I.extend e a)) := by
    rw [holds_quantified]
    refine (renew I m (headVars u)).surjective.forall.trans (forall_congr' fun a => ?_)
    rw [holds_bool_iff]
    simp only [SIGN.apply, eachOf, Bool.false_eq_true, if_false, List.mem_cons, List.not_mem_nil, or_false,
      exists_eq_or_imp, exists_eq_left, holds_negate, holds, left, right]
    rw [holds_clone fun v hv => hfresh v (hbody v hv), values_clone fun v hv =>
        Nat.lt_of_lt_of_le (hfresh v (hargs v hv)) (le_clone I _ _ _),
      holds_congr_free fun v hv => hrenew a (hbody v hv), values_congr_free fun v hv => hrenew a (hargs v hv)]
    exact imp_iff_not_or.symm
  rw [heach]
  have hexists := exists_body_iff hclosed (I := I) (Q := fun values => ¬ I.applied u.head values) e
  constructor
  · intro h e' hsorted hb
    by_contra hnot
    obtain ⟨a, ha, hn⟩ := hexists.mpr ⟨e', hsorted, hb, hnot⟩
    exact hn (h a ha)
  · intro h a ha
    by_contra hnot
    obtain ⟨e', hsorted, hb, hn⟩ := hexists.mp ⟨a, ha, hnot⟩
    exact hn (h e' hsorted hb)

theorem old2newheadvars_mem {ts : List (Term S P F D)} {hs : List (Variable S)} {vs : List (Variable S)}
    (hts : ts = vs.map .var) (hlength : vs.length = hs.length) {v : Variable S} (hv : v ∈ vs) :
    old2newheadvars ts hs v ∈ hs := by
  induction vs generalizing ts hs with
  | nil => exact absurd hv List.not_mem_nil
  | cons w vs ih =>
    cases hs with
    | nil => exact absurd hlength nofun
    | cons h hs =>
      subst hts
      rw [List.map_cons, old2newheadvars]
      split_ifs with hlater hw
      · refine List.mem_cons_of_mem h (ih rfl (Nat.succ.inj hlength) ?_)
        obtain ⟨t, ht, hv⟩ := mem_termsFreeVars.mp hlater
        obtain ⟨w', hw', rfl⟩ := List.mem_map.mp ht
        exact List.mem_singleton.mp hv ▸ hw'
      · exact List.mem_cons_self
      · refine absurd (mem_termsFreeVars.mpr ⟨.var v, List.mem_map_of_mem ?_, List.mem_singleton_self v⟩) hlater
        exact (List.mem_cons.mp hv).resolve_left hw

-- the values that make the body true when the head variables are bound at their last positions
def looselyDerives (I : Structure S P F D) (r : Rule S P F D) (ds : List D) : Prop :=
  ∃ e, (∀ v ∈ r.quantVars, .var v ∉ r.args → I.sort v.sort (e v)) ∧ looselyMatches I e r.args ds ∧ I.holds r.body e

theorem newbody_iff {r : Rule S P F D} {headvars : List (Variable S)} {m : ℕ} (hfits : RuleFits arity r)
    (hbelow : ∀ v ∈ r.quantVars, v.id < n) (hlength : headvars.length = arity r.head)
    (hm : ∀ w ∈ headvars, w.id < m) (e : Variable S → D) :
    I.holds ((quantified .exist (bodyVars (visitRuleHead V r n)) (visitRuleHead V r n).body).clone
        (old2newheadvars (visitRuleHead V r n).args headvars) m).1 e ↔
      looselyDerives I r (headvars.map e) := by
  have hclosed := fun v => closed_visitRuleHead (V := V) (n := n) hfits (v := v)
  have hargs := visitRuleHead_args (V := V) r n
  have hvars : ∀ v ∈ termsFreeVars r.args, v.id < n := fun v hv => hbelow v (mem_quantVars_of_args hfits hv)
  have hlength' : ((moveHeadTerms V r.head 0 r.args n).map Prod.fst).length = headvars.length := by
    rw [List.length_map, length_moveHeadTerms, hlength, hfits.length]
  have hmem : ∀ v, v ∈ termsFreeVars (visitRuleHead V r n).args ↔
      v ∈ (moveHeadTerms V r.head 0 r.args n).map Prod.fst := fun v => by
    rw [mem_args_visitRuleHead, mem_heads V]
  have hbodyVars : ∀ v, v ∈ bodyVars (visitRuleHead V r n) ↔ v ∈ r.quantVars ∧ .var v ∉ r.args := by
    intro v
    rw [mem_bodyVars, mem_args_visitRuleHead, visitRuleHead, List.mem_append, not_or]
    constructor
    · exact fun h => ⟨h.1.resolve_right h.2.2, h.2.1⟩
    · exact fun h => ⟨Or.inl h.1, h.2, fun hmoved =>
        absurd (mem_movedVars V hmoved).1 (Nat.not_le.mpr (hbelow v h.1))⟩
  rw [holds_clone fun v hv => hm _ (old2newheadvars_mem hargs hlength'
    ((hmem v).mp (mem_headVars.mp (mem_headVars_of_body hclosed hv)).2)), holds_quantified]
  have hmatches : looselyMatches I
      (fun v => e (old2newheadvars (visitRuleHead V r n).args headvars v)) (visitRuleHead V r n).args
      (headvars.map e) := by
    rw [hargs]
    exact old2newheadvars_matches hlength' e fun v _ => rfl
  obtain ⟨e₀, he₀⟩ : ∃ e₀, e₀ = fun v => e (old2newheadvars (visitRuleHead V r n).args headvars v) := ⟨_, rfl⟩
  rw [← he₀] at hmatches ⊢
  have hheads : (visitRuleHead V r n).args =
      (moveHeadTerms V r.head 0 r.args n).map fun x => .var x.1 := rfl
  -- the variables of the body do not change the head
  have hextend : ∀ (b : I.Tuple (bodyVars (visitRuleHead V r n))) v,
      v ∈ termsFreeVars (visitRuleHead V r n).args → I.extend e₀ b v = e₀ v := fun b v hv =>
    extend_of_not_mem (fun hbody => (mem_bodyVars.mp hbody).2 hv) _ b
  have hmatches' : ∀ b : I.Tuple (bodyVars (visitRuleHead V r n)),
      looselyMatches I (I.extend e₀ b) (visitRuleHead V r n).args (headvars.map e) := fun b =>
    (looselyMatches_congr fun t ht => agree.1 t _ _ fun v hv =>
      hextend b v (mem_termsFreeVars.mpr ⟨t, ht, hv⟩)).mpr hmatches
  constructor
  · rintro ⟨b, hb⟩
    obtain ⟨hequalities, hbody⟩ := (visitRuleHead_body r n _).mp hb
    refine ⟨I.extend e₀ b, fun v hv hvar => sorted_extend e₀ b v ((hbodyVars v).mpr ⟨hv, hvar⟩), ?_, hbody⟩
    exact matches_of_heads V hvars (hheads ▸ hmatches' b) hequalities
  · rintro ⟨e', hsorted, hmatch, hbody⟩
    have hsorted' : Sorted I (bodyVars (visitRuleHead V r n)) e' := fun v hv =>
      hsorted v ((hbodyVars v).mp hv).1 ((hbodyVars v).mp hv).2
    have hsame : ∀ v ∈ r.quantVars, I.extend e₀ (restricted hsorted') v = e' v := by
      intro v hv
      by_cases hvar : .var v ∈ r.args
      · rw [extend_of_not_mem fun hmem => ((hbodyVars v).mp hmem).2 hvar]
        exact agree_of_matches V hvars (hheads ▸ hmatches) hmatch hvar
      · exact extend_restricted hsorted' ((hbodyVars v).mpr ⟨hv, hvar⟩)
    refine ⟨restricted hsorted', (visitRuleHead_body r n _).mpr ⟨?_, ?_⟩⟩
    · refine equalities_of_matches V hvars (hheads ▸ hmatches' _) hmatch fun t ht => agree.1 t _ _ fun v hv => ?_
      exact hsame v (mem_quantVars_of_args hfits (mem_termsFreeVars.mpr ⟨t, ht, hv⟩))
    · exact (holds_congr_free fun v hv => hsame v (hfits.closed v (List.mem_append_right _ hv))).mpr hbody

end Sentences

end ReplaceDefinitionsWithCompletion

end Theory
