import DeclarativeLocalSearch.Theory.CompletionRules

set_option linter.unusedSectionVars false

namespace Theory

open Quantified Structure

variable {S P F D : Type} [DecidableEq S] {I : Structure S P F D} {V : SortedVocabulary S P F}
  {arity : PFSymbol S P F → ℕ}

namespace ReplaceDefinitionsWithCompletion

section Headvars

variable {symbol : PFSymbol S P F} {n : ℕ}

theorem length_newVars : (newVars V arity symbol n).length = arity symbol := by
  rw [newVars, List.length_map, List.length_range]

theorem getElem?_newVars (i : ℕ) : (newVars V arity symbol n)[i]? =
    if i < arity symbol then some ⟨n + i, V.sort symbol i⟩ else none := by
  rw [newVars, List.getElem?_map]
  split_ifs with hi
  · rw [List.getElem?_range hi, Option.map_some]
  · rw [List.getElem?_eq_none (by rw [List.length_range]; omega), Option.map_none]

theorem mem_newVars {v : Variable S} (h : v ∈ newVars V arity symbol n) :
    ∃ i < arity symbol, v = ⟨n + i, V.sort symbol i⟩ := by
  obtain ⟨i, hi, rfl⟩ := List.mem_map.mp h
  exact ⟨i, List.mem_range.mp hi, rfl⟩

theorem forall_newVars_iff (Q : List D → Prop) (e : Variable S → D) :
    (∀ a : I.Tuple (newVars V arity symbol n), Q ((newVars V arity symbol n).map (I.extend e a))) ↔
      ∀ ds, inUniverse V arity I symbol ds → Q ds := by
  constructor
  · rintro h ds ⟨hlength, hsorts⟩
    have hget : ∀ i, i < arity symbol → ∃ d, ds[i]? = some d := fun i hi =>
      ⟨ds[i], List.getElem?_eq_getElem (hlength ▸ hi)⟩
    have hsorted : Sorted I (newVars V arity symbol n) fun v => (ds[v.id - n]?).getD (e v) := by
      intro v hv
      obtain ⟨i, hi, rfl⟩ := mem_newVars hv
      obtain ⟨d, hd⟩ := hget i hi
      simpa only [Nat.add_sub_cancel_left, hd, Option.getD_some] using hsorts i d hd
    have hvalues : (newVars V arity symbol n).map (I.extend e (restricted hsorted)) = ds := by
      refine List.ext_getElem? fun i => ?_
      rw [List.getElem?_map, getElem?_newVars]
      split_ifs with hi
      · obtain ⟨d, hd⟩ := hget i hi
        have hmem : (⟨n + i, V.sort symbol i⟩ : Variable S) ∈ newVars V arity symbol n :=
          List.mem_map_of_mem (List.mem_range.mpr hi)
        rw [Option.map_some, extend_restricted hsorted hmem, hd]
        simp only [Nat.add_sub_cancel_left, hd, Option.getD_some]
      · rw [Option.map_none, List.getElem?_eq_none (by omega)]
    exact hvalues ▸ h (restricted hsorted)
  · intro h a
    refine h _ ⟨by rw [List.length_map, length_newVars], fun i d hd => ?_⟩
    rw [List.getElem?_map, getElem?_newVars] at hd
    split_ifs at hd with hi
    · have hmem : (⟨n + i, V.sort symbol i⟩ : Variable S) ∈ newVars V arity symbol n :=
        List.mem_map_of_mem (List.mem_range.mpr hi)
      obtain rfl := Option.some.inj hd
      exact sorted_extend e a _ hmem
    · exact absurd hd nofun

variable [DecidableEq P] [DecidableEq F]

theorem headvars_eq (symbols : List (PFSymbol S P F)) (n : ℕ) (h : symbol ∈ symbols) :
    ∃ m, headvars V arity symbols n symbol = newVars V arity symbol m ∧
      m + arity symbol ≤ headvarsEnd arity symbols n := by
  induction symbols generalizing n with
  | nil => exact absurd h List.not_mem_nil
  | cons s symbols ih =>
    rw [headvars, headvarsEnd, List.map_cons, List.sum_cons]
    split_ifs with hs
    · subst hs
      exact ⟨n, rfl, by omega⟩
    · obtain ⟨m, hm, hle⟩ := ih (n + arity s) ((List.mem_cons.mp h).resolve_left hs)
      exact ⟨m, hm, by rw [headvarsEnd] at hle; omega⟩

end Headvars

theorem holds_headSentence (symbol : PFSymbol S P F) (vars : List (Variable S)) (bodies : List (Formula S P F D))
    (e : Variable S → D) : I.holds (headSentence symbol vars bodies) e ↔
      ∀ a : I.Tuple vars, I.atom symbol (vars.map (I.extend e a)) →
        ∃ f ∈ bodies, I.holds f (I.extend e a) := by
  obtain ⟨body, hdef, hbody⟩ : ∃ body : Formula S P F D,
      headSentence symbol vars bodies =
        quantified .univ vars (.bool .pos false [.pred .neg symbol (vars.map .var), body]) ∧
      ∀ e, I.holds body e ↔ ∃ f ∈ bodies, I.holds f e := by
    unfold headSentence
    split
    · exact ⟨_, rfl, fun e => by simp⟩
    · exact ⟨_, rfl, fun e => by rw [holds_bool_pos]; rfl⟩
  rw [hdef, holds_quantified]
  refine forall_congr' fun a => ?_
  rw [holds_bool_pos, ← hbody, ← applied_map_some, ← values_vars]
  simp only [eachOf, Bool.false_eq_true, if_false, List.mem_cons, List.not_mem_nil, or_false, exists_eq_or_imp,
    exists_eq_left, holds.eq_1, SIGN.apply]
  exact imp_iff_not_or.symm

section Definition

variable [DecidableEq P] [DecidableEq F] {rules : List (Rule S P F D)} {n : ℕ} {e : Variable S → D}

theorem le_visitRule (I : Structure S P F D) (headvars : List (Variable S)) (rule : Rule S P F D) (n : ℕ) :
    n ≤ (visitRule V headvars rule n).2 := by
  rw [visitRule]
  dsimp only
  refine Nat.le_trans ?_ (le_clone I _ _ _)
  refine Nat.le_trans ?_ (clones_terms I _ _ _).le
  exact Nat.le_trans (by omega) (le_clone I _ _ _)

theorem visitRule_body_head {headvars : List (Variable S)} {rule : Rule S P F D} {n : ℕ}
    (hfits : RuleFits arity rule.graphed) (hbelow : ∀ v ∈ rule.graphed.quantVars, v.id < n) (e : Variable S → D) :
    I.holds (visitRule V headvars rule n).1.1 e ↔ ∀ e, Sorted I rule.graphed.quantVars e →
      I.holds rule.graphed.body e → ∀ ds, I.values rule.graphed.args e = ds.map some →
        movedSorted V I rule.graphed.head 0 rule.graphed.args ds → I.atom rule.graphed.head ds := by
  have hclosed := fun v => closed_visitRuleHead (V := V) (n := n) hfits (v := v)
  rw [← visitRuleHead_derives (I.atom rule.graphed.head) hfits hbelow]
  refine (implies_iff hclosed e).trans (forall₃_congr fun e _ _ => ?_)
  rw [visitRuleHead_args, values_vars, applied_map_some]
  refine ⟨fun h ds hds => ?_, fun h => h _ rfl⟩
  rwa [← List.map_injective_iff.mpr (Option.some_injective D) hds]

theorem visitRule_head_body {headvars : List (Variable S)} {rule : Rule S P F D} {n : ℕ}
    (hfits : RuleFits arity rule.graphed) (hbelow : ∀ v ∈ rule.graphed.quantVars, v.id < n)
    (hlength : headvars.length = arity rule.graphed.head) (hvars : ∀ w ∈ headvars, w.id < n) (e : Variable S → D) :
    I.holds (visitRule V headvars rule n).1.2 e ↔ looselyDerives I rule.graphed (headvars.map e) := by
  refine newbody_iff hfits hbelow hlength (fun w hw => ?_) e
  refine Nat.lt_of_lt_of_le (hvars w hw) (Nat.le_trans ?_ (clones_terms I _ _ _).le)
  exact Nat.le_trans (by omega) (le_clone I _ _ _)

theorem visitRules_forall₂ (I : Structure S P F D) (vars : PFSymbol S P F → List (Variable S))
    (rules : List (Rule S P F D)) (n : ℕ) :
    List.Forall₂ (fun r x => ∃ m, n ≤ m ∧ x = (r.graphed.head, (visitRule V (vars r.graphed.head) r m).1))
      rules (visitRules V vars rules n).1 := by
  induction rules generalizing n with
  | nil => exact List.Forall₂.nil
  | cons r rules ih =>
    refine List.Forall₂.cons ⟨n, Nat.le_refl n, rfl⟩ ((ih _).imp fun r' x hx => ?_)
    obtain ⟨m, hm, hx⟩ := hx
    exact ⟨m, Nat.le_trans (le_visitRule I _ r n) hm, hx⟩

theorem forall₂_mem_left {α β : Type} {R : α → β → Prop} {l : List α} {l' : List β} (h : List.Forall₂ R l l')
    {x : α} (hx : x ∈ l) : ∃ y ∈ l', R x y := by
  induction h with
  | nil => exact absurd hx List.not_mem_nil
  | cons hxy _ ih =>
    rcases List.mem_cons.mp hx with rfl | hx
    · exact ⟨_, List.mem_cons_self, hxy⟩
    · obtain ⟨y, hy, hR⟩ := ih hx
      exact ⟨y, List.mem_cons_of_mem _ hy, hR⟩

-- what the sentences of a definition say
structure Completed (V : SortedVocabulary S P F) (arity : PFSymbol S P F → ℕ) (I : Structure S P F D)
    (rules : List (Rule S P F D)) : Prop where
  bodies : ∀ r ∈ rules, ∀ e, Sorted I r.graphed.quantVars e → I.holds r.graphed.body e →
    ∀ ds, I.values r.graphed.args e = ds.map some → movedSorted V I r.graphed.head 0 r.graphed.args ds →
      I.atom r.graphed.head ds
  heads : ∀ r ∈ rules, ∀ ds, inUniverse V arity I r.graphed.head ds → I.atom r.graphed.head ds →
    ∃ r' ∈ rules, r'.graphed.head = r.graphed.head ∧ looselyDerives I r'.graphed ds

theorem exists_body {vars : PFSymbol S P F → List (Variable S)} (hfits : ∀ r ∈ rules, RuleFits arity r.graphed)
    (hbelow : ∀ r ∈ rules, ∀ v ∈ r.graphed.quantVars, v.id < n)
    (hlength : ∀ r ∈ rules, (vars r.graphed.head).length = arity r.graphed.head)
    (hvars : ∀ r ∈ rules, ∀ w ∈ vars r.graphed.head, w.id < n) (symbol : PFSymbol S P F) (e : Variable S → D) :
    (∃ f ∈ ((visitRules V vars rules n).1.filter fun x => x.1 = symbol).map fun x => x.2.2, I.holds f e) ↔
      ∃ r ∈ rules, r.graphed.head = symbol ∧ looselyDerives I r.graphed ((vars symbol).map e) := by
  have hvisited := visitRules_forall₂ (V := V) I vars rules n
  have hrule : ∀ r ∈ rules, ∀ m, n ≤ m → (I.holds (visitRule V (vars r.graphed.head) r m).1.2 e ↔
      looselyDerives I r.graphed ((vars r.graphed.head).map e)) := fun r hr m hm =>
    visitRule_head_body (hfits r hr) (fun v hv => Nat.lt_of_lt_of_le (hbelow r hr v hv) hm) (hlength r hr)
      (fun w hw => Nat.lt_of_lt_of_le (hvars r hr w hw) hm) e
  constructor
  · rintro ⟨f, hf, h⟩
    obtain ⟨x, hx, rfl⟩ := List.mem_map.mp hf
    obtain ⟨hx, hsymbol⟩ := List.mem_filter.mp hx
    obtain ⟨r, hr, m, hm, rfl⟩ := forall₂_mem_left hvisited.flip hx
    obtain rfl := of_decide_eq_true hsymbol
    exact ⟨r, hr, rfl, (hrule r hr m hm).mp h⟩
  · rintro ⟨r, hr, rfl, h⟩
    obtain ⟨x, hx, m, hm, rfl⟩ := forall₂_mem_left hvisited hr
    exact ⟨_, List.mem_map_of_mem (List.mem_filter.mpr ⟨hx, decide_eq_true rfl⟩), (hrule r hr m hm).mpr h⟩

theorem visitDefinition_iff (hfits : ∀ r ∈ rules, RuleFits arity r.graphed)
    (hbelow : ∀ r ∈ rules, ∀ v ∈ r.graphed.quantVars, v.id < n) (e : Variable S → D) :
    (∀ f ∈ (visitDefinition V arity rules n).1, I.holds f e) ↔ Completed V arity I rules := by
  rw [visitDefinition]
  dsimp only
  obtain ⟨symbols, hsymbols⟩ : ∃ symbols, symbols = (rules.map fun r => r.graphed.head).dedup := ⟨_, rfl⟩
  have hsymbol : ∀ r ∈ rules, r.graphed.head ∈ symbols := fun r hr =>
    hsymbols ▸ List.mem_dedup.mpr (List.mem_map_of_mem hr)
  have hvars : ∀ r ∈ rules, ∃ m, headvars V arity symbols n r.graphed.head = newVars V arity r.graphed.head m ∧
      m + arity r.graphed.head ≤ headvarsEnd arity symbols n := fun r hr => headvars_eq _ n (hsymbol r hr)
  have hle : n ≤ headvarsEnd arity symbols n := Nat.le_add_right _ _
  rw [← hsymbols]
  obtain ⟨vars, hdef⟩ : ∃ vars, vars = headvars V arity symbols n := ⟨_, rfl⟩
  rw [← hdef] at hvars ⊢
  obtain ⟨l, hl⟩ : ∃ l, l = headvarsEnd arity symbols n := ⟨_, rfl⟩
  rw [← hl] at hvars hle ⊢
  have hbelow' : ∀ r ∈ rules, ∀ v ∈ r.graphed.quantVars, v.id < l := fun r hr v hv =>
    Nat.lt_of_lt_of_le (hbelow r hr v hv) hle
  have hvisited := visitRules_forall₂ (V := V) I vars rules l
  have hlength : ∀ r ∈ rules, (vars r.graphed.head).length = arity r.graphed.head := fun r hr => by
    obtain ⟨m, hm, -⟩ := hvars r hr
    rw [hm, length_newVars]
  have hids : ∀ r ∈ rules, ∀ w ∈ vars r.graphed.head, w.id < l := fun r hr w hw => by
    obtain ⟨m, hm, hend⟩ := hvars r hr
    obtain ⟨i, hi, rfl⟩ := mem_newVars (hm ▸ hw)
    exact Nat.lt_of_lt_of_le (Nat.add_lt_add_left hi m) hend
  have hhead : ∀ r ∈ rules, I.holds (headSentence r.graphed.head (vars r.graphed.head)
      (((visitRules V vars rules l).1.filter fun x => x.1 = r.graphed.head).map fun x => x.2.2)) e ↔
      ∀ ds, inUniverse V arity I r.graphed.head ds → I.atom r.graphed.head ds →
        ∃ r' ∈ rules, r'.graphed.head = r.graphed.head ∧ looselyDerives I r'.graphed ds := fun r hr => by
    obtain ⟨m, hm, -⟩ := hvars r hr
    rw [holds_headSentence, ← forall_newVars_iff (n := m) _ e, ← hm]
    exact forall₂_congr fun a _ => exists_body hfits hbelow' hlength hids r.graphed.head _
  refine List.forall_mem_append.trans ⟨fun h => ⟨fun r hr => ?_, fun r hr => ?_⟩, fun h => ⟨?_, ?_⟩⟩
  · obtain ⟨x, hx, m, hm, rfl⟩ := forall₂_mem_left hvisited hr
    exact (visitRule_body_head (hfits r hr) (fun v hv => Nat.lt_of_lt_of_le (hbelow' r hr v hv) hm) e).mp
      (h.1 _ (List.mem_map_of_mem hx))
  · exact (hhead r hr).mp (h.2 _ (List.mem_map_of_mem (hsymbol r hr)))
  · intro f hf
    obtain ⟨x, hx, rfl⟩ := List.mem_map.mp hf
    obtain ⟨r, hr, m, hm, rfl⟩ := forall₂_mem_left hvisited.flip hx
    exact (visitRule_body_head (hfits r hr) (fun v hv => Nat.lt_of_lt_of_le (hbelow' r hr v hv) hm) e).mpr
      (h.bodies r hr)
  · intro f hf
    obtain ⟨symbol, hmem, rfl⟩ := List.mem_map.mp hf
    obtain ⟨r, hr, rfl⟩ := List.mem_map.mp (List.mem_dedup.mp (hsymbols ▸ hmem))
    exact (hhead r hr).mpr (h.heads r hr)

-- each defined symbol holds of what the rules derive
def Completion (V : SortedVocabulary S P F) (arity : PFSymbol S P F → ℕ) (I : Structure S P F D)
    (rules : List (Rule S P F D)) (e : Variable S → D) : Prop :=
  ∀ r ∈ rules, ∀ ds, inUniverse V arity I r.graphed.head ds →
    (I.atom r.graphed.head ds ↔ ∃ r' ∈ rules, r'.graphed.head = r.graphed.head ∧ I.derives r'.graphed e ds)

section Conditions

variable (V : SortedVocabulary S P F) (arity : PFSymbol S P F → ℕ) (I : Structure S P F D)
  (rules : List (Rule S P F D)) (e : Variable S → D)

def Closed : Prop :=
  ∀ r ∈ rules, ∀ ds, inUniverse V arity I r.graphed.head ds → I.derives r.graphed e ds → I.atom r.graphed.head ds

def Supported : Prop :=
  ∀ r ∈ rules, ∀ ds, inUniverse V arity I r.graphed.head ds → I.atom r.graphed.head ds →
    ∃ r' ∈ rules, r'.graphed.head = r.graphed.head ∧ looselyDerives I r'.graphed ds

-- an instance with a false head is over the sorts of the symbol
def Confined : Prop :=
  ∀ r ∈ rules, ∀ ds, I.derives r.graphed e ds → movedSorted V I r.graphed.head 0 r.graphed.args ds →
    ¬ I.atom r.graphed.head ds → inUniverse V arity I r.graphed.head ds

-- a rule that has a head at the last positions of its variables has it at all of them
def Determined : Prop :=
  ∀ r ∈ rules, ∀ ds, inUniverse V arity I r.graphed.head ds → I.atom r.graphed.head ds →
    looselyDerives I r.graphed ds → ∃ r' ∈ rules, r'.graphed.head = r.graphed.head ∧ I.derives r'.graphed e ds

end Conditions

theorem derives_iff {r : Rule S P F D} (h : RuleFits arity r) (e : Variable S → D) (ds : List D) :
    I.derives r e ds ↔ ∃ e', Sorted I r.quantVars e' ∧ I.values r.args e' = ds.map some ∧ I.holds r.body e' := by
  refine exists_extend_iff (I := I) 
    (Q := fun e => I.values r.args e = ds.map some ∧ I.holds r.body e) (fun e e' heq => and_congr ?_ ?_) e
  · rw [values_congr_free fun v hv => heq v (h.closed v (List.mem_append_left _ hv))]
  · exact holds_congr_free fun v hv => heq v (h.closed v (List.mem_append_right _ hv))

theorem movedSorted_of_inUniverse {symbol : PFSymbol S P F} {ts : List (Term S P F D)} {ds : List D}
    (h : ∀ i d, ds[i]? = some d → I.sort (V.sort symbol i) d) : movedSorted V I symbol 0 ts ds := by
  have hfrom : ∀ (ts : List (Term S P F D)) (ds : List D) i,
      (∀ j d, ds[j]? = some d → I.sort (V.sort symbol (i + j)) d) → movedSorted V I symbol i ts ds := by
    intro ts
    induction ts with
    | nil => exact fun ds i _ => by cases ds <;> trivial
    | cons t ts ih =>
      intro ds i h
      cases ds with
      | nil => cases t <;> trivial
      | cons d ds =>
        have hrest := ih ds (i + 1) fun j d hd => by
          have := h (j + 1) d (by rwa [List.getElem?_cons_succ])
          rwa [Nat.add_comm j 1, ← Nat.add_assoc] at this
        cases t with
        | var v => exact hrest
        | _ => exact ⟨h 0 d rfl, hrest⟩
  exact hfrom ts ds 0 fun j d hd => by rw [Nat.zero_add]; exact h j d hd

theorem looselyDerives_of_derives {r : Rule S P F D} (h : RuleFits arity r) {ds : List D}
    (hderives : I.derives r e ds) : looselyDerives I r ds := by
  obtain ⟨e', hsorted, hvalues, hbody⟩ := (derives_iff h e ds).mp hderives
  exact ⟨e', fun v hv _ => hsorted v hv, looselyMatches_of_values hvalues, hbody⟩

-- the sentences and the completion agree but for an instance outside the sorts, or a head with a variable
-- that is bound at its last position only
theorem visitDefinition_completion (hfits : ∀ r ∈ rules, RuleFits arity r.graphed)
    (hbelow : ∀ r ∈ rules, ∀ v ∈ r.graphed.quantVars, v.id < n) :
    ((∀ f ∈ (visitDefinition V arity rules n).1, I.holds f e) ↔ Completion V arity I rules e) ↔
      (Closed V arity I rules e → Supported V arity I rules →
        (Confined V arity I rules e ↔ Determined V arity I rules e)) := by
  rw [visitDefinition_iff hfits hbelow e]
  have hbodies : (∀ r ∈ rules, ∀ ds, I.derives r.graphed e ds →
      movedSorted V I r.graphed.head 0 r.graphed.args ds → I.atom r.graphed.head ds) ↔
      Closed V arity I rules e ∧ Confined V arity I rules e := by
    constructor
    · exact fun h => ⟨fun r hr ds hds hderives => h r hr ds hderives (movedSorted_of_inUniverse hds.2),
        fun r hr ds hderives hmoved hnot => absurd (h r hr ds hderives hmoved) hnot⟩
    · rintro ⟨hclosed, hconfined⟩ r hr ds hderives hmoved
      by_contra hnot
      exact hnot (hclosed r hr ds (hconfined r hr ds hderives hmoved hnot) hderives)
  have hheads : (∀ r ∈ rules, ∀ ds, inUniverse V arity I r.graphed.head ds → I.atom r.graphed.head ds →
      ∃ r' ∈ rules, r'.graphed.head = r.graphed.head ∧ I.derives r'.graphed e ds) ↔
      Supported V arity I rules ∧ Determined V arity I rules e := by
    constructor
    · refine fun h => ⟨fun r hr ds hds hatom => ?_, fun r hr ds hds hatom _ => h r hr ds hds hatom⟩
      obtain ⟨r', hr', hsame, hderives⟩ := h r hr ds hds hatom
      exact ⟨r', hr', hsame, looselyDerives_of_derives (hfits r' hr') hderives⟩
    · rintro ⟨hsupported, hdetermined⟩ r hr ds hds hatom
      obtain ⟨r', hr', hsame, hloosely⟩ := hsupported r hr ds hds hatom
      obtain ⟨r'', hr'', hsame', hderives⟩ :=
        hdetermined r' hr' ds (hsame ▸ hds) (hsame ▸ hatom) hloosely
      exact ⟨r'', hr'', hsame'.trans hsame, hderives⟩
  have hcompleted : Completed V arity I rules ↔
      (Closed V arity I rules e ∧ Confined V arity I rules e) ∧ Supported V arity I rules := by
    rw [← hbodies]
    refine ⟨fun h => ⟨fun r hr ds hderives => ?_, h.heads⟩, fun h => ⟨fun r hr e' hsorted hbody ds hds => ?_, h.2⟩⟩
    · obtain ⟨e', hsorted, hvalues, hbody⟩ := (derives_iff (hfits r hr) e ds).mp hderives
      exact h.bodies r hr e' hsorted hbody ds hvalues
    · exact h.1 r hr ds ((derives_iff (hfits r hr) e ds).mpr ⟨e', hsorted, hds, hbody⟩)
  have hcompletion : Completion V arity I rules e ↔
      Closed V arity I rules e ∧ Supported V arity I rules ∧ Determined V arity I rules e := by
    rw [← hheads]
    refine ⟨fun h => ⟨fun r hr ds hds hderives => (h r hr ds hds).mpr ⟨r, hr, rfl, hderives⟩,
      fun r hr ds hds => (h r hr ds hds).mp⟩, fun h r hr ds hds => ⟨h.2 r hr ds hds, ?_⟩⟩
    rintro ⟨r', hr', hsame, hderives⟩
    exact hsame ▸ h.1 r' hr' ds (hsame ▸ hds) hderives
  rw [hcompleted, hcompletion]
  constructor
  · intro h hclosed hsupported
    exact ⟨fun hconfined => (h.mp ⟨⟨hclosed, hconfined⟩, hsupported⟩).2.2,
      fun hdetermined => (h.mpr ⟨hclosed, hsupported, hdetermined⟩).1.2⟩
  · intro h
    exact ⟨fun ⟨⟨hclosed, hconfined⟩, hsupported⟩ => ⟨hclosed, hsupported, (h hclosed hsupported).mp hconfined⟩,
      fun ⟨hclosed, hsupported, hdetermined⟩ =>
        ⟨⟨hclosed, (h hclosed hsupported).mpr hdetermined⟩, hsupported⟩⟩

end Definition

section Repeated

-- the vocabulary of one sort, and two elements of it
def pairs : SortedVocabulary Unit Unit Empty :=
  ⟨fun _ => [], fun _ => 0, height_lt_nil, fun _ => (), fun _ => (), fun _ _ => (),
    fun _ => none⟩

noncomputable def everywhere : Structure Unit Unit Empty Bool where
  sort _ _ := True
  isEmpty _ := false
  isEmpty_iff _ := iff_of_false Bool.false_ne_true fun h => h true trivial
  less _ _ := False
  predicate _ _ := True
  function f _ := nomatch f
  aggregate _ _ := none

-- p(x,y) is true
def unrepeated : Rule Unit Unit Empty Bool :=
  ⟨[⟨0, ()⟩, ⟨1, ()⟩], .predicate (), [.var ⟨0, ()⟩, .var ⟨1, ()⟩], .bool .pos true []⟩

-- p(x,x) is true
def repeated : Rule Unit Unit Empty Bool :=
  ⟨[⟨0, ()⟩], .predicate (), [.var ⟨0, ()⟩, .var ⟨0, ()⟩], .bool .pos true []⟩

theorem ruleFits_repeated : RuleFits (fun _ => 2) repeated := ⟨by decide, rfl⟩

theorem visitDefinition_completion_unrepeated :
    ((∀ f ∈ (visitDefinition pairs (fun _ => 2) [unrepeated] 2).1, everywhere.holds f fun _ => true) ↔
      Completion pairs (fun _ => 2) everywhere [unrepeated] fun _ => true) ↔
      (Closed pairs (fun _ => 2) everywhere [unrepeated] (fun _ => true) →
        Supported pairs (fun _ => 2) everywhere [unrepeated] →
          (Confined pairs (fun _ => 2) everywhere [unrepeated] (fun _ => true) ↔
            Determined pairs (fun _ => 2) everywhere [unrepeated] fun _ => true)) :=
  visitDefinition_completion (fun r hr => List.mem_singleton.mp hr ▸ ⟨by decide, rfl⟩)
    fun r hr => List.mem_singleton.mp hr ▸ by decide

-- the predicate holds everywhere, and the rule derives the diagonal only
theorem visitDefinition_repeated : ¬ ∀ (V : SortedVocabulary Unit Unit Empty) (arity : PFSymbol Unit Unit Empty → ℕ)
    (I : Structure Unit Unit Empty Bool) (rules : List (Rule Unit Unit Empty Bool)) (n : ℕ)
    (e : Variable Unit → Bool), (∀ r ∈ rules, RuleFits arity r.graphed) →
      (∀ r ∈ rules, ∀ v ∈ r.graphed.quantVars, v.id < n) →
      ((∀ f ∈ (visitDefinition V arity rules n).1, I.holds f e) ↔ Completion V arity I rules e) := by
  intro h
  have hfits : ∀ r ∈ [repeated], RuleFits (fun _ => 2) r.graphed := fun r hr =>
    List.mem_singleton.mp hr ▸ ruleFits_repeated
  have hbelow : ∀ r ∈ [repeated], ∀ v ∈ r.graphed.quantVars, v.id < 1 := fun r hr =>
    List.mem_singleton.mp hr ▸ by decide
  have htrue : ∀ ds, everywhere.atom (.predicate ()) ds := fun _ => trivial
  have hcompleted : Completed pairs (fun _ => 2) everywhere [repeated] := by
    refine ⟨fun r hr e _ _ ds _ _ => ?_, fun r hr ds hds _ => ⟨r, hr, rfl, ?_⟩⟩
    · obtain rfl := List.mem_singleton.mp hr
      exact htrue ds
    · obtain rfl := List.mem_singleton.mp hr
      obtain ⟨a, b, rfl⟩ := List.length_eq_two.mp hds.1
      exact ⟨fun _ => b, fun _ _ _ => trivial,
        ⟨fun hnot => absurd (List.mem_singleton_self _) hnot, fun _ => rfl, trivial⟩, trivial⟩
  have hcompletion := (h pairs (fun _ => 2) everywhere [repeated] 1 (fun _ => true) hfits hbelow).mp
    ((visitDefinition_iff hfits hbelow _).mpr hcompleted)
  obtain ⟨r, hr, -, a, hvalues, -⟩ := (hcompletion repeated (List.mem_singleton_self _) [true, false]
    ⟨rfl, fun _ _ _ => trivial⟩).mp (htrue _)
  obtain rfl := List.mem_singleton.mp hr
  have hargs : everywhere.values repeated.graphed.args (everywhere.extend (fun _ => true) a) =
      [some (everywhere.extend (fun _ => true) a ⟨0, ()⟩), some (everywhere.extend (fun _ => true) a ⟨0, ()⟩)] := rfl
  obtain ⟨hfirst, hrest⟩ := List.cons.inj (hargs.symm.trans hvalues)
  exact absurd (hfirst.symm.trans (List.cons.inj hrest).1) (by decide)

end Repeated

end ReplaceDefinitionsWithCompletion

end Theory
