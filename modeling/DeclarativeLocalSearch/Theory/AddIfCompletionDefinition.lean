import DeclarativeLocalSearch.Theory.AddIfCompletion

set_option linter.unusedSectionVars false

namespace Theory

open Quantified Structure

variable {S P F D : Type} [DecidableEq S] {I : Structure S P F D} {V : SortedVocabulary S P F}
  {arity : PFSymbol S P F → ℕ}

namespace AddIfCompletion

open ReplaceDefinitionsWithCompletion

theorem holds_onlyIfFormula (definitionid : ℕ) (symbol : PFSymbol S P F) (vars : List (Variable S))
    (bodies : List (Formula S P F D)) (e : Variable S → D) :
    I.holds (onlyIfFormula definitionid symbol vars bodies).formula e ↔
      ∀ a : I.Tuple vars, (∃ f ∈ bodies, I.holds f (I.extend e a)) → I.atom symbol (vars.map (I.extend e a)) := by
  obtain ⟨body, hdef, hbody⟩ : ∃ body : Formula S P F D,
      (onlyIfFormula definitionid symbol vars bodies).formula = quantified .univ vars
        (.bool .pos false [.pred .pos symbol (vars.map .var), body.negate]) ∧
      ∀ e, I.holds body e ↔ ∃ f ∈ bodies, I.holds f e := by
    unfold onlyIfFormula
    split
    · exact ⟨_, rfl, fun e => by simp⟩
    · exact ⟨_, rfl, fun e => by rw [holds_bool_pos]; rfl⟩
  rw [hdef, holds_quantified]
  refine forall_congr' fun a => ?_
  rw [holds_bool_pos, ← hbody, ← applied_map_some, ← values_vars]
  simp only [eachOf, Bool.false_eq_true, if_false, List.mem_cons, List.not_mem_nil, or_false, exists_eq_or_imp,
    exists_eq_left, holds_negate, holds.eq_1, SIGN.apply]
  exact or_comm.trans imp_iff_not_or.symm

theorem le_addFor (I : Structure S P F D) (vv : List (Variable S)) (r : Rule S P F D) (n : ℕ) :
    n ≤ (addFor vv r n).2 := Nat.le_trans (le_newBody I) (le_clone I _ _ _)

theorem addRules_forall₂ (I : Structure S P F D) (vars : PFSymbol S P F → List (Variable S))
    (rules : List (Rule S P F D)) (n : ℕ) :
    List.Forall₂ (fun r x => ∃ m, n ≤ m ∧ x = (r.head, (addFor (vars r.head) r m).1)) rules
      (addRules vars rules n).1 := by
  induction rules generalizing n with
  | nil => exact List.Forall₂.nil
  | cons r rules ih =>
    refine List.Forall₂.cons ⟨n, Nat.le_refl n, rfl⟩ ((ih _).imp fun r' x hx => ?_)
    obtain ⟨m, hm, hx⟩ := hx
    exact ⟨m, Nat.le_trans (le_addFor I _ r n) hm, hx⟩

section Definition

variable [DecidableEq P] [DecidableEq F] {rules : List (Rule S P F D)} {n : ℕ} {e : Variable S → D}

theorem le_of_mem_headvars {symbols : List (PFSymbol S P F)} {symbol : PFSymbol S P F} {w : Variable S}
    (h : w ∈ headvars V arity symbols n symbol) : n ≤ w.id := by
  induction symbols generalizing n with
  | nil => exact absurd h List.not_mem_nil
  | cons s symbols ih =>
    rw [headvars] at h
    split_ifs at h with hs
    · obtain ⟨i, -, rfl⟩ := mem_newVars h
      exact Nat.le_add_right n i
    · exact Nat.le_trans (Nat.le_add_right n _) (ih h)

theorem exists_addFor {vars : PFSymbol S P F → List (Variable S)} (hfits : ∀ r ∈ rules, RuleFits arity r)
    (hbelow : ∀ r ∈ rules, ∀ v ∈ r.quantVars, v.id < n)
    (hlength : ∀ r ∈ rules, (vars r.head).length = arity r.head)
    (hvars : ∀ r ∈ rules, ∀ w ∈ vars r.head, w.id < n) (hnew : ∀ r ∈ rules, ∀ w ∈ vars r.head, w ∉ r.quantVars)
    (symbol : PFSymbol S P F) (e : Variable S → D) :
    (∃ f ∈ ((addRules vars rules n).1.filter fun x => x.1 = symbol).map Prod.snd, I.holds f e) ↔
      ∃ r ∈ rules, r.head = symbol ∧ reaches I r ((vars symbol).map e) := by
  have hadded := addRules_forall₂ I vars rules n
  have hrule : ∀ r ∈ rules, ∀ m, n ≤ m → (I.holds (addFor (vars r.head) r m).1 e ↔
      reaches I r ((vars r.head).map e)) := fun r hr m hm =>
    addFor_iff (hfits r hr) (fun v hv => Nat.lt_of_lt_of_le (hbelow r hr v hv) hm) (hlength r hr)
      (fun w hw => Nat.lt_of_lt_of_le (hvars r hr w hw) hm) (hnew r hr) e
  constructor
  · rintro ⟨f, hf, h⟩
    obtain ⟨x, hx, rfl⟩ := List.mem_map.mp hf
    obtain ⟨hx, hsymbol⟩ := List.mem_filter.mp hx
    obtain ⟨r, hr, m, hm, rfl⟩ := forall₂_mem_left hadded.flip hx
    obtain rfl := of_decide_eq_true hsymbol
    exact ⟨r, hr, rfl, (hrule r hr m hm).mp h⟩
  · rintro ⟨r, hr, rfl, h⟩
    obtain ⟨x, hx, m, hm, rfl⟩ := forall₂_mem_left hadded hr
    exact ⟨_, List.mem_map_of_mem (List.mem_filter.mpr ⟨hx, decide_eq_true rfl⟩), (hrule r hr m hm).mpr h⟩

theorem getOnlyIfFormulas_holds {definitionid : ℕ} (hfits : ∀ r ∈ rules, RuleFits arity r)
    (hbelow : ∀ r ∈ rules, ∀ v ∈ r.quantVars, v.id < n) :
    (∀ f ∈ getOnlyIfFormulas V arity definitionid rules n, I.holds f.formula e) ↔
      ∀ r ∈ rules, ∀ ds, inUniverse V arity I r.head ds → reaches I r ds → I.atom r.head ds := by
  rw [getOnlyIfFormulas]
  obtain ⟨symbols, hsymbols⟩ : ∃ symbols, symbols = (rules.map Rule.head).dedup := ⟨_, rfl⟩
  have hsymbol : ∀ r ∈ rules, r.head ∈ symbols := fun r hr =>
    hsymbols ▸ List.mem_dedup.mpr (List.mem_map_of_mem hr)
  have hvars : ∀ r ∈ rules, ∃ m, headvars V arity symbols n r.head = newVars V arity r.head m ∧
      m + arity r.head ≤ headvarsEnd arity symbols n := fun r hr => headvars_eq _ n (hsymbol r hr)
  have hle : n ≤ headvarsEnd arity symbols n := Nat.le_add_right _ _
  have hnew : ∀ r ∈ rules, ∀ w ∈ headvars V arity symbols n r.head, w ∉ r.quantVars := fun r hr w hw hmem =>
    Nat.not_le.mpr (hbelow r hr w hmem) (le_of_mem_headvars hw)
  rw [← hsymbols]
  obtain ⟨vars, hdef⟩ : ∃ vars, vars = headvars V arity symbols n := ⟨_, rfl⟩
  rw [← hdef] at hvars hnew ⊢
  obtain ⟨l, hl⟩ : ∃ l, l = headvarsEnd arity symbols n := ⟨_, rfl⟩
  rw [← hl] at hvars hle ⊢
  have hbelow' : ∀ r ∈ rules, ∀ v ∈ r.quantVars, v.id < l := fun r hr v hv =>
    Nat.lt_of_lt_of_le (hbelow r hr v hv) hle
  have hlength : ∀ r ∈ rules, (vars r.head).length = arity r.head := fun r hr => by
    obtain ⟨m, hm, -⟩ := hvars r hr
    rw [hm, length_newVars]
  have hids : ∀ r ∈ rules, ∀ w ∈ vars r.head, w.id < l := fun r hr w hw => by
    obtain ⟨m, hm, hend⟩ := hvars r hr
    obtain ⟨i, hi, rfl⟩ := mem_newVars (hm ▸ hw)
    exact Nat.lt_of_lt_of_le (Nat.add_lt_add_left hi m) hend
  have hhead : ∀ r ∈ rules, I.holds (onlyIfFormula definitionid r.head (vars r.head)
      (((addRules vars rules l).1.filter fun x => x.1 = r.head).map Prod.snd)).formula e ↔
      ∀ ds, inUniverse V arity I r.head ds → (∃ r' ∈ rules, r'.head = r.head ∧ reaches I r' ds) →
        I.atom r.head ds := fun r hr => by
    obtain ⟨m, hm, -⟩ := hvars r hr
    rw [holds_onlyIfFormula, ← forall_newVars_iff (n := m) _ e, ← hm]
    exact forall_congr' fun a => imp_congr_left (exists_addFor hfits hbelow' hlength hids hnew r.head _)
  refine List.forall_mem_map.trans ⟨fun h r hr ds hds hreaches => ?_, fun h symbol hmem => ?_⟩
  · exact (hhead r hr).mp (h _ (hsymbol r hr)) ds hds ⟨r, hr, rfl, hreaches⟩
  · obtain ⟨r, hr, rfl⟩ := List.mem_map.mp (List.mem_dedup.mp (hsymbols ▸ hmem))
    refine (hhead r hr).mpr fun ds hds hex => ?_
    obtain ⟨r', hr', hsame, hreaches⟩ := hex
    exact hsame ▸ h r' hr' ds (hsame ▸ hds) hreaches

-- a true body implies a true head, in every instance of a rule
def BodiesImplyHeads (I : Structure S P F D) (rules : List (Rule S P F D)) : Prop :=
  ∀ r ∈ rules, ∀ e, Sorted I r.quantVars e → I.holds r.body e → I.holds (.pred .pos r.head r.args) e

section Conditions

variable (V : SortedVocabulary S P F) (arity : PFSymbol S P F → ℕ) (I : Structure S P F D)
  (rules : List (Rule S P F D))

-- a head in the universe of its symbol
def headInUniverse (r : Rule S P F D) (e : Variable S → D) : Prop :=
  ∃ ds, I.values r.args e = ds.map some ∧ inUniverse V arity I r.head ds

-- an instance with a head in the universe has a true head
def Closed : Prop :=
  ∀ r ∈ rules, ∀ e, Sorted I r.quantVars e → I.holds r.body e → headInUniverse V arity I r e →
    I.holds (.pred .pos r.head r.args) e

-- an instance with a false head has its head in the universe
def Confined : Prop :=
  ∀ r ∈ rules, ∀ e, Sorted I r.quantVars e → I.holds r.body e → ¬ I.holds (.pred .pos r.head r.args) e →
    headInUniverse V arity I r e

-- with a false head in the universe, the variables of the head are in their sorts
def WithinSorts : Prop :=
  ∀ r ∈ rules, ∀ e, (∀ v ∈ r.quantVars, .var v ∉ r.args → I.sort v.sort (e v)) → I.holds r.body e →
    ¬ I.holds (.pred .pos r.head r.args) e → headInUniverse V arity I r e → Sorted I r.quantVars e

end Conditions

theorem holds_head {r : Rule S P F D} {e : Variable S → D} {ds : List D} (h : I.values r.args e = ds.map some) :
    I.holds (.pred .pos r.head r.args) e ↔ I.atom r.head ds := by
  rw [holds, h]
  exact applied_map_some r.head ds

-- the formulas and the definition agree but for an instance with a head outside the universe, or a head in it
-- with a variable outside its sort
theorem getOnlyIfFormulas_iff {definitionid : ℕ} (hfits : ∀ r ∈ rules, RuleFits arity r)
    (hbelow : ∀ r ∈ rules, ∀ v ∈ r.quantVars, v.id < n) :
    ((∀ f ∈ getOnlyIfFormulas V arity definitionid rules n, I.holds f.formula e) ↔ BodiesImplyHeads I rules) ↔
      (Closed V arity I rules → (Confined V arity I rules ↔ WithinSorts V arity I rules)) := by
  rw [getOnlyIfFormulas_holds hfits hbelow]
  have hall : BodiesImplyHeads I rules ↔ Closed V arity I rules ∧ Confined V arity I rules := by
    refine ⟨fun h => ⟨fun r hr e hsorted hbody _ => h r hr e hsorted hbody,
      fun r hr e hsorted hbody hfalse => absurd (h r hr e hsorted hbody) hfalse⟩, ?_⟩
    rintro ⟨hclosed, hconfined⟩ r hr e hsorted hbody
    by_contra hfalse
    exact hfalse (hclosed r hr e hsorted hbody (hconfined r hr e hsorted hbody hfalse))
  have hformulas : (∀ r ∈ rules, ∀ ds, inUniverse V arity I r.head ds → reaches I r ds → I.atom r.head ds) ↔
      Closed V arity I rules ∧ WithinSorts V arity I rules := by
    constructor
    · intro h
      have hholds : ∀ r ∈ rules, ∀ e, (∀ v ∈ r.quantVars, .var v ∉ r.args → I.sort v.sort (e v)) →
          I.holds r.body e → headInUniverse V arity I r e → I.holds (.pred .pos r.head r.args) e := by
        rintro r hr e hsorted hbody ⟨ds, hvalues, hds⟩
        exact (holds_head hvalues).mpr (h r hr ds hds ⟨e, hsorted, hbody, hvalues⟩)
      exact ⟨fun r hr e hsorted => hholds r hr e fun v hv _ => hsorted v hv,
        fun r hr e hsorted hbody hfalse hhead => absurd (hholds r hr e hsorted hbody hhead) hfalse⟩
    · rintro ⟨hclosed, hwithin⟩ r hr ds hds ⟨e, hsorted, hbody, hvalues⟩
      rw [← holds_head hvalues]
      by_contra hfalse
      have hsorted' := hwithin r hr e hsorted hbody hfalse ⟨ds, hvalues, hds⟩
      exact hfalse (hclosed r hr e hsorted' hbody ⟨ds, hvalues, hds⟩)
  rw [hformulas, hall]
  constructor
  · intro h hclosed
    exact ⟨fun hconfined => (h.mpr ⟨hclosed, hconfined⟩).2, fun hwithin => (h.mp ⟨hclosed, hwithin⟩).2⟩
  · exact fun h => and_congr_right fun hclosed => (h hclosed).symm

end Definition

section NarrowerSort

-- the sort false is part of the sort true, over which the symbols are
def nested : SortedVocabulary Bool Unit Empty :=
  ⟨fun _ => [], fun _ => 0, fun _ _ h => absurd h List.not_mem_nil, fun _ => true, fun _ => true, fun _ _ => true,
    fun _ => none⟩

-- p holds of the elements of the sort false
noncomputable def narrow : Structure Bool Unit Empty Bool where
  sort s d := s = true ∨ d = false
  isEmpty _ := false
  isEmpty_iff _ := iff_of_false Bool.false_ne_true fun h => h false (Or.inr rfl)
  less _ _ := False
  predicate _ ds := ds = [false]
  function f _ := nomatch f
  aggregate _ _ := none

-- p(x) is true, for x over a sort
def unary (s : Bool) : Rule Bool Unit Empty Bool :=
  ⟨[⟨0, s⟩], .predicate (), [.var ⟨0, s⟩], .bool .pos true []⟩

theorem ruleFits_unary (s : Bool) : RuleFits (fun _ => 1) (unary s) :=
  ⟨fun v hv => by simpa [unary, termsFreeVars, Term.freeVars, Formula.freeVars, formulasFreeVars] using hv, rfl⟩

theorem getOnlyIfFormulas_wide :
    ((∀ f ∈ getOnlyIfFormulas nested (fun _ => 1) 0 [unary true] 1, narrow.holds f.formula fun _ => true) ↔
      BodiesImplyHeads narrow [unary true]) ↔
      (Closed nested (fun _ => 1) narrow [unary true] →
        (Confined nested (fun _ => 1) narrow [unary true] ↔ WithinSorts nested (fun _ => 1) narrow [unary true])) :=
  getOnlyIfFormulas_iff (fun r hr => List.mem_singleton.mp hr ▸ ruleFits_unary true)
    fun r hr => List.mem_singleton.mp hr ▸ by decide

-- all instances of the rule have a true head, and the formula asks p(true)
theorem getOnlyIfFormulas_narrow : ¬ ∀ (V : SortedVocabulary Bool Unit Empty)
    (arity : PFSymbol Bool Unit Empty → ℕ) (I : Structure Bool Unit Empty Bool) (definitionid : ℕ)
    (rules : List (Rule Bool Unit Empty Bool)) (n : ℕ) (e : Variable Bool → Bool),
      (∀ r ∈ rules, RuleFits arity r) → (∀ r ∈ rules, ∀ v ∈ r.quantVars, v.id < n) →
      ((∀ f ∈ getOnlyIfFormulas V arity definitionid rules n, I.holds f.formula e) ↔ BodiesImplyHeads I rules) := by
  intro h
  have hfits : ∀ r ∈ [unary false], RuleFits (fun _ => 1) r := fun r hr =>
    List.mem_singleton.mp hr ▸ ruleFits_unary false
  have hbelow : ∀ r ∈ [unary false], ∀ v ∈ r.quantVars, v.id < 1 := fun r hr =>
    List.mem_singleton.mp hr ▸ by decide
  have himply : BodiesImplyHeads narrow [unary false] := by
    intro r hr e hsorted _
    obtain rfl := List.mem_singleton.mp hr
    have hfalse : e ⟨0, false⟩ = false :=
      (hsorted ⟨0, false⟩ (List.mem_singleton_self _)).resolve_left Bool.false_ne_true
    refine (@holds_head _ _ _ _ _ _ _ _ _ _ [false] ?_).mpr rfl
    exact congrArg (fun d => [some d]) hfalse
  have hformulas := (@getOnlyIfFormulas_holds _ _ _ _ _ _ nested _ _ _ _ _ (fun _ => true) 0 hfits hbelow).mp
    ((h nested (fun _ => 1) narrow 0 [unary false] 1 (fun _ => true) hfits hbelow).mpr himply)
  have hreaches : reaches narrow (unary false) [true] := by
    refine ⟨fun _ => true, fun v hv hvar => absurd ?_ hvar, trivial, rfl⟩
    rw [List.mem_singleton.mp hv]
    exact List.mem_singleton_self _
  have hatom : ([true] : List Bool) = [false] :=
    hformulas _ (List.mem_singleton_self _) [true] ⟨rfl, fun _ _ _ => Or.inl rfl⟩ hreaches
  exact absurd hatom (by decide)

end NarrowerSort

end AddIfCompletion

end Theory
