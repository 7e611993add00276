import DeclarativeLocalSearch.Theory.CompletionDefinition

namespace Theory

variable {S P F D : Type} [DecidableEq S]

-- the head of the rule over the common variables of its symbol
structure OnlyIfFormula (S P F D : Type) where
  head : Formula S P F D
  formula : Formula S P F D
  definitionid : ℕ

namespace AddIfCompletion

open ReplaceDefinitionsWithCompletion

-- what is known when a part of the head terms is visited
structure HeadTerms (S P F D : Type) where
  vf : List (Formula S P F D)
  freevars : List (Variable S)
  mvv : List (Variable S × Variable S)

def mapped (mvv : List (Variable S × Variable S)) (v : Variable S) : Variable S := (mvv.lookup v).getD v

def addHeadTerm (w : Variable S) (t : Term S P F D) (x : HeadTerms S P F D) (n : ℕ) : HeadTerms S P F D × ℕ :=
  match t with
  | .var v =>
    match x.mvv.lookup v with
    | none => ({ x with mvv := (v, w) :: x.mvv, freevars := x.freevars.filter (· ≠ v) }, n)
    | some w' => ({ x with vf := x.vf ++ [.pred .pos (.eq v.sort) [.var w, .var w']] }, n)
  | t =>
    let t := t.clone id n
    ({ x with vf := x.vf ++ [.pred .pos (.eq w.sort) [.var w, t.1]] }, t.2)

def addHeadTerms : List (Variable S) → List (Term S P F D) → HeadTerms S P F D → ℕ → HeadTerms S P F D × ℕ
  | w :: vv, t :: ts, x, n =>
    let y := addHeadTerm w t x n
    addHeadTerms vv ts y.1 y.2
  | _, _, x, n => (x, n)

def visitHead (vv : List (Variable S)) (rule : Rule S P F D) (n : ℕ) : HeadTerms S P F D × ℕ :=
  addHeadTerms vv rule.args ⟨[], rule.quantVars, []⟩ n

def newBody (vv : List (Variable S)) (rule : Rule S P F D) (n : ℕ) : Formula S P F D × ℕ :=
  let x := visitHead vv rule n
  let b := rule.body.clone (mapped x.1.mvv) x.2
  (if x.1.vf = [] then b.1 else .bool .pos true (x.1.vf ++ [b.1]), b.2)

-- the second copy maps the variables of the equalities
def addFor (vv : List (Variable S)) (rule : Rule S P F D) (n : ℕ) : Formula S P F D × ℕ :=
  let x := visitHead vv rule n
  let b := newBody vv rule n
  (quantified .exist x.1.freevars b.1).clone (mapped x.1.mvv) b.2

def addRules (headvars : PFSymbol S P F → List (Variable S)) :
    List (Rule S P F D) → ℕ → List (PFSymbol S P F × Formula S P F D) × ℕ
  | [], n => ([], n)
  | r :: rs, n =>
    let c := addFor (headvars r.head) r n
    let rest := addRules headvars rs c.2
    ((r.head, c.1) :: rest.1, rest.2)

-- the sentence that one of the bodies implies the head
def onlyIfFormula (definitionid : ℕ) (symbol : PFSymbol S P F) (vars : List (Variable S))
    (bodies : List (Formula S P F D)) : OnlyIfFormula S P F D :=
  let b := match bodies with
    | [body] => body
    | bodies => .bool .pos false bodies
  let h := .pred .pos symbol (vars.map .var)
  ⟨h, quantified .univ vars (.bool .pos false [h, b.negate]), definitionid⟩

variable (V : SortedVocabulary S P F) (arity : PFSymbol S P F → ℕ) [DecidableEq P] [DecidableEq F]

def getOnlyIfFormulas (definitionid : ℕ) (rules : List (Rule S P F D)) (n : ℕ) : List (OnlyIfFormula S P F D) :=
  let symbols := (rules.map Rule.head).dedup
  let vars := headvars V arity symbols n
  let interres := (addRules vars rules (headvarsEnd arity symbols n)).1
  symbols.map fun symbol => onlyIfFormula definitionid symbol (vars symbol)
    ((interres.filter fun x => x.1 = symbol).map Prod.snd)

end AddIfCompletion

end Theory

namespace Theory

open Quantified Structure

variable {S P F D : Type} [DecidableEq S] {I : Structure S P F D} {V : SortedVocabulary S P F}
  {arity : PFSymbol S P F → ℕ}

namespace AddIfCompletion

open ReplaceDefinitionsWithCompletion

section HeadTerms

variable {w : Variable S} {vv : List (Variable S)} {t : Term S P F D} {ts : List (Term S P F D)}
  {x : HeadTerms S P F D} {n : ℕ} {e : Variable S → D}

-- the free variables of the rule are those that are not mapped
def HeadTerms.Free (quantVars : List (Variable S)) (x : HeadTerms S P F D) : Prop :=
  ∀ v, v ∈ x.freevars ↔ v ∈ quantVars ∧ x.mvv.lookup v = none

theorem lookup_cons (v v' w : Variable S) (mvv : List (Variable S × Variable S)) :
    List.lookup v ((v', w) :: mvv) = if v = v' then some w else mvv.lookup v := by
  rw [List.lookup_cons]
  split_ifs with hv
  · rw [hv, beq_self_eq_true]
  · rw [beq_false_of_ne hv]

theorem addHeadTerm_cases (w : Variable S) (t : Term S P F D) (x : HeadTerms S P F D) (n : ℕ) :
    (∃ v, t = .var v ∧ x.mvv.lookup v = none ∧ addHeadTerm w t x n =
      ({ x with mvv := (v, w) :: x.mvv, freevars := x.freevars.filter (· ≠ v) }, n)) ∨
    (∃ v w' s, t = .var v ∧ x.mvv.lookup v = some w' ∧ addHeadTerm w t x n =
      ({ x with vf := x.vf ++ [.pred .pos (.eq s) [.var w, .var w']] }, n)) ∨
    ((∀ v, t ≠ .var v) ∧ ∃ s, addHeadTerm w t x n =
      ({ x with vf := x.vf ++ [.pred .pos (.eq s) [.var w, (t.clone id n).1]] }, (t.clone id n).2)) := by
  cases t with
  | var v =>
    cases hv : x.mvv.lookup v with
    | none => exact Or.inl ⟨v, rfl, hv, by rw [addHeadTerm, hv]⟩
    | some w' => exact Or.inr (Or.inl ⟨v, w', v.sort, rfl, hv, by rw [addHeadTerm, hv]⟩)
  | _ => exact Or.inr (Or.inr ⟨nofun, w.sort, rfl⟩)

theorem lookup_addHeadTerm {v w' : Variable S} (h : x.mvv.lookup v = some w') :
    (addHeadTerm w t x n).1.mvv.lookup v = some w' := by
  obtain ⟨v', rfl, hnone, heq⟩ | ⟨v', w'', s, rfl, -, heq⟩ | ⟨-, s, heq⟩ := addHeadTerm_cases w t x n
  · have hne : v ≠ v' := fun hv => by rw [hv, hnone] at h; exact absurd h nofun
    rw [heq, lookup_cons, if_neg hne, h]
  · rw [heq]
    exact h
  · rw [heq]
    exact h

theorem lookup_addHeadTerms {v w' : Variable S} (h : x.mvv.lookup v = some w') :
    (addHeadTerms vv ts x n).1.mvv.lookup v = some w' := by
  induction ts generalizing vv x n with
  | nil => cases vv <;> exact h
  | cons t ts ih =>
    cases vv with
    | nil => exact h
    | cons w vv => exact ih (lookup_addHeadTerm h)

theorem mem_zip_of_lookup {v w' : Variable S} (h : (addHeadTerms vv ts x n).1.mvv.lookup v = some w') :
    x.mvv.lookup v = some w' ∨ (w', .var v) ∈ vv.zip ts := by
  induction ts generalizing vv x n with
  | nil => cases vv <;> exact Or.inl h
  | cons t ts ih =>
    cases vv with
    | nil => exact Or.inl h
    | cons w vv =>
      rw [List.zip_cons_cons, List.mem_cons, ← or_assoc]
      refine (ih h).imp_left fun hx => ?_
      obtain ⟨v', rfl, -, heq⟩ | ⟨v', w'', s, rfl, -, heq⟩ | ⟨-, s, heq⟩ := addHeadTerm_cases w t x n
      · rw [heq, lookup_cons] at hx
        split_ifs at hx with hv
        · exact Or.inr (by rw [hv, Option.some.inj hx])
        · exact Or.inl hx
      · rw [heq] at hx
        exact Or.inl hx
      · rw [heq] at hx
        exact Or.inl hx

theorem free_addHeadTerm {quantVars : List (Variable S)} (h : x.Free quantVars) :
    (addHeadTerm w t x n).1.Free quantVars := by
  obtain ⟨v', rfl, -, heq⟩ | ⟨v', w'', s, rfl, -, heq⟩ | ⟨-, s, heq⟩ := addHeadTerm_cases w t x n
  · intro v
    rw [heq, lookup_cons, List.mem_filter, h v, decide_eq_true_eq]
    split_ifs with hv
    · exact iff_of_false (fun hne => hne.2 hv) (fun hsome => absurd hsome.2 nofun)
    · exact and_iff_left hv
  · rw [heq]
    exact h
  · rw [heq]
    exact h

theorem free_addHeadTerms {quantVars : List (Variable S)} (h : x.Free quantVars) :
    (addHeadTerms vv ts x n).1.Free quantVars := by
  induction ts generalizing vv x n with
  | nil => cases vv <;> exact h
  | cons t ts ih =>
    cases vv with
    | nil => exact h
    | cons w vv => exact ih (free_addHeadTerm h)

theorem lookup_of_var {v : Variable S} (hlength : vv.length = ts.length) (h : .var v ∈ ts) :
    ∃ w, (addHeadTerms vv ts x n).1.mvv.lookup v = some w := by
  induction ts generalizing vv x n with
  | nil => exact absurd h List.not_mem_nil
  | cons t ts ih =>
    cases vv with
    | nil => exact absurd hlength nofun
    | cons w vv =>
      rw [addHeadTerms]
      rcases List.mem_cons.mp h with rfl | h
      · have hmapped : ∃ w', (addHeadTerm w (.var v) x n).1.mvv.lookup v = some w' := by
          cases hv : x.mvv.lookup v with
          | some w' => exact ⟨w', lookup_addHeadTerm hv⟩
          | none => exact ⟨w, by simp only [addHeadTerm, hv, lookup_cons, if_true]⟩
        exact hmapped.imp fun w' hw' => lookup_addHeadTerms hw'
      · exact ih (Nat.succ.inj hlength) h

theorem value_clone_id {t : Term S P F D} (h : ∀ v ∈ t.freeVars, v.id < n) (e : Variable S → D) :
    I.value (t.clone id n).1 e = I.value t e := by
  have hpolar := ((@clones S P F D _ I fun _ _ => True).1 t id n).meaning h e
  exact (Prod.mk.inj hpolar).1

theorem le_addHeadTerm (I : Structure S P F D) : n ≤ (addHeadTerm w t x n).2 := by
  obtain ⟨v', rfl, -, heq⟩ | ⟨v', w'', s, rfl, -, heq⟩ | ⟨-, s, heq⟩ := addHeadTerm_cases w t x n
  · rw [heq]
  · rw [heq]
  · rw [heq]
    exact ((@clones S P F D _ I fun _ _ => True).1 t id n).le

theorem le_addHeadTerms (I : Structure S P F D) : n ≤ (addHeadTerms vv ts x n).2 := by
  induction ts generalizing vv x n with
  | nil => cases vv <;> exact Nat.le_refl n
  | cons t ts ih =>
    cases vv with
    | nil => exact Nat.le_refl n
    | cons w vv => exact Nat.le_trans (le_addHeadTerm I) ih

theorem vf_addHeadTerms (hlength : vv.length = ts.length) (hbelow : ∀ v ∈ termsFreeVars ts, v.id < n)
    (he : ∀ v w, (addHeadTerms vv ts x n).1.mvv.lookup v = some w → e v = e w) :
    (∀ f ∈ (addHeadTerms vv ts x n).1.vf, I.holds f e) ↔
      (∀ f ∈ x.vf, I.holds f e) ∧ I.values ts e = (vv.map e).map some := by
  induction ts generalizing vv x n with
  | nil =>
    rw [List.eq_nil_of_length_eq_zero hlength]
    exact (and_iff_left rfl).symm
  | cons t ts ih =>
    cases vv with
    | nil => exact absurd hlength nofun
    | cons w vv =>
      rw [addHeadTerms] at he ⊢
      have hbelow' : ∀ v ∈ termsFreeVars ts, v.id < (addHeadTerm w t x n).2 := fun v hv =>
        Nat.lt_of_lt_of_le (hbelow v (List.mem_append_right _ hv)) (le_addHeadTerm I)
      rw [ih (Nat.succ.inj hlength) hbelow' he, values, List.map_cons, List.map_cons, List.cons.injEq, ← and_assoc]
      refine and_congr_left fun _ => ?_
      obtain ⟨v, rfl, -, heq⟩ | ⟨v, w', s, rfl, hv, heq⟩ | ⟨-, s, heq⟩ := addHeadTerm_cases w t x n
      · have hw : e v = e w := he v w (lookup_addHeadTerms (by rw [heq, lookup_cons, if_pos rfl]))
        rw [heq, value, hw]
        exact (and_iff_left rfl).symm
      · have hw : e v = e w' := he v w' (lookup_addHeadTerms (by rw [heq]; exact hv))
        rw [heq, List.forall_mem_append, List.forall_mem_singleton, holds_equality, value, value, hw]
      · rw [heq, List.forall_mem_append, List.forall_mem_singleton, holds_equality, value_clone_id]
        exact fun v hv => hbelow v (List.mem_append_left _ hv)

theorem mem_clone_id (I : Structure S P F D) {t : Term S P F D} {v : Variable S}
    (h : v ∈ (t.clone id n).1.freeVars) : v ∈ t.freeVars := by
  obtain ⟨v', hv', rfl⟩ := ((@clones S P F D _ I fun _ _ => True).1 t id n).free v h
  exact hv'

theorem below_addHeadTerms (I : Structure S P F D) {m : ℕ} (hvv : ∀ w ∈ vv, w.id < m)
    (hts : ∀ v ∈ termsFreeVars ts, v.id < m) (hmvv : ∀ v w, x.mvv.lookup v = some w → w.id < m)
    (hx : ∀ f ∈ x.vf, ∀ v ∈ f.freeVars, v.id < m) :
    ∀ f ∈ (addHeadTerms vv ts x n).1.vf, ∀ v ∈ f.freeVars, v.id < m := by
  induction ts generalizing vv x n with
  | nil => cases vv <;> exact hx
  | cons t ts ih =>
    cases vv with
    | nil => exact hx
    | cons w vv =>
      obtain ⟨hw, hvv⟩ := List.forall_mem_cons.mp hvv
      have hequality : ∀ (s : S) (t' : Term S P F D), (∀ v ∈ t'.freeVars, v.id < m) →
          ∀ f ∈ x.vf ++ [.pred .pos (.eq s) [.var w, t']], ∀ v ∈ f.freeVars, v.id < m := by
        intro s t' ht'
        refine List.forall_mem_append.mpr ⟨hx, List.forall_mem_singleton.mpr fun v hv => ?_⟩
        simp only [Formula.freeVars, termsFreeVars, Term.freeVars, List.append_nil, List.mem_append,
          List.mem_singleton] at hv
        rcases hv with rfl | hv
        · exact hw
        · exact ht' v hv
      rw [addHeadTerms]
      refine ih hvv (fun v hv => hts v (List.mem_append_right _ hv)) ?_ ?_
      · obtain ⟨v', rfl, -, heq⟩ | ⟨v', w'', s, rfl, -, heq⟩ | ⟨-, s, heq⟩ := addHeadTerm_cases w t x n
        · intro v w' hv
          rw [heq, lookup_cons] at hv
          split_ifs at hv with hsame
          · exact Option.some.inj hv ▸ hw
          · exact hmvv v w' hv
        · rwa [heq]
        · rwa [heq]
      · obtain ⟨v', rfl, -, heq⟩ | ⟨v', w'', s, rfl, hv', heq⟩ | ⟨-, s, heq⟩ := addHeadTerm_cases w t x n
        · rwa [heq]
        · rw [heq]
          exact hequality s _ fun v hv => List.mem_singleton.mp hv ▸ hmvv v' w'' hv'
        · rw [heq]
          exact hequality s _ fun v hv => hts v (List.mem_append_left _ (mem_clone_id I hv))

end HeadTerms

section AddFor

variable {vv : List (Variable S)} {r : Rule S P F D} {n : ℕ}

-- the head has the values in an instance, when its own variables are in no sort
def reaches (I : Structure S P F D) (r : Rule S P F D) (ds : List D) : Prop :=
  ∃ e, (∀ v ∈ r.quantVars, .var v ∉ r.args → I.sort v.sort (e v)) ∧ I.holds r.body e ∧
    I.values r.args e = ds.map some

theorem mapped_of_lookup {mvv : List (Variable S × Variable S)} {v w : Variable S} (h : mvv.lookup v = some w) :
    mapped mvv v = w := by
  rw [mapped, h, Option.getD_some]

theorem mapped_of_none {mvv : List (Variable S × Variable S)} {v : Variable S} (h : mvv.lookup v = none) :
    mapped mvv v = v := by
  rw [mapped, h, Option.getD_none]

theorem value_of_mem_zip {ts : List (Term S P F D)} {e e' : Variable S → D} {w : Variable S} {t : Term S P F D}
    (h : I.values ts e' = (vv.map e).map some) (hmem : (w, t) ∈ vv.zip ts) : I.value t e' = some (e w) := by
  induction ts generalizing vv with
  | nil =>
    rw [List.zip_nil_right] at hmem
    exact absurd hmem List.not_mem_nil
  | cons t' ts ih =>
    cases vv with
    | nil => exact absurd hmem List.not_mem_nil
    | cons w' vv =>
      obtain ⟨hvalue, hvalues⟩ := List.cons.inj h
      rcases List.mem_cons.mp hmem with heq | hmem
      · obtain ⟨rfl, rfl⟩ := Prod.mk.inj heq
        exact hvalue
      · exact ih hvalues hmem

variable (hfits : RuleFits arity r) (hbelow : ∀ v ∈ r.quantVars, v.id < n) (hlength : vv.length = arity r.head)
  (hvv : ∀ w ∈ vv, w.id < n)

theorem mem_of_lookup {v w : Variable S} (h : (visitHead vv r n).1.mvv.lookup v = some w) :
    (w, .var v) ∈ vv.zip r.args := (mem_zip_of_lookup h).resolve_left nofun

include hvv in
theorem mapped_lt {v : Variable S} (hv : v.id < n) : (mapped (visitHead vv r n).1.mvv v).id < n := by
  cases h : (visitHead vv r n).1.mvv.lookup v with
  | none => rwa [mapped_of_none h]
  | some w =>
    rw [mapped_of_lookup h]
    exact hvv w (List.of_mem_zip (mem_of_lookup h)).1

include hfits hbelow in
theorem args_below : ∀ v ∈ termsFreeVars r.args, v.id < n := fun v hv =>
  hbelow v (hfits.closed v (List.mem_append_left _ hv))

include hfits hbelow in
theorem body_below : ∀ v ∈ r.body.freeVars, v.id < n := fun v hv =>
  hbelow v (hfits.closed v (List.mem_append_right _ hv))

theorem le_newBody (I : Structure S P F D) : n ≤ (newBody vv r n).2 :=
  Nat.le_trans (le_addHeadTerms I) (le_clone I _ _ _)

include hfits hbelow hvv in
theorem newBody_below (I : Structure S P F D) : ∀ v ∈ (newBody vv r n).1.freeVars, v.id < n := by
  have hvf := below_addHeadTerms (n := n) (x := ⟨[], r.quantVars, []⟩) I hvv (args_below hfits hbelow) nofun nofun
  have hclone : ∀ m, ∀ v ∈ (r.body.clone (mapped (visitHead vv r n).1.mvv) m).1.freeVars, v.id < n := by
    intro m v hv
    obtain ⟨v', hv', rfl⟩ := ((@clones S P F D _ I fun _ _ => True).2.2 r.body _ m).free v hv
    exact mapped_lt hvv (body_below hfits hbelow v' hv')
  intro v hv
  rw [newBody] at hv
  dsimp only at hv
  split_ifs at hv with hnil
  · exact hclone _ v hv
  · obtain ⟨f, hf, hv⟩ := mem_formulasFreeVars.mp hv
    rcases List.mem_append.mp hf with hf | hf
    · exact hvf f hf v hv
    · exact hclone _ v (List.mem_singleton.mp hf ▸ hv)

include hfits hbelow hlength hvv in
theorem holds_newBody {e : Variable S → D} (he : ∀ v w, (visitHead vv r n).1.mvv.lookup v = some w → e v = e w) :
    I.holds (newBody vv r n).1 e ↔ I.holds r.body e ∧ I.values r.args e = (vv.map e).map some := by
  have hvf : (∀ f ∈ (visitHead vv r n).1.vf, I.holds f e) ↔ I.values r.args e = (vv.map e).map some :=
    (vf_addHeadTerms (hlength.trans hfits.length.symm) (args_below hfits hbelow) he).trans (and_iff_right nofun)
  have hclone : I.holds (r.body.clone (mapped (visitHead vv r n).1.mvv) (visitHead vv r n).2).1 e ↔
      I.holds r.body e := by
    have hlt : ∀ v ∈ r.body.freeVars, (mapped (visitHead vv r n).1.mvv v).id < (visitHead vv r n).2 :=
      fun v hv => Nat.lt_of_lt_of_le (mapped_lt hvv (body_below hfits hbelow v hv)) (le_addHeadTerms I)
    rw [holds_clone hlt]
    refine holds_congr_free fun v _ => ?_
    cases h : (visitHead vv r n).1.mvv.lookup v with
    | none => rw [mapped_of_none h]
    | some w => rw [mapped_of_lookup h, he v w h]
  rw [newBody, and_comm, ← hvf, ← hclone]
  dsimp only
  split_ifs with hnil
  · rw [hnil]
    exact (and_iff_right nofun).symm
  · rw [holds_bool_pos]
    refine List.forall_mem_append.trans (and_congr_right fun _ => ?_)
    rw [List.forall_mem_singleton]

include hfits hbelow hlength hvv in
theorem addFor_iff (hnew : ∀ w ∈ vv, w ∉ r.quantVars) (e : Variable S → D) :
    I.holds (addFor vv r n).1 e ↔ reaches I r (vv.map e) := by
  have hfree : (visitHead vv r n).1.Free r.quantVars := free_addHeadTerms fun v => (and_iff_left rfl).symm
  have hnone : ∀ w ∈ vv, (visitHead vv r n).1.mvv.lookup w = none := fun w hw => by
    by_contra hsome
    obtain ⟨w', hw'⟩ := Option.ne_none_iff_exists'.mp hsome
    exact hnew w hw (mem_quantVars_of_var hfits (List.of_mem_zip (mem_of_lookup hw')).2)
  have hunmapped : ∀ v, (visitHead vv r n).1.mvv.lookup v = none → .var v ∉ r.args :=
    fun v hv hvar => by
      obtain ⟨w, hw⟩ := lookup_of_var (hlength.trans hfits.length.symm) hvar
      exact absurd (hv.symm.trans hw) nofun
  -- the assignments of the free variables of the rule
  have hextend : ∀ a : I.Tuple (visitHead vv r n).1.freevars,
      (∀ w ∈ vv, I.extend (fun v => e (mapped (visitHead vv r n).1.mvv v)) a w = e w) ∧
      ∀ v w, (visitHead vv r n).1.mvv.lookup v = some w →
        I.extend (fun v => e (mapped (visitHead vv r n).1.mvv v)) a v = e w := by
    intro a
    refine ⟨fun w hw => ?_, fun v w hv => ?_⟩
    · rw [extend_of_not_mem fun hmem => hnew w hw ((hfree w).mp hmem).1, mapped_of_none (hnone w hw)]
    · rw [extend_of_not_mem, mapped_of_lookup hv]
      exact fun hmem => absurd (hv.symm.trans ((hfree v).mp hmem).2) nofun
  have hbody : ∀ a : I.Tuple (visitHead vv r n).1.freevars,
      I.holds (newBody vv r n).1 (I.extend (fun v => e (mapped (visitHead vv r n).1.mvv v)) a) ↔
        I.holds r.body (I.extend (fun v => e (mapped (visitHead vv r n).1.mvv v)) a) ∧
          I.values r.args (I.extend (fun v => e (mapped (visitHead vv r n).1.mvv v)) a) = (vv.map e).map some := by
    intro a
    obtain ⟨hvars, hmapped⟩ := hextend a
    rw [holds_newBody hfits hbelow hlength hvv fun v w hv => (hmapped v w hv).trans
      (hvars w (List.of_mem_zip (mem_of_lookup hv)).1).symm, List.map_congr_left hvars]
  rw [addFor, holds_clone fun v hv => Nat.lt_of_lt_of_le (mapped_lt hvv
    (newBody_below hfits hbelow hvv I v (mem_freeVars_quantified.mp hv).1)) (le_newBody I), holds_quantified]
  refine (exists_congr hbody).trans ⟨?_, ?_⟩
  · rintro ⟨a, ha⟩
    refine ⟨_, fun v hv hvar => sorted_extend _ a v ((hfree v).mpr ⟨hv, ?_⟩), ha⟩
    by_contra hsome
    obtain ⟨w, hw⟩ := Option.ne_none_iff_exists'.mp hsome
    exact hvar (List.of_mem_zip (mem_of_lookup hw)).2
  · rintro ⟨e', hsorted, hbody', hvalues⟩
    have hsorted' : Sorted I (visitHead vv r n).1.freevars e' := fun v hv =>
      hsorted v ((hfree v).mp hv).1 (hunmapped v ((hfree v).mp hv).2)
    have hsame : ∀ v ∈ r.quantVars,
        I.extend (fun v => e (mapped (visitHead vv r n).1.mvv v)) (restricted hsorted') v = e' v := by
      intro v hv
      cases h : (visitHead vv r n).1.mvv.lookup v with
      | none => exact extend_restricted hsorted' ((hfree v).mpr ⟨hv, h⟩)
      | some w =>
        exact ((hextend _).2 v w h).trans (Option.some.inj (value_of_mem_zip hvalues (mem_of_lookup h))).symm
    refine ⟨restricted hsorted', ?_, ?_⟩
    · exact (holds_congr_free fun v hv => hsame v (hfits.closed v (List.mem_append_right _ hv))).mpr hbody'
    · exact (values_congr_free fun v hv => hsame v (mem_quantVars_of_args hfits hv)).trans hvalues

end AddFor

end AddIfCompletion

end Theory
