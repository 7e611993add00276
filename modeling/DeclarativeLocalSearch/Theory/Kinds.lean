import DeclarativeLocalSearch.Foundation.Quantified
import DeclarativeLocalSearch.Theory.Rewriting

set_option linter.unusedSectionVars false

namespace Theory

open Quantified Structure

variable {S P F D : Type} [DecidableEq S] (I : Structure S P F D)

def QUANT.isUniv : QUANT → Bool
  | .univ => true
  | .exist => false

noncomputable def Term.kind : Kind S D (Term S P F D) (Option D) where
  free := Term.freeVars
  bound := Term.boundVars
  prepared := Term.prepared
  meaning := I.value

noncomputable def QuantSetExpr.kind : Kind S D (QuantSetExpr S P F D) (Option D → ℕ∞) where
  free := QuantSetExpr.freeVars
  bound := QuantSetExpr.boundVars
  prepared := QuantSetExpr.prepared
  meaning := I.setOccurrences

noncomputable def Formula.kind : Kind S D (Formula S P F D) Prop where
  free := Formula.freeVars
  bound := Formula.boundVars
  prepared := Formula.prepared
  meaning := I.holds

variable {I}

def emptyTuple (I : Structure S P F D) : I.Tuple [] :=
  ⟨fun v => absurd v.2 List.not_mem_nil, fun v => absurd v.2 List.not_mem_nil⟩

theorem extend_nil (e : Variable S → D) (a : I.Tuple []) : I.extend e a = e :=
  funext fun _ => extend_of_not_mem List.not_mem_nil e a

theorem wraps_of_nil {α β γ δ : Type} {K : Kind S D α β} {L : Kind S D γ δ} {c : α → γ}
    (free : ∀ x, L.free (c x) = K.free x) (bound : ∀ x, L.bound (c x) = K.bound x)
    (prepared : ∀ x, L.prepared (c x) ↔ K.prepared x)
    (meaning : ∀ x x' e e', K.meaning x e = K.meaning x' e' → L.meaning (c x) e = L.meaning (c x') e') :
    Kind.Wraps I K L [] c where
  free x v := by simp [free]
  bound x v := by simp [bound]
  prepared x := by simp [prepared]
  meaning x x' e e' h := by
    have hnil := h (emptyTuple I)
    rw [extend_nil, extend_nil] at hnil
    exact meaning x x' e e' hnil

theorem values_of_list {ts ts' : List (Term S P F D)} {e e' : Variable S → D}
    (h : (Term.kind I).list.meaning ts e = (Term.kind I).list.meaning ts' e') :
    I.values ts e = I.values ts' e' :=
  (values_eq_map ts e).trans (h.trans (values_eq_map ts' e').symm)

theorem occurrences_of_list {ss ss' : List (QuantSetExpr S P F D)} {e e' : Variable S → D}
    (h : (QuantSetExpr.kind I).list.meaning ss e = (QuantSetExpr.kind I).list.meaning ss' e') :
    I.occurrences ss e = I.occurrences ss' e' := by
  have hfold : ∀ (l : List (QuantSetExpr S P F D)) (e : Variable S → D), I.occurrences l e =
      ((QuantSetExpr.kind I).list.meaning l e).foldr (fun g h d => g d + h d) fun _ => 0 := by
    intro l e
    induction l with
    | nil => rfl
    | cons s l ih =>
      rw [occurrences, ih]
      rfl
  rw [hfold, hfold, h]

theorem holds_bool_iff (sign : SIGN) (conj : Bool) (fs : List (Formula S P F D))
    (e : Variable S → D) :
    I.holds (.bool sign conj fs) e ↔ sign.apply (eachOf conj fs fun f => I.holds f e) := by
  cases conj with
  | false => rw [holds, someHolds_iff]; rfl
  | true => rw [holds, allHold_iff]; rfl

theorem holds_bool_pos (conj : Bool) (fs : List (Formula S P F D)) (e : Variable S → D) :
    I.holds (.bool .pos conj fs) e ↔ eachOf conj fs fun f => I.holds f e :=
  holds_bool_iff .pos conj fs e

theorem holds_quant_pos (q : QUANT) (vars : List (Variable S)) (f : Formula S P F D)
    (e : Variable S → D) :
    I.holds (.quant .pos q vars f) e ↔ each q.isUniv fun a : I.Tuple vars => I.holds f (I.extend e a) := by
  cases q with
  | univ => rw [holds, SIGN.apply]; rfl
  | exist => rw [holds, SIGN.apply]; rfl

section Constructors

theorem wraps_func (f : F) : Kind.Wraps I (Term.kind I).list (Term.kind I) [] (.func f) :=
  wraps_of_nil termsFreeVars_eq_flatMap termsBoundVars_eq_flatMap (fun _ => termsPrepared_iff)
    fun ts ts' e e' h => by
      simp only [Term.kind, value, values_of_list h]

theorem wraps_aggTerm (g : AggFunction) :
    Kind.Wraps I (QuantSetExpr.kind I).list (Term.kind I) [] (.agg g) :=
  wraps_of_nil setsFreeVars_eq_flatMap setsBoundVars_eq_flatMap (fun _ => setsPrepared_iff)
    fun ss ss' e e' h => by
      simp only [Term.kind, value, occurrences_of_list h]

theorem wraps_set (vars : List (Variable S)) :
    Kind.Wraps I ((Term.kind I).pair (Formula.kind I)) (QuantSetExpr.kind I) vars
      (fun x : Term S P F D × Formula S P F D => .mk vars x.2 x.1) where
  free x v := by
    simp [QuantSetExpr.kind, Kind.pair, Term.kind, Formula.kind, QuantSetExpr.freeVars, or_comm,
      or_and_right]
  bound x v := by
    simp [QuantSetExpr.kind, Kind.pair, Term.kind, Formula.kind, QuantSetExpr.boundVars,
      or_comm (a := v ∈ x.1.boundVars)]
  prepared x := by
    simp only [QuantSetExpr.kind, Kind.pair, Term.kind, Formula.kind, QuantSetExpr.prepared,
      List.mem_append, or_comm, and_comm]
  meaning x x' e e' h := by
    have hpair := fun a => Prod.mk.inj (h a)
    simp only [Term.kind, Formula.kind] at hpair
    simp only [QuantSetExpr.kind, setOccurrences, hpair]

theorem wraps_pred (sign : SIGN) (symbol : PFSymbol S P F) :
    Kind.Wraps I (Term.kind I).list (Formula.kind I) [] (.pred sign symbol) :=
  wraps_of_nil termsFreeVars_eq_flatMap termsBoundVars_eq_flatMap (fun _ => termsPrepared_iff)
    fun ts ts' e e' h => by
      simp only [Formula.kind, holds, values_of_list h]

theorem wraps_eqChain (sign : SIGN) (conj : Bool) (comps : List CompType) :
    Kind.Wraps I (Term.kind I).list (Formula.kind I) [] (.eqChain sign conj comps) :=
  wraps_of_nil termsFreeVars_eq_flatMap termsBoundVars_eq_flatMap (fun _ => termsPrepared_iff)
    fun ts ts' e e' h => by
      simp only [Formula.kind, holds, values_of_list h]

theorem wraps_equiv (sign : SIGN) :
    Kind.Wraps I ((Formula.kind I).pair (Formula.kind I)) (Formula.kind I) []
      (fun x : Formula S P F D × Formula S P F D => .equiv sign x.1 x.2) :=
  wraps_of_nil (fun _ => rfl) (fun _ => rfl) (fun _ => Iff.rfl) fun x x' e e' h => by
    obtain ⟨hl, hr⟩ := Prod.mk.inj h
    simp only [Formula.kind] at hl hr
    simp only [Formula.kind, holds, hl, hr]

theorem wraps_bool (conj : Bool) :
    Kind.Wraps I (Formula.kind I).list (Formula.kind I) [] (.bool .pos conj) :=
  wraps_of_nil formulasFreeVars_eq_flatMap formulasBoundVars_eq_flatMap
    (fun _ => (and_iff_right rfl).trans formulasPrepared_iff) fun fs fs' e e' h => by
      have hlist : ∀ (l : List (Formula S P F D)) (e : Variable S → D), I.holds (.bool .pos conj l) e =
          eachOf conj ((Formula.kind I).list.meaning l e) id := fun l e =>
        propext ((holds_bool_pos conj l e).trans (eachOf_map (f := fun f => I.holds f e) (p := id)).symm)
      exact (hlist fs e).trans ((congrArg (eachOf conj · id) h).trans (hlist fs' e').symm)

theorem wraps_quant (q : QUANT) (vars : List (Variable S)) :
    Kind.Wraps I (Formula.kind I) (Formula.kind I) vars (.quant .pos q vars) where
  free f v := by simp [Formula.kind, Formula.freeVars]
  bound f v := by simp [Formula.kind, Formula.boundVars]
  prepared f := and_iff_right rfl
  meaning f f' e e' h := by
    refine propext ((holds_quant_pos q vars f e).trans (Iff.trans ?_ (holds_quant_pos q vars f' e').symm))
    exact each_congr fun a => iff_of_eq (h a)

theorem wraps_agg (sign : SIGN) (comp : CompType) (g : AggFunction) :
    Kind.Wraps I ((Term.kind I).pair (QuantSetExpr.kind I).list) (Formula.kind I) []
      (fun x : Term S P F D × List (QuantSetExpr S P F D) => .agg sign x.1 comp g x.2) :=
  wraps_of_nil (fun x => congrArg (x.1.freeVars ++ ·) (setsFreeVars_eq_flatMap x.2))
    (fun x => congrArg (x.1.boundVars ++ ·) (setsBoundVars_eq_flatMap x.2))
    (fun _ => and_congr_right fun _ => setsPrepared_iff) fun x x' e e' h => by
      obtain ⟨hb, hs⟩ := Prod.mk.inj h
      simp only [Term.kind] at hb
      simp only [Formula.kind, holds, hb, occurrences_of_list hs]

end Constructors

section Sorted

variable {vars : List (Variable S)}

-- values in the sorts of the variables
def Sorted (I : Structure S P F D) (vars : List (Variable S)) (e : Variable S → D) : Prop :=
  ∀ v ∈ vars, I.sort v.sort (e v)

def restricted {e : Variable S → D} (h : Sorted I vars e) : I.Tuple vars := ⟨fun v => e v.1, fun v => h v.1 v.2⟩

theorem extend_restricted {e e' : Variable S → D} (h : Sorted I vars e') {v : Variable S} (hv : v ∈ vars) :
    I.extend e (restricted h) v = e' v := extend_of_mem hv _ _

theorem sorted_extend (e : Variable S → D) (a : I.Tuple vars) : Sorted I vars (I.extend e a) := fun v hv => by
  rw [extend_of_mem hv]
  exact a.2 ⟨v, hv⟩

theorem sorted_append {vars' : List (Variable S)} {e : Variable S → D} :
    Sorted I (vars ++ vars') e ↔ Sorted I vars e ∧ Sorted I vars' e := List.forall_mem_append

theorem exists_extend_iff {Q : (Variable S → D) → Prop}
    (hQ : ∀ e e', (∀ v ∈ vars, e v = e' v) → (Q e ↔ Q e')) (e : Variable S → D) :
    (∃ a : I.Tuple vars, Q (I.extend e a)) ↔ ∃ e', Sorted I vars e' ∧ Q e' := by
  constructor
  · rintro ⟨a, ha⟩
    exact ⟨_, sorted_extend e a, ha⟩
  · rintro ⟨e', hsorted, he'⟩
    exact ⟨restricted hsorted, (hQ _ _ fun v hv => extend_restricted hsorted hv).mpr he'⟩

-- other values for some variables, in their sorts
def Varies (I : Structure S P F D) (vars : List (Variable S)) (e e' : Variable S → D) : Prop :=
  Sorted I vars e' ∧ ∀ x, x ∉ vars → e' x = e x

theorem exists_tuple_iff {Q : (Variable S → D) → Prop} {e : Variable S → D} :
    (∃ a : I.Tuple vars, Q (I.extend e a)) ↔ ∃ e', Varies I vars e e' ∧ Q e' := by
  constructor
  · rintro ⟨a, ha⟩
    exact ⟨_, ⟨sorted_extend e a, fun x hx => extend_of_not_mem hx e a⟩, ha⟩
  · rintro ⟨e', ⟨hsorted, hsame⟩, h⟩
    have hextend : I.extend e (restricted hsorted) = e' := by
      funext x
      by_cases hx : x ∈ vars
      · exact extend_restricted hsorted hx
      · exact (extend_of_not_mem hx _ _).trans (hsame x hx).symm
    refine ⟨restricted hsorted, ?_⟩
    rwa [hextend]

theorem holds_quant {sign : SIGN} {q : QUANT} {f : Formula S P F D} {e : Variable S → D} :
    I.holds (.quant sign q vars f) e ↔ sign.apply (if q.isUniv
      then ∀ e', Varies I vars e e' → I.holds f e' else ∃ e', Varies I vars e e' ∧ I.holds f e') := by
  cases q with
  | univ =>
    have hall : (∀ a : I.Tuple vars, I.holds f (I.extend e a)) ↔ ∀ e', Varies I vars e e' → I.holds f e' := by
      refine not_iff_not.mp ?_
      simp only [not_forall, exists_prop]
      exact exists_tuple_iff (Q := fun e => ¬ I.holds f e)
    exact iff_of_eq (congrArg sign.apply (propext hall))
  | exist => exact iff_of_eq (congrArg sign.apply (propext exists_tuple_iff))

theorem varies_nil {e e' : Variable S → D} : Varies I [] e e' ↔ e' = e :=
  ⟨fun h => funext fun x => h.2 x List.not_mem_nil, fun h => ⟨nofun, fun _ _ => h ▸ rfl⟩⟩

theorem varies_cons {x : Variable S} {e e' : Variable S → D} : Varies I (x :: vars) e e' ↔
    ∃ e'' d, Varies I vars e e'' ∧ I.sort x.sort d ∧ e' = Function.update e'' x d := by
  constructor
  · rintro ⟨hsorted, hsame⟩
    obtain ⟨hx, hvars⟩ := List.forall_mem_cons.mp hsorted
    by_cases hmem : x ∈ vars
    · refine ⟨e', e' x, ⟨hvars, fun y hy => hsame y fun hc => ?_⟩, hx, (Function.update_eq_self x e').symm⟩
      rcases List.mem_cons.mp hc with rfl | hc
      · exact hy hmem
      · exact hy hc
    · refine ⟨Function.update e' x (e x), e' x, ⟨fun y hy => ?_, fun y hy => ?_⟩, hx, ?_⟩
      · rw [Function.update_of_ne (ne_of_mem_of_not_mem hy hmem)]
        exact hvars y hy
      · by_cases hxy : y = x
        · rw [hxy, Function.update_self]
        · rw [Function.update_of_ne hxy]
          exact hsame y fun hc => (List.mem_cons.mp hc).elim hxy hy
      · rw [Function.update_idem, Function.update_eq_self]
  · rintro ⟨e'', d, ⟨hsorted, hsame⟩, hd, rfl⟩
    refine ⟨List.forall_mem_cons.mpr ⟨?_, fun y hy => ?_⟩, fun y hy => ?_⟩
    · rw [Function.update_self]
      exact hd
    · by_cases hxy : y = x
      · rw [hxy, Function.update_self]
        exact hd
      · rw [Function.update_of_ne hxy]
        exact hsorted y hy
    · rw [Function.update_of_ne (List.ne_of_not_mem_cons hy)]
      exact hsame y (List.not_mem_of_not_mem_cons hy)

end Sorted

end Theory
