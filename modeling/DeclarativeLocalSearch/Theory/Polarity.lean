import DeclarativeLocalSearch.Theory.Kinds

set_option linter.unusedSectionVars false

namespace Theory

open Quantified Structure

variable {S P F D : Type}

def SIGN.under : SIGN → SIGN → SIGN
  | .pos, sign => sign
  | .neg, sign => sign.negate

theorem SIGN.apply_under (outer sign : SIGN) (p : Prop) :
    (outer.under sign).apply p ↔ outer.apply (sign.apply p) := by
  cases outer <;> cases sign <;> simp [under, negate, apply]

variable [DecidableEq S] (I : Structure S P F D) (ok : PFSymbol S P F → List (Option D) → Prop)

section Safe

mutual

def Term.safe : Term S P F D → (Variable S → D) → Prop
  | .var _, _ => True
  | .func _ args, e => termsSafe args e
  | .dom _ _, _ => True
  | .agg _ sets, e => setsSafe sets e

def termsSafe : List (Term S P F D) → (Variable S → D) → Prop
  | [], _ => True
  | t :: ts, e => t.safe e ∧ termsSafe ts e

-- the terms that are compared
def chainSafe : List CompType → List (Term S P F D) → (Variable S → D) → Prop
  | _ :: cs, l :: r :: ts, e => (l.safe e ∧ r.safe e) ∧ chainSafe cs (r :: ts) e
  | _, _, _ => True

def QuantSetExpr.safe : QuantSetExpr S P F D → (Variable S → D) → Prop
  | .mk vars condition term, e =>
    ∀ a : I.Tuple vars, condition.safe .pos (I.extend e a) ∧ term.safe (I.extend e a)

def setsSafe : List (QuantSetExpr S P F D) → (Variable S → D) → Prop
  | [], _ => True
  | s :: ss, e => s.safe e ∧ setsSafe ss e

-- under the outer sign, each atom that is negated in the end may be negated
def Formula.safe : SIGN → Formula S P F D → (Variable S → D) → Prop
  | outer, .pred sign symbol args, e =>
    termsSafe args e ∧ (outer.under sign = .neg → ok symbol (I.values args e))
  | _, .eqChain _ _ comps terms, e => chainSafe comps terms e
  | _, .equiv _ l r, e => (l.safe .pos e ∧ l.safe .neg e) ∧ r.safe .pos e ∧ r.safe .neg e
  | outer, .bool sign _ subs, e => formulasSafe (outer.under sign) subs e
  | outer, .quant sign _ vars f, e => ∀ a : I.Tuple vars, f.safe (outer.under sign) (I.extend e a)
  | _, .agg _ bound _ _ sets, e => bound.safe e ∧ setsSafe sets e

def formulasSafe : SIGN → List (Formula S P F D) → (Variable S → D) → Prop
  | _, [], _ => True
  | outer, f :: fs, e => f.safe outer e ∧ formulasSafe outer fs e

end

end Safe

variable {I ok}

section Lists

attribute [local simp] Term.safe termsSafe chainSafe QuantSetExpr.safe setsSafe Formula.safe formulasSafe

theorem termsSafe_iff {ts : List (Term S P F D)} {e : Variable S → D} :
    termsSafe I ok ts e ↔ ∀ t ∈ ts, t.safe I ok e := by
  induction ts with
  | nil => simp [termsSafe]
  | cons t ts ih => simp [termsSafe, ih]

theorem setsSafe_iff {ss : List (QuantSetExpr S P F D)} {e : Variable S → D} :
    setsSafe I ok ss e ↔ ∀ s ∈ ss, s.safe I ok e := by
  induction ss with
  | nil => simp [setsSafe]
  | cons s ss ih => simp [setsSafe, ih]

theorem formulasSafe_iff {outer : SIGN} {fs : List (Formula S P F D)} {e : Variable S → D} :
    formulasSafe I ok outer fs e ↔ ∀ f ∈ fs, f.safe I ok outer e := by
  induction fs with
  | nil => simp [formulasSafe]
  | cons f fs ih => simp [formulasSafe, ih]

end Lists

namespace Kind

variable {α β γ δ : Type}

-- the meaning is that of the free variables
def Local (K : Kind S D α β) : Prop :=
  ∀ x e e', (∀ v ∈ K.free x, e v = e' v) → K.meaning x e = K.meaning x e'

structure Keeps (K : Kind S D α β) (x x' : α) : Prop where
  free : ∀ v ∈ K.free x', v ∈ K.free x
  meaning : K.meaning x' = K.meaning x

-- a constructor that binds the variables in the part it is given, as far as the meaning goes
structure Binds (I : Structure S P F D) (K : Kind S D α β) (L : Kind S D γ δ)
    (vars : List (Variable S)) (c : α → γ) : Prop where
  free : ∀ x v, v ∈ L.free (c x) ↔ v ∈ K.free x ∧ v ∉ vars
  bound : ∀ x v, v ∈ L.bound (c x) ↔ v ∈ vars ∨ v ∈ K.bound x
  meaning : ∀ x x' e e',
    (∀ a : I.Tuple vars, K.meaning x (I.extend e a) = K.meaning x' (I.extend e' a)) →
      L.meaning (c x) e = L.meaning (c x') e'

def Below (K : Kind S D α β) (n : ℕ) (x : α) : Prop :=
  (∀ v ∈ K.free x, v.id < n) ∧ ∀ v ∈ K.bound x, v.id < n

variable {K : Kind S D α β} {L : Kind S D γ δ} {vars : List (Variable S)} {c : α → γ} {n n' : ℕ}

theorem Keeps.refl (x : α) : K.Keeps x x := ⟨fun _ hv => hv, rfl⟩

theorem Keeps.trans {x x' x'' : α} (h : K.Keeps x x') (h' : K.Keeps x' x'') : K.Keeps x x'' :=
  ⟨fun v hv => h.free v (h'.free v hv), h'.meaning.trans h.meaning⟩

theorem Keeps.cons {x x' : α} {l l' : List α} (h : K.Keeps x x') (h' : K.list.Keeps l l') :
    K.list.Keeps (x :: l) (x' :: l') where
  free v hv := List.mem_append.mpr ((List.mem_append.mp hv).imp (h.free v) (h'.free v))
  meaning := funext fun e => congrArg₂ List.cons (congrFun h.meaning e) (congrFun h'.meaning e)

theorem Keeps.pair {x x' : α} {y y' : γ} (h : K.Keeps x x') (h' : L.Keeps y y') :
    (K.pair L).Keeps (x, y) (x', y') where
  free v hv := List.mem_append.mpr ((List.mem_append.mp hv).imp (h.free v) (h'.free v))
  meaning := funext fun e => congrArg₂ Prod.mk (congrFun h.meaning e) (congrFun h'.meaning e)

theorem Binds.keeps (b : Binds I K L vars c) {x x' : α} (h : K.Keeps x x') : L.Keeps (c x) (c x') where
  free v hv := by
    obtain ⟨hv, hvar⟩ := (b.free x' v).mp hv
    exact (b.free x v).mpr ⟨h.free v hv, hvar⟩
  meaning := funext fun e => b.meaning x' x e e fun a => congrFun h.meaning _

theorem Below.mono {x : α} (h : K.Below n x) (hn : n ≤ n') : K.Below n' x :=
  ⟨fun v hv => Nat.lt_of_lt_of_le (h.1 v hv) hn, fun v hv => Nat.lt_of_lt_of_le (h.2 v hv) hn⟩

theorem Binds.below (b : Binds I K L vars c) {x : α} (h : L.Below n (c x)) : K.Below n x := by
  refine ⟨fun v hv => ?_, fun v hv => h.2 v ((b.bound x v).mpr (Or.inr hv))⟩
  by_cases hvar : v ∈ vars
  · exact h.2 v ((b.bound x v).mpr (Or.inl hvar))
  · exact h.1 v ((b.free x v).mpr ⟨hv, hvar⟩)

theorem below_list_iff {l : List α} : K.list.Below n l ↔ ∀ x ∈ l, K.Below n x := by
  constructor
  · exact fun h x hx => ⟨fun v hv => h.1 v (List.mem_flatMap_of_mem hx hv),
      fun v hv => h.2 v (List.mem_flatMap_of_mem hx hv)⟩
  · intro h
    refine ⟨fun v hv => ?_, fun v hv => ?_⟩
    · obtain ⟨x, hx, hv⟩ := List.mem_flatMap.mp hv
      exact (h x hx).1 v hv
    · obtain ⟨x, hx, hv⟩ := List.mem_flatMap.mp hv
      exact (h x hx).2 v hv

theorem below_pair_iff {x : α × γ} : (K.pair L).Below n x ↔ K.Below n x.1 ∧ L.Below n x.2 := by
  simp only [Below, Kind.pair, List.mem_append, or_imp, forall_and]
  exact and_and_and_comm

theorem Local.list {l : List α}
    (h : ∀ x ∈ l, ∀ e e', (∀ v ∈ K.free x, e v = e' v) → K.meaning x e = K.meaning x e')
    (e e' : Variable S → D) (he : ∀ v ∈ K.list.free l, e v = e' v) :
    K.list.meaning l e = K.list.meaning l e' :=
  List.map_congr_left fun x hx => h x hx e e' fun v hv => he v (List.mem_flatMap_of_mem hx hv)

theorem Binds.local (b : Binds I K L vars c) {x : α}
    (h : ∀ e e', (∀ v ∈ K.free x, e v = e' v) → K.meaning x e = K.meaning x e')
    (e e' : Variable S → D) (he : ∀ v ∈ L.free (c x), e v = e' v) :
    L.meaning (c x) e = L.meaning (c x) e' :=
  b.meaning x x e e' fun a => h _ _ fun v hv =>
    extend_congr (fun hvar => he v ((b.free x v).mpr ⟨hv, hvar⟩)) a

end Kind

variable (I ok)

noncomputable def Term.polar : Kind S D (Term S P F D) (Option D × Prop) where
  free := Term.freeVars
  bound := Term.boundVars
  prepared _ := True
  meaning t e := (I.value t e, t.safe I ok e)

noncomputable def QuantSetExpr.polar : Kind S D (QuantSetExpr S P F D) ((Option D → ℕ∞) × Prop) where
  free := QuantSetExpr.freeVars
  bound := QuantSetExpr.boundVars
  prepared _ := True
  meaning s e := (I.setOccurrences s e, s.safe I ok e)

noncomputable def Formula.polar : Kind S D (Formula S P F D) (Prop × (SIGN → Prop)) where
  free := Formula.freeVars
  bound := Formula.boundVars
  prepared _ := True
  meaning f e := (I.holds f e, fun outer => f.safe I ok outer e)

variable {I ok}

theorem binds_of_nil {α β γ δ : Type} {K : Kind S D α β} {L : Kind S D γ δ} {c : α → γ}
    (free : ∀ x, L.free (c x) = K.free x) (bound : ∀ x, L.bound (c x) = K.bound x)
    (meaning : ∀ x x' e e', K.meaning x e = K.meaning x' e' → L.meaning (c x) e = L.meaning (c x') e') :
    Kind.Binds I K L [] c where
  free x v := by simp [free]
  bound x v := by simp [bound]
  meaning x x' e e' h := by
    have hnil := h (emptyTuple I)
    rw [extend_nil, extend_nil] at hnil
    exact meaning x x' e e' hnil

section Lists

variable {e e' : Variable S → D}

theorem values_of_polar {ts ts' : List (Term S P F D)}
    (h : (Term.polar I ok).list.meaning ts e = (Term.polar I ok).list.meaning ts' e') :
    I.values ts e = I.values ts' e' ∧ (termsSafe I ok ts e ↔ termsSafe I ok ts' e') := by
  have hvalues : ∀ (l : List (Term S P F D)) (e : Variable S → D),
      I.values l e = ((Term.polar I ok).list.meaning l e).map Prod.fst := fun l e => by
    rw [values_eq_map, Kind.list, List.map_map]
    rfl
  have hsafe : ∀ (l : List (Term S P F D)) (e : Variable S → D),
      termsSafe I ok l e ↔ ∀ x ∈ (Term.polar I ok).list.meaning l e, x.2 := fun l e => by
    rw [termsSafe_iff, Kind.list, List.forall_mem_map]
    rfl
  rw [hvalues, hvalues, hsafe, hsafe, h]
  exact ⟨rfl, Iff.rfl⟩

theorem chainSafe_of_polar {comps : List CompType} {ts ts' : List (Term S P F D)}
    (h : (Term.polar I ok).list.meaning ts e = (Term.polar I ok).list.meaning ts' e') :
    chainSafe I ok comps ts e ↔ chainSafe I ok comps ts' e' := by
  induction ts generalizing comps ts' with
  | nil =>
    rw [List.map_eq_nil_iff.mp h.symm]
    cases comps <;> exact Iff.rfl
  | cons l ts ih =>
    obtain ⟨l', ts', rfl, hl, hts⟩ := List.map_eq_cons_iff.mp h.symm
    cases ts with
    | nil =>
      rw [List.map_eq_nil_iff.mp hts]
      cases comps <;> exact Iff.rfl
    | cons r ts =>
      obtain ⟨r', ts', rfl, hr, -⟩ := List.map_eq_cons_iff.mp hts
      cases comps with
      | nil => exact Iff.rfl
      | cons c cs =>
        have hl := iff_of_eq (congrArg Prod.snd hl)
        have hr := iff_of_eq (congrArg Prod.snd hr)
        exact and_congr (and_congr hl.symm hr.symm) (ih hts.symm)

theorem occurrences_of_polar {ss ss' : List (QuantSetExpr S P F D)}
    (h : (QuantSetExpr.polar I ok).list.meaning ss e = (QuantSetExpr.polar I ok).list.meaning ss' e') :
    I.occurrences ss e = I.occurrences ss' e' ∧ (setsSafe I ok ss e ↔ setsSafe I ok ss' e') := by
  have hoccurrences : ∀ (l : List (QuantSetExpr S P F D)) (e : Variable S → D),
      (QuantSetExpr.kind I).list.meaning l e =
        ((QuantSetExpr.polar I ok).list.meaning l e).map Prod.fst := fun l e => by
    rw [Kind.list, Kind.list, List.map_map]
    rfl
  have hsafe : ∀ (l : List (QuantSetExpr S P F D)) (e : Variable S → D),
      setsSafe I ok l e ↔ ∀ x ∈ (QuantSetExpr.polar I ok).list.meaning l e, x.2 := fun l e => by
    rw [setsSafe_iff, Kind.list, List.forall_mem_map]
    rfl
  rw [hsafe, hsafe, h]
  refine ⟨occurrences_of_list ?_, Iff.rfl⟩
  rw [hoccurrences, hoccurrences, h]

theorem holds_of_polar {fs fs' : List (Formula S P F D)} (sign : SIGN) (conj : Bool)
    (h : (Formula.polar I ok).list.meaning fs e = (Formula.polar I ok).list.meaning fs' e') :
    (I.holds (.bool sign conj fs) e ↔ I.holds (.bool sign conj fs') e') ∧
      ∀ outer, (formulasSafe I ok outer fs e ↔ formulasSafe I ok outer fs' e') := by
  have hholds : ∀ (l : List (Formula S P F D)) (e : Variable S → D), I.holds (.bool sign conj l) e ↔
      sign.apply (eachOf conj ((Formula.polar I ok).list.meaning l e) Prod.fst) := fun l e => by
    rw [holds_bool_iff, Kind.list, eachOf_map]
    rfl
  have hsafe : ∀ (outer : SIGN) (l : List (Formula S P F D)) (e : Variable S → D),
      formulasSafe I ok outer l e ↔ ∀ x ∈ (Formula.polar I ok).list.meaning l e, x.2 outer :=
    fun outer l e => by
      rw [formulasSafe_iff, Kind.list, List.forall_mem_map]
      rfl
  refine ⟨?_, fun outer => ?_⟩
  · rw [hholds, hholds, h]
  · rw [hsafe, hsafe, h]

end Lists

theorem polar_ext {f f' : Formula S P F D} {e e' : Variable S → D} (hholds : I.holds f e ↔ I.holds f' e')
    (hsafe : ∀ outer, f.safe I ok outer e ↔ f'.safe I ok outer e') :
    (Formula.polar I ok).meaning f e = (Formula.polar I ok).meaning f' e' :=
  Prod.ext (propext hholds) (funext fun outer => propext (hsafe outer))

theorem polar_holds {f f' : Formula S P F D} {e e' : Variable S → D}
    (h : (Formula.polar I ok).meaning f e = (Formula.polar I ok).meaning f' e') :
    (I.holds f e ↔ I.holds f' e') ∧ ∀ outer, (f.safe I ok outer e ↔ f'.safe I ok outer e') := by
  obtain ⟨hholds, hsafe⟩ := Prod.mk.inj h
  exact ⟨iff_of_eq hholds, fun outer => iff_of_eq (congrFun hsafe outer)⟩

section Constructors

theorem binds_func (f : F) : Kind.Binds I (Term.polar I ok).list (Term.polar I ok) [] (.func f) :=
  binds_of_nil termsFreeVars_eq_flatMap termsBoundVars_eq_flatMap fun ts ts' e e' h => by
    obtain ⟨hvalues, hsafe⟩ := values_of_polar h
    exact Prod.ext (by simp only [Term.polar, value, hvalues])
      (propext (by simpa only [Term.polar, Term.safe] using hsafe))

theorem binds_aggTerm (g : AggFunction) :
    Kind.Binds I (QuantSetExpr.polar I ok).list (Term.polar I ok) [] (.agg g) :=
  binds_of_nil setsFreeVars_eq_flatMap setsBoundVars_eq_flatMap fun ss ss' e e' h => by
    obtain ⟨hoccurrences, hsafe⟩ := occurrences_of_polar h
    exact Prod.ext (by simp only [Term.polar, value, hoccurrences])
      (propext (by simpa only [Term.polar, Term.safe] using hsafe))

theorem binds_set (vars : List (Variable S)) :
    Kind.Binds I ((Term.polar I ok).pair (Formula.polar I ok)) (QuantSetExpr.polar I ok) vars
      (fun x : Term S P F D × Formula S P F D => .mk vars x.2 x.1) where
  free x v := by
    simp [QuantSetExpr.polar, Kind.pair, Term.polar, Formula.polar, QuantSetExpr.freeVars, or_comm,
      or_and_right]
  bound x v := by
    simp [QuantSetExpr.polar, Kind.pair, Term.polar, Formula.polar, QuantSetExpr.boundVars,
      or_comm (a := v ∈ x.1.boundVars)]
  meaning x x' e e' h := by
    have hpair := fun a => Prod.mk.inj (h a)
    have hvalue := fun a => (Prod.mk.inj (hpair a).1)
    have hcondition := fun a => polar_holds (hpair a).2
    refine Prod.ext ?_ (propext ?_)
    · simp only [QuantSetExpr.polar, setOccurrences, fun a => (hvalue a).1,
        fun a => propext (hcondition a).1]
    · exact forall_congr' fun a => and_congr ((hcondition a).2 .pos) (iff_of_eq (hvalue a).2)

theorem binds_pred (sign : SIGN) (symbol : PFSymbol S P F) :
    Kind.Binds I (Term.polar I ok).list (Formula.polar I ok) [] (.pred sign symbol) :=
  binds_of_nil termsFreeVars_eq_flatMap termsBoundVars_eq_flatMap fun ts ts' e e' h => by
    obtain ⟨hvalues, hsafe⟩ := values_of_polar h
    refine polar_ext (by simp only [holds, hvalues]) fun outer => ?_
    simp only [Formula.safe, hvalues, hsafe]

theorem binds_eqChain (sign : SIGN) (conj : Bool) (comps : List CompType) :
    Kind.Binds I (Term.polar I ok).list (Formula.polar I ok) [] (.eqChain sign conj comps) :=
  binds_of_nil termsFreeVars_eq_flatMap termsBoundVars_eq_flatMap fun ts ts' e e' h => by
    obtain ⟨hvalues, -⟩ := values_of_polar h
    refine polar_ext (by simp only [holds, hvalues]) fun outer => ?_
    simp only [Formula.safe, chainSafe_of_polar h]

theorem binds_equiv (sign : SIGN) :
    Kind.Binds I ((Formula.polar I ok).pair (Formula.polar I ok)) (Formula.polar I ok) []
      (fun x : Formula S P F D × Formula S P F D => .equiv sign x.1 x.2) :=
  binds_of_nil (fun _ => rfl) (fun _ => rfl) fun x x' e e' h => by
    obtain ⟨hl, hr⟩ := Prod.mk.inj h
    obtain ⟨hl, hlsafe⟩ := polar_holds hl
    obtain ⟨hr, hrsafe⟩ := polar_holds hr
    refine polar_ext (by simp only [holds, hl, hr]) fun outer => ?_
    simp only [Formula.safe, hlsafe, hrsafe]

theorem binds_bool (sign : SIGN) (conj : Bool) :
    Kind.Binds I (Formula.polar I ok).list (Formula.polar I ok) [] (.bool sign conj) :=
  binds_of_nil formulasFreeVars_eq_flatMap formulasBoundVars_eq_flatMap fun fs fs' e e' h => by
    obtain ⟨hholds, hsafe⟩ := holds_of_polar sign conj h
    refine polar_ext hholds fun outer => ?_
    simp only [Formula.safe, hsafe]

theorem binds_quant (sign : SIGN) (q : QUANT) (vars : List (Variable S)) :
    Kind.Binds I (Formula.polar I ok) (Formula.polar I ok) vars (.quant sign q vars) where
  free f v := by simp [Formula.polar, Formula.freeVars]
  bound f v := by simp [Formula.polar, Formula.boundVars]
  meaning f f' e e' h := by
    have hsub := fun a => polar_holds (h a)
    refine polar_ext ?_ fun outer => forall_congr' fun a => (hsub a).2 _
    cases q
    · simp only [holds, fun a => propext (hsub a).1]
    · simp only [holds, fun a => propext (hsub a).1]

theorem binds_agg (sign : SIGN) (comp : CompType) (g : AggFunction) :
    Kind.Binds I ((Term.polar I ok).pair (QuantSetExpr.polar I ok).list) (Formula.polar I ok) []
      (fun x : Term S P F D × List (QuantSetExpr S P F D) => .agg sign x.1 comp g x.2) :=
  binds_of_nil (fun x => congrArg (x.1.freeVars ++ ·) (setsFreeVars_eq_flatMap x.2))
    (fun x => congrArg (x.1.boundVars ++ ·) (setsBoundVars_eq_flatMap x.2)) fun x x' e e' h => by
      obtain ⟨hb, hs⟩ := Prod.mk.inj h
      obtain ⟨hvalue, hbsafe⟩ := Prod.mk.inj hb
      obtain ⟨hoccurrences, hssafe⟩ := occurrences_of_polar hs
      refine polar_ext (by simp only [holds, hvalue, hoccurrences]) fun outer => ?_
      simp only [Formula.safe, hssafe]
      exact and_congr_left' (iff_of_eq hbsafe)

end Constructors

end Theory
