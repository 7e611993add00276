import DeclarativeLocalSearch.Theory.AggregateSets

set_option linter.unusedSectionVars false

namespace Theory

open Structure

variable {S P F D : Type} [DecidableEq S] (I : Structure S P F D)

section Every

variable (p : SIGN → CompType → AggFunction → List (QuantSetExpr S P F D) → (Variable S → D) → Prop)

mutual

-- each aggregate formula, whatever the values of the variables that are quantified around it
def Term.everyAgg : Term S P F D → (Variable S → D) → Prop
  | .var _, _ => True
  | .func _ args, e => termsEveryAgg args e
  | .dom _ _, _ => True
  | .agg _ sets, e => setsEveryAgg sets e

def termsEveryAgg : List (Term S P F D) → (Variable S → D) → Prop
  | [], _ => True
  | t :: ts, e => t.everyAgg e ∧ termsEveryAgg ts e

def QuantSetExpr.everyAgg : QuantSetExpr S P F D → (Variable S → D) → Prop
  | .mk vars condition term, e =>
    ∀ a : I.Tuple vars, condition.everyAgg (I.extend e a) ∧ term.everyAgg (I.extend e a)

def setsEveryAgg : List (QuantSetExpr S P F D) → (Variable S → D) → Prop
  | [], _ => True
  | s :: ss, e => s.everyAgg e ∧ setsEveryAgg ss e

def Formula.everyAgg : Formula S P F D → (Variable S → D) → Prop
  | .pred _ _ args, e => termsEveryAgg args e
  | .eqChain _ _ _ terms, e => termsEveryAgg terms e
  | .equiv _ l r, e => l.everyAgg e ∧ r.everyAgg e
  | .bool _ _ subs, e => formulasEveryAgg subs e
  | .quant _ _ vars f, e => ∀ a : I.Tuple vars, f.everyAgg (I.extend e a)
  | .agg sign bound comp g sets, e => p sign comp g sets e ∧ bound.everyAgg e ∧ setsEveryAgg sets e

def formulasEveryAgg : List (Formula S P F D) → (Variable S → D) → Prop
  | [], _ => True
  | f :: fs, e => f.everyAgg e ∧ formulasEveryAgg fs e

end

variable {I p}

theorem termsEveryAgg_iff {ts : List (Term S P F D)} {e : Variable S → D} :
    termsEveryAgg I p ts e ↔ ∀ t ∈ ts, t.everyAgg I p e := by
  induction ts with
  | nil => simp [termsEveryAgg]
  | cons t ts ih => simp [termsEveryAgg, ih]

theorem setsEveryAgg_iff {ss : List (QuantSetExpr S P F D)} {e : Variable S → D} :
    setsEveryAgg I p ss e ↔ ∀ s ∈ ss, s.everyAgg I p e := by
  induction ss with
  | nil => simp [setsEveryAgg]
  | cons s ss ih => simp [setsEveryAgg, ih]

theorem formulasEveryAgg_iff {fs : List (Formula S P F D)} {e : Variable S → D} :
    formulasEveryAgg I p fs e ↔ ∀ f ∈ fs, f.everyAgg I p e := by
  induction fs with
  | nil => simp [formulasEveryAgg]
  | cons f fs ih => simp [formulasEveryAgg, ih]

end Every

namespace Structure

def setWeights (e : Variable S → D) : QuantSetExpr S P F D → Set (Option D)
  | .mk vars _ term => Set.range fun a : I.Tuple vars => I.value term (I.extend e a)

def weights (e : Variable S → D) (ss : List (QuantSetExpr S P F D)) : Set (Option D) := {d | ∃ s ∈ ss, d ∈ I.setWeights e s}

theorem weights_eq_range (e : Variable S → D) (ss : List (QuantSetExpr S P F D)) :
    I.weights e ss = Set.range (I.weight e ss) := by
  induction ss with
  | nil =>
    refine Set.ext fun d => ⟨?_, fun ⟨x, _⟩ => nomatch x⟩
    rintro ⟨s, hs, -⟩
    exact absurd hs List.not_mem_nil
  | cons s ss ih =>
    obtain ⟨vars, condition, term⟩ := s
    have hcons : I.weights e (.mk vars condition term :: ss) =
        I.setWeights e (.mk vars condition term) ∪ I.weights e ss := by
      ext d
      simp [weights]
    rw [hcons, ih]
    refine (Set.Sum.elim_range (fun a : I.Tuple vars => I.value term (I.extend e a)) (I.weight e ss)).symm.trans
      (congrArg Set.range (funext fun x => ?_))
    cases x <;> rfl

end Structure

namespace Kind

variable {α β γ δ ε ζ : Type}

-- the meaning together with another one
def and (K : Kind S D α β) (other : α → (Variable S → D) → ε) : Kind S D α (β × ε) where
  free := K.free
  bound := K.bound
  prepared := K.prepared
  meaning x e := (K.meaning x e, other x e)

variable {I} {K : Kind S D α β} {L : Kind S D γ δ} {p : α → (Variable S → D) → ε} {q : γ → (Variable S → D) → ζ}
  {vars : List (Variable S)} {c : α → γ} {e e' : Variable S → D}

theorem list_and_iff {l l' : List α} : (K.and p).list.meaning l e = (K.and p).list.meaning l' e' ↔
    K.list.meaning l e = K.list.meaning l' e' ∧ (l.map fun x => p x e) = l'.map fun x => p x e' := by
  simp only [list, and]
  constructor
  · intro h
    have hfst := congrArg (List.map Prod.fst) h
    have hsnd := congrArg (List.map Prod.snd) h
    simp only [List.map_map] at hfst hsnd
    exact ⟨hfst, hsnd⟩
  · rintro ⟨hfst, hsnd⟩
    induction l generalizing l' with
    | nil =>
      rw [List.map_eq_nil_iff.mp hfst.symm]
      rfl
    | cons x l ih =>
      obtain ⟨x', l', rfl, hx, hl⟩ := List.map_eq_cons_iff.mp hfst.symm
      obtain ⟨hp, hps⟩ := List.cons.inj hsnd
      exact congrArg₂ List.cons (Prod.ext hx.symm hp) (ih hl.symm hps)

theorem Binds.and (b : Binds I K L vars c) (h : ∀ x x' e e',
    (∀ a : I.Tuple vars, (K.and p).meaning x (I.extend e a) = (K.and p).meaning x' (I.extend e' a)) →
      q (c x) e = q (c x') e') : Binds I (K.and p) (L.and q) vars c where
  free := b.free
  bound := b.bound
  meaning x x' e e' hmeaning := Prod.ext (b.meaning x x' e e' fun a => (Prod.mk.inj (hmeaning a)).1) (h x x' e e' hmeaning)

theorem Binds.list_and {c : List α → γ} (b : Binds I K.list L [] c) (h : ∀ l l' e e',
    (l.map fun x => p x e) = (l'.map fun x => p x e') → q (c l) e = q (c l') e') :
    Binds I (K.and p).list (L.and q) [] c where
  free := b.free
  bound := b.bound
  meaning l l' e e' hmeaning := by
    have hnil := hmeaning (emptyTuple I)
    rw [extend_nil, extend_nil, list_and_iff] at hnil
    refine Prod.ext (b.meaning l l' e e' fun a => ?_) (h l l' e e' hnil.2)
    rw [extend_nil, extend_nil]
    exact hnil.1

end Kind

section Expressions

variable (ok : SIGN → CompType → AggFunction → Set (Option D) → Prop)

-- a property that is about the weights
def OfWeights (sign : SIGN) (comp : CompType) (g : AggFunction) (sets : List (QuantSetExpr S P F D))
    (e : Variable S → D) : Prop := ok sign comp g (I.weights e sets)

noncomputable def Term.weighted : Kind S D (Term S P F D) ((Option D × Prop) × Prop) :=
  (Term.polar I fun _ _ => True).and (Term.everyAgg I (OfWeights I ok))

noncomputable def QuantSetExpr.weighted :
    Kind S D (QuantSetExpr S P F D) (((Option D → ℕ∞) × Prop) × Set (Option D) × Prop) :=
  (QuantSetExpr.polar I fun _ _ => True).and fun s e => (I.setWeights e s, s.everyAgg I (OfWeights I ok) e)

noncomputable def Formula.weighted : Kind S D (Formula S P F D) ((Prop × (SIGN → Prop)) × Prop) :=
  (Formula.polar I fun _ _ => True).and (Formula.everyAgg I (OfWeights I ok))

variable {I ok} {e e' : Variable S → D}

theorem forall_of_map {α : Type} {p p' : α → Prop} {l l' : List α} (h : l.map p = l'.map p') :
    (∀ x ∈ l, p x) ↔ ∀ x ∈ l', p' x := by
  have hall : ∀ {q : α → Prop} {m : List α}, (∀ x ∈ m, q x) ↔ ∀ b ∈ m.map q, b := fun {q m} =>
    (List.forall_mem_map (P := fun b : Prop => b)).symm
  rw [hall, hall, h]

theorem sets_of_map {ss ss' : List (QuantSetExpr S P F D)}
    (h : (ss.map fun s => (I.setWeights e s, s.everyAgg I (OfWeights I ok) e)) =
      ss'.map fun s => (I.setWeights e' s, s.everyAgg I (OfWeights I ok) e')) :
    I.weights e ss = I.weights e' ss' ∧
      (setsEveryAgg I (OfWeights I ok) ss e ↔ setsEveryAgg I (OfWeights I ok) ss' e') := by
  have hweights := congrArg (List.map Prod.fst) h
  have hevery := congrArg (List.map Prod.snd) h
  simp only [List.map_map, Function.comp_def] at hweights hevery
  constructor
  · have hunion : ∀ (e : Variable S → D) (l : List (QuantSetExpr S P F D)),
        I.weights e l = {d | ∃ w ∈ l.map (I.setWeights e), d ∈ w} := fun e l => by
      ext d
      simp [weights]
    rw [hunion, hunion, hweights]
  · rw [setsEveryAgg_iff, setsEveryAgg_iff]
    exact forall_of_map hevery

theorem weighted_set {vars vars' : List (Variable S)} (σ : I.Tuple vars ≃ I.Tuple vars') {c c' : Formula S P F D}
    {t t' : Term S P F D} (ht : ∀ a, (Term.weighted I ok).meaning t (I.extend e a) =
      (Term.weighted I ok).meaning t' (I.extend e' (σ a)))
    (hc : ∀ a, (Formula.weighted I ok).meaning c (I.extend e a) = (Formula.weighted I ok).meaning c' (I.extend e' (σ a))) :
    (QuantSetExpr.weighted I ok).meaning (.mk vars c t) e = (QuantSetExpr.weighted I ok).meaning (.mk vars' c' t') e' := by
  have ht := fun a => Prod.mk.inj (ht a)
  have hc := fun a => Prod.mk.inj (hc a)
  refine Prod.ext (@Kind.Binder.transport _ _ _ _ _ _ _ _ _ _ _ _ _ binder_set _ _ σ (t, c) (t', c') _ _ fun a => ?_) (Prod.ext ?_ (propext ?_))
  · exact Prod.ext (ht a).1 (hc a).1
  · refine Eq.trans (congrArg Set.range (funext fun a => ?_)) (σ.surjective.range_comp _)
    exact (Prod.mk.inj (ht a).1).1
  · exact σ.forall_congr fun a => and_congr (iff_of_eq (hc a).2) (iff_of_eq (ht a).2)

theorem weighted_quant {vars vars' : List (Variable S)} (σ : I.Tuple vars ≃ I.Tuple vars') (sign : SIGN) (q : QUANT)
    {f f' : Formula S P F D} (h : ∀ a, (Formula.weighted I ok).meaning f (I.extend e a) =
      (Formula.weighted I ok).meaning f' (I.extend e' (σ a))) :
    (Formula.weighted I ok).meaning (.quant sign q vars f) e = (Formula.weighted I ok).meaning (.quant sign q vars' f') e' := by
  have h := fun a => Prod.mk.inj (h a)
  exact Prod.ext ((binder_quant sign q).transport σ fun a => (h a).1)
    (propext (σ.forall_congr fun a => iff_of_eq (h a).2))

theorem weighted_equiv (sign : SIGN) : Kind.Binds I ((Formula.weighted I ok).pair (Formula.weighted I ok))
    (Formula.weighted I ok) [] (fun x : Formula S P F D × Formula S P F D => .equiv sign x.1 x.2) where
  free := (@binds_equiv S P F D _ I (fun _ _ => True) sign).free
  bound := (@binds_equiv S P F D _ I (fun _ _ => True) sign).bound
  meaning x x' e e' h := by
    have hl := fun a => Prod.mk.inj (Prod.mk.inj (h a)).1
    have hr := fun a => Prod.mk.inj (Prod.mk.inj (h a)).2
    refine Prod.ext ((binds_equiv sign).meaning x x' e e' fun a => Prod.ext (hl a).1 (hr a).1) (propext ?_)
    have hparts := And.intro (hl (emptyTuple I)).2 (hr (emptyTuple I)).2
    rw [extend_nil, extend_nil] at hparts
    exact and_congr (iff_of_eq hparts.1) (iff_of_eq hparts.2)

theorem weighted_agg (sign : SIGN) (comp : CompType) (g : AggFunction) :
    Kind.Binds I ((Term.weighted I ok).pair (QuantSetExpr.weighted I ok).list) (Formula.weighted I ok) []
      (fun x : Term S P F D × List (QuantSetExpr S P F D) => .agg sign x.1 comp g x.2) where
  free := (@binds_agg S P F D _ I (fun _ _ => True) sign comp g).free
  bound := (@binds_agg S P F D _ I (fun _ _ => True) sign comp g).bound
  meaning x x' e e' h := by
    have hnil := h (emptyTuple I)
    rw [extend_nil, extend_nil] at hnil
    obtain ⟨hbound, hsets⟩ := Prod.mk.inj hnil
    obtain ⟨hbound, hboundEvery⟩ := Prod.mk.inj hbound
    obtain ⟨hsets, hsetsEvery⟩ := Kind.list_and_iff.mp hsets
    obtain ⟨hweights, hsetsEvery⟩ := sets_of_map hsetsEvery
    refine Prod.ext ((binds_agg sign comp g).meaning x x' e e' fun a => ?_) (propext ?_)
    · rw [extend_nil, extend_nil]
      exact Prod.ext hbound hsets
    · exact and_congr (iff_of_eq (congrArg (ok sign comp g) hweights)) (and_congr (iff_of_eq hboundEvery) hsetsEvery)

theorem weighted_expressions :
    Kind.Expressions I (Term.weighted I ok) (QuantSetExpr.weighted I ok) (Formula.weighted I ok) where
  freeVar _ := rfl
  boundVar _ := rfl
  var _ _ _ _ h := Prod.ext (Prod.ext (congrArg some h) rfl) rfl
  freeDom _ _ := rfl
  boundDom _ _ := rfl
  dom _ _ _ _ := rfl
  func f := (binds_func f).list_and fun ts ts' e e' h => propext (by
    simp only [Term.everyAgg, termsEveryAgg_iff]
    exact forall_of_map h)
  aggTerm g := (binds_aggTerm g).list_and fun ss ss' e e' h => propext (by
    simp only [Term.everyAgg]
    exact (sets_of_map h).2)
  set :=
    { binds := fun vars =>
        { free := (@binds_set S P F D _ I (fun _ _ => True) vars).free
          bound := (@binds_set S P F D _ I (fun _ _ => True) vars).bound
          meaning := fun _ _ _ _ h => weighted_set (Equiv.refl _) (fun a => (Prod.mk.inj (h a)).1)
            fun a => (Prod.mk.inj (h a)).2 }
      transport := fun σ _ _ _ _ h => weighted_set σ (fun a => (Prod.mk.inj (h a)).1) fun a => (Prod.mk.inj (h a)).2 }
  pred sign symbol := (binds_pred sign symbol).list_and fun ts ts' e e' h => propext (by
    simp only [Formula.everyAgg, termsEveryAgg_iff]
    exact forall_of_map h)
  eqChain sign conj comps := (binds_eqChain sign conj comps).list_and fun ts ts' e e' h => propext (by
    simp only [Formula.everyAgg, termsEveryAgg_iff]
    exact forall_of_map h)
  equiv := weighted_equiv
  bool sign conj := (binds_bool sign conj).list_and fun fs fs' e e' h => propext (by
    simp only [Formula.everyAgg, formulasEveryAgg_iff]
    exact forall_of_map h)
  quant sign q :=
    { binds := fun vars =>
        { free := (@binds_quant S P F D _ I (fun _ _ => True) sign q vars).free
          bound := (@binds_quant S P F D _ I (fun _ _ => True) sign q vars).bound
          meaning := fun _ _ _ _ => weighted_quant (Equiv.refl _) sign q }
      transport := fun σ _ _ _ _ => weighted_quant σ sign q }
  agg := weighted_agg

end Expressions

end Theory
