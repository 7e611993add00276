import DeclarativeLocalSearch.Theory.Laws

set_option linter.unusedSectionVars false

namespace Theory

variable {S P F D : Type}

-- what a visitor does with a boolean formula whose parts are visited, and with a quantification,
-- of which it has the formula as it was and as it is now; the number is the next new identifier
structure TheoryMutatingVisitor (S P F D : Type) where
  visitBool : SIGN → Bool → List (Formula S P F D) → ℕ → Formula S P F D × ℕ
  visitQuant : SIGN → QUANT → List (Variable S) → Formula S P F D → Formula S P F D → ℕ →
    Formula S P F D × ℕ

namespace TheoryMutatingVisitor

variable (V : TheoryMutatingVisitor S P F D)

mutual

def visitTerm : Term S P F D → ℕ → Term S P F D × ℕ
  | .var v, n => (.var v, n)
  | .func f args, n =>
    let args := visitTerms args n
    (.func f args.1, args.2)
  | .dom s d, n => (.dom s d, n)
  | .agg g sets, n =>
    let sets := visitSets sets n
    (.agg g sets.1, sets.2)

def visitTerms : List (Term S P F D) → ℕ → List (Term S P F D) × ℕ
  | [], n => ([], n)
  | t :: ts, n =>
    let t := visitTerm t n
    let ts := visitTerms ts t.2
    (t.1 :: ts.1, ts.2)

def visitSet : QuantSetExpr S P F D → ℕ → QuantSetExpr S P F D × ℕ
  | .mk vars condition term, n =>
    let term := visitTerm term n
    let condition := visit condition term.2
    (.mk vars condition.1 term.1, condition.2)

def visitSets : List (QuantSetExpr S P F D) → ℕ → List (QuantSetExpr S P F D) × ℕ
  | [], n => ([], n)
  | s :: ss, n =>
    let s := visitSet s n
    let ss := visitSets ss s.2
    (s.1 :: ss.1, ss.2)

def visit : Formula S P F D → ℕ → Formula S P F D × ℕ
  | .pred sign symbol args, n =>
    let args := visitTerms args n
    (.pred sign symbol args.1, args.2)
  | .eqChain sign conj comps terms, n =>
    let terms := visitTerms terms n
    (.eqChain sign conj comps terms.1, terms.2)
  | .equiv sign l r, n =>
    let l := visit l n
    let r := visit r l.2
    (.equiv sign l.1 r.1, r.2)
  | .bool sign conj subs, n =>
    let subs := visitAll subs n
    V.visitBool sign conj subs.1 subs.2
  | .quant sign q vars f, n =>
    let sub := visit f n
    V.visitQuant sign q vars f sub.1 sub.2
  | .agg sign bound comp g sets, n =>
    let bound := visitTerm bound n
    let sets := visitSets sets bound.2
    (.agg sign bound.1 comp g sets.1, sets.2)

def visitAll : List (Formula S P F D) → ℕ → List (Formula S P F D) × ℕ
  | [], n => ([], n)
  | f :: fs, n =>
    let f := visit f n
    let fs := visitAll fs f.2
    (f.1 :: fs.1, fs.2)

end

section Sound

variable [DecidableEq S]

structure Sound (I : Structure S P F D) (used : S → Prop) : Prop where
  bool : ∀ {n conj fs}, (Formula.kind I).Fit used n (.bool .pos conj fs) →
    (Formula.kind I).Becomes used n (.bool .pos conj fs) (V.visitBool .pos conj fs n).2
      (V.visitBool .pos conj fs n).1
  quant : ∀ {n n' q vars f f'}, (Formula.kind I).Fit used n (.quant .pos q vars f) →
    (Formula.kind I).Becomes used n f n' f' →
    (Formula.kind I).Becomes used n (.quant .pos q vars f) (V.visitQuant .pos q vars f f' n').2
      (V.visitQuant .pos q vars f f' n').1

variable {V} {I : Structure S P F D} {used : S → Prop}

theorem becomes_list {α β : Type} {K : Kind S D α β} (g : α → ℕ → α × ℕ)
    (gs : List α → ℕ → List α × ℕ) (hnil : ∀ n, gs [] n = ([], n))
    (hcons : ∀ x l n, gs (x :: l) n = ((g x n).1 :: (gs l (g x n).2).1, (gs l (g x n).2).2))
    {l : List α} (hl : ∀ x ∈ l, ∀ n, K.Fit used n x → K.Becomes used n x (g x n).2 (g x n).1)
    (n : ℕ) (h : K.list.Fit used n l) : K.list.Becomes used n l (gs l n).2 (gs l n).1 := by
  induction l generalizing n with
  | nil =>
    rw [hnil]
    exact Kind.Becomes.refl h
  | cons x l ih =>
    obtain ⟨hx, hl⟩ := List.forall_mem_cons.mp hl
    obtain ⟨hfit, hfits⟩ := List.forall_mem_cons.mp (Kind.fit_list_iff.mp h)
    have hb := hx n hfit
    rw [hcons]
    exact hb.cons (ih hl _ ((Kind.fit_list_iff.mpr hfits).mono hb.le))

theorem Sound.becomes (hV : V.Sound I used) :
    (∀ (t : Term S P F D) (n : ℕ), (Term.kind I).Fit used n t →
      (Term.kind I).Becomes used n t (V.visitTerm t n).2 (V.visitTerm t n).1) ∧
    (∀ (s : QuantSetExpr S P F D) (n : ℕ), (QuantSetExpr.kind I).Fit used n s →
      (QuantSetExpr.kind I).Becomes used n s (V.visitSet s n).2 (V.visitSet s n).1) ∧
    ∀ (f : Formula S P F D) (n : ℕ), (Formula.kind I).Fit used n f →
      (Formula.kind I).Becomes used n f (V.visit f n).2 (V.visit f n).1 := by
  have terms : ∀ {ts : List (Term S P F D)}, (∀ t ∈ ts, ∀ n, (Term.kind I).Fit used n t →
      (Term.kind I).Becomes used n t (V.visitTerm t n).2 (V.visitTerm t n).1) →
      ∀ n, (Term.kind I).list.Fit used n ts →
        (Term.kind I).list.Becomes used n ts (V.visitTerms ts n).2 (V.visitTerms ts n).1 :=
    becomes_list V.visitTerm V.visitTerms (fun _ => rfl) fun _ _ _ => rfl
  have sets : ∀ {ss : List (QuantSetExpr S P F D)}, (∀ s ∈ ss, ∀ n, (QuantSetExpr.kind I).Fit used n s →
      (QuantSetExpr.kind I).Becomes used n s (V.visitSet s n).2 (V.visitSet s n).1) →
      ∀ n, (QuantSetExpr.kind I).list.Fit used n ss →
        (QuantSetExpr.kind I).list.Becomes used n ss (V.visitSets ss n).2 (V.visitSets ss n).1 :=
    becomes_list V.visitSet V.visitSets (fun _ => rfl) fun _ _ _ => rfl
  have formulas : ∀ {fs : List (Formula S P F D)}, (∀ f ∈ fs, ∀ n, (Formula.kind I).Fit used n f →
      (Formula.kind I).Becomes used n f (V.visit f n).2 (V.visit f n).1) →
      ∀ n, (Formula.kind I).list.Fit used n fs →
        (Formula.kind I).list.Becomes used n fs (V.visitAll fs n).2 (V.visitAll fs n).1 :=
    becomes_list V.visit V.visitAll (fun _ => rfl) fun _ _ _ => rfl
  refine Formula.induct ?_ ?_ ?_ ?_ ?_ ?_ ?_ ?_ ?_ ?_ ?_
  · exact fun v n h => Kind.Becomes.refl h
  · exact fun f args ih n h => (wraps_func f).becomes h (terms ih n ((wraps_func f).fit_iff.mp h).1)
  · exact fun s d n h => Kind.Becomes.refl h
  · exact fun g ss ih n h => (wraps_aggTerm g).becomes h (sets ih n ((wraps_aggTerm g).fit_iff.mp h).1)
  · intro vars c t ihc iht n h
    obtain ⟨ht, hc⟩ := Kind.fit_pair_iff.mp ((wraps_set vars).fit_iff (x := (t, c)).mp h).1
    have hb := iht n ht
    exact (wraps_set vars).becomes (x := (t, c)) h (hb.pair (ihc _ (hc.mono hb.le)))
  · exact fun sign symbol args ih n h =>
      (wraps_pred sign symbol).becomes h (terms ih n ((wraps_pred sign symbol).fit_iff.mp h).1)
  · exact fun sign conj comps ts ih n h => (wraps_eqChain sign conj comps).becomes h
      (terms ih n ((wraps_eqChain sign conj comps).fit_iff.mp h).1)
  · intro sign l r ihl ihr n h
    obtain ⟨hl, hr⟩ := Kind.fit_pair_iff.mp ((wraps_equiv sign).fit_iff (x := (l, r)).mp h).1
    have hb := ihl n hl
    exact (wraps_equiv sign).becomes (x := (l, r)) h (hb.pair (ihr _ (hr.mono hb.le)))
  · intro sign conj fs ih n h
    obtain ⟨rfl, -⟩ := (h.prepared : sign = .pos ∧ formulasPrepared fs)
    have hb := bool_congr h (formulas ih n ((wraps_bool conj).fit_iff.mp h).1)
    exact hb.trans (hV.bool hb.fit)
  · intro sign q vars f ih n h
    obtain ⟨rfl, -⟩ := (h.prepared : sign = .pos ∧ _)
    exact hV.quant h (ih n (fit_quant_iff.mp h).1)
  · intro sign b comp g ss ihb ih n h
    obtain ⟨hbound, hs⟩ := Kind.fit_pair_iff.mp ((wraps_agg sign comp g).fit_iff (x := (b, ss)).mp h).1
    have hb := ihb n hbound
    exact (wraps_agg sign comp g).becomes (x := (b, ss)) h (hb.pair (sets ih _ (hs.mono hb.le)))

theorem Sound.visit (hV : V.Sound I used) {f : Formula S P F D} {n : ℕ}
    (h : (Formula.kind I).Fit used n f) :
    (Formula.kind I).Becomes used n f (V.visit f n).2 (V.visit f n).1 := hV.becomes.2.2 f n h

end Sound

end TheoryMutatingVisitor

end Theory
