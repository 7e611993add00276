import DeclarativeLocalSearch.Theory.FormulaVisitor

namespace Theory

variable {S P F D : Type}

-- a visitor that replaces some formulas without visiting their parts, and makes atoms anew from their
-- visited terms; the number is the next new identifier
structure OverridingVisitor (S P F D : Type) where
  stops : Formula S P F D → Bool
  replace : Formula S P F D → ℕ → Formula S P F D × ℕ
  rebuild : SIGN → PFSymbol S P F → List (Term S P F D) → Formula S P F D

namespace OverridingVisitor

variable (V : OverridingVisitor S P F D)

mutual

def visitTerm : Term S P F D → ℕ → Term S P F D × ℕ
  | .var v, n => (.var v, n)
  | .func f args, n =>
    let args := visitTerms args n
    (.func f args.1, args.2)
  | .dom s d, n => (.dom s d, n)
  | .agg g sets, n =>
    let sets := visitSets sets n
    (.agg g sets.1, sets.2)

def visitTerms : List (Term S P F D) → ℕ → List (Term S P F D) × ℕ
  | [], n => ([], n)
  | t :: ts, n =>
    let t := visitTerm t n
    let ts := visitTerms ts t.2
    (t.1 :: ts.1, ts.2)

def visitSet : QuantSetExpr S P F D → ℕ → QuantSetExpr S P F D × ℕ
  | .mk vars condition term, n =>
    let term := visitTerm term n
    let condition := visit condition term.2
    (.mk vars condition.1 term.1, condition.2)

def visitSets : List (QuantSetExpr S P F D) → ℕ → List (QuantSetExpr S P F D) × ℕ
  | [], n => ([], n)
  | s :: ss, n =>
    let s := visitSet s n
    let ss := visitSets ss s.2
    (s.1 :: ss.1, ss.2)

def visit : Formula S P F D → ℕ → Formula S P F D × ℕ
  | .pred sign symbol args, n =>
    if V.stops (.pred sign symbol args) then V.replace (.pred sign symbol args) n
    else
      let args := visitTerms args n
      (V.rebuild sign symbol args.1, args.2)
  | .eqChain sign conj comps terms, n =>
    if V.stops (.eqChain sign conj comps terms) then V.replace (.eqChain sign conj comps terms) n
    else
      let terms := visitTerms terms n
      (.eqChain sign conj comps terms.1, terms.2)
  | .equiv sign l r, n =>
    if V.stops (.equiv sign l r) then V.replace (.equiv sign l r) n
    else
      let l := visit l n
      let r := visit r l.2
      (.equiv sign l.1 r.1, r.2)
  | .bool sign conj subs, n =>
    if V.stops (.bool sign conj subs) then V.replace (.bool sign conj subs) n
    else
      let subs := visitAll subs n
      (.bool sign conj subs.1, subs.2)
  | .quant sign q vars f, n =>
    if V.stops (.quant sign q vars f) then V.replace (.quant sign q vars f) n
    else
      let f := visit f n
      (.quant sign q vars f.1, f.2)
  | .agg sign bound comp g sets, n =>
    if V.stops (.agg sign bound comp g sets) then V.replace (.agg sign bound comp g sets) n
    else
      let bound := visitTerm bound n
      let sets := visitSets sets bound.2
      (.agg sign bound.1 comp g sets.1, sets.2)

def visitAll : List (Formula S P F D) → ℕ → List (Formula S P F D) × ℕ
  | [], n => ([], n)
  | f :: fs, n =>
    let f := visit f n
    let fs := visitAll fs f.2
    (f.1 :: fs.1, fs.2)

end

section Visited

variable (p : Formula S P F D → Prop)

mutual

def visitedTerm : Term S P F D → Prop
  | .var _ => True
  | .func _ args => visitedTerms args
  | .dom _ _ => True
  | .agg _ sets => visitedSets sets

def visitedTerms : List (Term S P F D) → Prop
  | [] => True
  | t :: ts => visitedTerm t ∧ visitedTerms ts

def visitedSet : QuantSetExpr S P F D → Prop
  | .mk _ condition term => visited condition ∧ visitedTerm term

def visitedSets : List (QuantSetExpr S P F D) → Prop
  | [] => True
  | s :: ss => visitedSet s ∧ visitedSets ss

-- every formula that the visitor comes to
def visited : Formula S P F D → Prop
  | .pred sign symbol args =>
    p (.pred sign symbol args) ∧ (V.stops (.pred sign symbol args) = false → visitedTerms args)
  | .eqChain sign conj comps terms =>
    p (.eqChain sign conj comps terms) ∧
      (V.stops (.eqChain sign conj comps terms) = false → visitedTerms terms)
  | .equiv sign l r =>
    p (.equiv sign l r) ∧ (V.stops (.equiv sign l r) = false → visited l ∧ visited r)
  | .bool sign conj subs =>
    p (.bool sign conj subs) ∧ (V.stops (.bool sign conj subs) = false → visitedAll subs)
  | .quant sign q vars f =>
    p (.quant sign q vars f) ∧ (V.stops (.quant sign q vars f) = false → visited f)
  | .agg sign bound comp g sets =>
    p (.agg sign bound comp g sets) ∧
      (V.stops (.agg sign bound comp g sets) = false → visitedTerm bound ∧ visitedSets sets)

def visitedAll : List (Formula S P F D) → Prop
  | [] => True
  | f :: fs => visited f ∧ visitedAll fs

end

variable {V p}

theorem visitedTerms_iff {ts : List (Term S P F D)} :
    V.visitedTerms p ts ↔ ∀ t ∈ ts, V.visitedTerm p t := by
  induction ts with
  | nil => simp [visitedTerms]
  | cons t ts ih => simp [visitedTerms, ih]

theorem visitedSets_iff {ss : List (QuantSetExpr S P F D)} :
    V.visitedSets p ss ↔ ∀ s ∈ ss, V.visitedSet p s := by
  induction ss with
  | nil => simp [visitedSets]
  | cons s ss ih => simp [visitedSets, ih]

theorem visitedAll_iff {fs : List (Formula S P F D)} : V.visitedAll p fs ↔ ∀ f ∈ fs, V.visited p f := by
  induction fs with
  | nil => simp [visitedAll]
  | cons f fs ih => simp [visitedAll, ih]

theorem visited_self {f : Formula S P F D} (h : V.visited p f) : p f := by
  cases f <;> exact h.1

end Visited

section Sound

variable [DecidableEq S]

structure Sound (V : OverridingVisitor S P F D) (p : Formula S P F D → Prop) (I : Structure S P F D)
    (ok : PFSymbol S P F → List (Option D) → Prop) : Prop where
  replace : ∀ f n, p f → V.stops f = true → (Formula.polar I ok).Below n f →
    n ≤ (V.replace f n).2 ∧ (Formula.polar I ok).Keeps f (V.replace f n).1
  rebuild : ∀ sign symbol args n, p (.pred sign symbol args) → V.stops (.pred sign symbol args) = false →
    (Formula.polar I ok).Keeps (.pred sign symbol (V.visitTerms args n).1)
      (V.rebuild sign symbol (V.visitTerms args n).1)

variable {V} {p : Formula S P F D → Prop} {I : Structure S P F D}
  {ok : PFSymbol S P F → List (Option D) → Prop}

theorem Sound.keeps (hV : V.Sound p I ok) :
    (∀ (t : Term S P F D), V.visitedTerm p t → ∀ n, (Term.polar I ok).Below n t →
      n ≤ (V.visitTerm t n).2 ∧ (Term.polar I ok).Keeps t (V.visitTerm t n).1) ∧
    (∀ (s : QuantSetExpr S P F D), V.visitedSet p s → ∀ n, (QuantSetExpr.polar I ok).Below n s →
      n ≤ (V.visitSet s n).2 ∧ (QuantSetExpr.polar I ok).Keeps s (V.visitSet s n).1) ∧
    ∀ (f : Formula S P F D), V.visited p f → ∀ n, (Formula.polar I ok).Below n f →
      n ≤ (V.visit f n).2 ∧ (Formula.polar I ok).Keeps f (V.visit f n).1 := by
  have terms : ∀ {ts : List (Term S P F D)},
      (∀ t ∈ ts, V.visitedTerm p t → ∀ n, (Term.polar I ok).Below n t →
        n ≤ (V.visitTerm t n).2 ∧ (Term.polar I ok).Keeps t (V.visitTerm t n).1) →
      V.visitedTerms p ts → ∀ n, (Term.polar I ok).list.Below n ts →
        n ≤ (V.visitTerms ts n).2 ∧ (Term.polar I ok).list.Keeps ts (V.visitTerms ts n).1 :=
    fun ih hts => FormulaVisitor.keeps_list V.visitTerm V.visitTerms (fun _ => rfl) (fun _ _ _ => rfl)
      fun t ht => ih t ht (visitedTerms_iff.mp hts t ht)
  have sets : ∀ {ss : List (QuantSetExpr S P F D)},
      (∀ s ∈ ss, V.visitedSet p s → ∀ n, (QuantSetExpr.polar I ok).Below n s →
        n ≤ (V.visitSet s n).2 ∧ (QuantSetExpr.polar I ok).Keeps s (V.visitSet s n).1) →
      V.visitedSets p ss → ∀ n, (QuantSetExpr.polar I ok).list.Below n ss →
        n ≤ (V.visitSets ss n).2 ∧ (QuantSetExpr.polar I ok).list.Keeps ss (V.visitSets ss n).1 :=
    fun ih hss => FormulaVisitor.keeps_list V.visitSet V.visitSets (fun _ => rfl) (fun _ _ _ => rfl)
      fun s hs => ih s hs (visitedSets_iff.mp hss s hs)
  have formulas : ∀ {fs : List (Formula S P F D)},
      (∀ f ∈ fs, V.visited p f → ∀ n, (Formula.polar I ok).Below n f →
        n ≤ (V.visit f n).2 ∧ (Formula.polar I ok).Keeps f (V.visit f n).1) →
      V.visitedAll p fs → ∀ n, (Formula.polar I ok).list.Below n fs →
        n ≤ (V.visitAll fs n).2 ∧ (Formula.polar I ok).list.Keeps fs (V.visitAll fs n).1 :=
    fun ih hfs => FormulaVisitor.keeps_list V.visit V.visitAll (fun _ => rfl) (fun _ _ _ => rfl)
      fun f hf => ih f hf (visitedAll_iff.mp hfs f hf)
  have stopped : ∀ {f : Formula S P F D} {n : ℕ} {r : Formula S P F D × ℕ}, V.visited p f →
      (Formula.polar I ok).Below n f →
      (V.stops f = false → n ≤ r.2 ∧ (Formula.polar I ok).Keeps f r.1) →
      n ≤ (if V.stops f then V.replace f n else r).2 ∧
        (Formula.polar I ok).Keeps f (if V.stops f then V.replace f n else r).1 := by
    intro f n r hf h hr
    cases hstop : V.stops f with
    | true => exact hV.replace f n (visited_self hf) hstop h
    | false => exact hr hstop
  refine Formula.induct ?_ ?_ ?_ ?_ ?_ ?_ ?_ ?_ ?_ ?_ ?_
  · exact fun v _ n _ => ⟨Nat.le_refl n, Kind.Keeps.refl _⟩
  · intro f args ih hf n h
    obtain ⟨hle, hkeeps⟩ := terms ih hf n ((binds_func f).below h)
    exact ⟨hle, (binds_func f).keeps hkeeps⟩
  · exact fun s d _ n _ => ⟨Nat.le_refl n, Kind.Keeps.refl _⟩
  · intro g ss ih hf n h
    obtain ⟨hle, hkeeps⟩ := sets ih hf n ((binds_aggTerm g).below h)
    exact ⟨hle, (binds_aggTerm g).keeps hkeeps⟩
  · intro vars c t ihc iht hf n h
    obtain ⟨ht, hc⟩ := Kind.below_pair_iff.mp ((binds_set vars).below (x := (t, c)) h)
    obtain ⟨hle, hkeeps⟩ := iht hf.2 n ht
    obtain ⟨hle', hkeeps'⟩ := ihc hf.1 _ (hc.mono hle)
    exact ⟨Nat.le_trans hle hle', (binds_set vars).keeps (x := (t, c)) (hkeeps.pair hkeeps')⟩
  · intro sign symbol args ih hf n h
    refine stopped hf h fun hstop => ?_
    obtain ⟨hle, hkeeps⟩ := terms ih (hf.2 hstop) n ((binds_pred sign symbol).below h)
    exact ⟨hle, ((binds_pred sign symbol).keeps hkeeps).trans (hV.rebuild sign symbol args n hf.1 hstop)⟩
  · intro sign conj comps ts ih hf n h
    refine stopped hf h fun hstop => ?_
    obtain ⟨hle, hkeeps⟩ := terms ih (hf.2 hstop) n ((binds_eqChain sign conj comps).below h)
    exact ⟨hle, (binds_eqChain sign conj comps).keeps hkeeps⟩
  · intro sign l r ihl ihr hf n h
    refine stopped hf h fun hstop => ?_
    obtain ⟨hl, hr⟩ := Kind.below_pair_iff.mp ((binds_equiv sign).below (x := (l, r)) h)
    obtain ⟨hle, hkeeps⟩ := ihl (hf.2 hstop).1 n hl
    obtain ⟨hle', hkeeps'⟩ := ihr (hf.2 hstop).2 _ (hr.mono hle)
    exact ⟨Nat.le_trans hle hle', (binds_equiv sign).keeps (x := (l, r)) (hkeeps.pair hkeeps')⟩
  · intro sign conj fs ih hf n h
    refine stopped hf h fun hstop => ?_
    obtain ⟨hle, hkeeps⟩ := formulas ih (hf.2 hstop) n ((binds_bool sign conj).below h)
    exact ⟨hle, (binds_bool sign conj).keeps hkeeps⟩
  · intro sign q vars f ih hf n h
    refine stopped hf h fun hstop => ?_
    obtain ⟨hle, hkeeps⟩ := ih (hf.2 hstop) n ((binds_quant sign q vars).below h)
    exact ⟨hle, (binds_quant sign q vars).keeps hkeeps⟩
  · intro sign b comp g ss ihb ih hf n h
    refine stopped hf h fun hstop => ?_
    obtain ⟨hb, hs⟩ := Kind.below_pair_iff.mp ((binds_agg sign comp g).below (x := (b, ss)) h)
    obtain ⟨hle, hkeeps⟩ := ihb (hf.2 hstop).1 n hb
    obtain ⟨hle', hkeeps'⟩ := sets ih (hf.2 hstop).2 _ (hs.mono hle)
    exact ⟨Nat.le_trans hle hle', (binds_agg sign comp g).keeps (x := (b, ss)) (hkeeps.pair hkeeps')⟩

end Sound

end OverridingVisitor

end Theory
