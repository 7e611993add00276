import DeclarativeLocalSearch.Theory.Clone

namespace Theory

variable {S P F D : Type}

section Every

variable (p : Formula S P F D → Prop)

mutual

def Term.every : Term S P F D → Prop
  | .var _ => True
  | .func _ args => termsEvery args
  | .dom _ _ => True
  | .agg _ sets => setsEvery sets

def termsEvery : List (Term S P F D) → Prop
  | [] => True
  | t :: ts => t.every ∧ termsEvery ts

def QuantSetExpr.every : QuantSetExpr S P F D → Prop
  | .mk _ condition term => condition.every ∧ term.every

def setsEvery : List (QuantSetExpr S P F D) → Prop
  | [] => True
  | s :: ss => s.every ∧ setsEvery ss

-- every formula in the formula
def Formula.every : Formula S P F D → Prop
  | .pred sign symbol args => p (.pred sign symbol args) ∧ termsEvery args
  | .eqChain sign conj comps terms => p (.eqChain sign conj comps terms) ∧ termsEvery terms
  | .equiv sign l r => p (.equiv sign l r) ∧ l.every ∧ r.every
  | .bool sign conj subs => p (.bool sign conj subs) ∧ formulasEvery subs
  | .quant sign q vars f => p (.quant sign q vars f) ∧ f.every
  | .agg sign bound comp g sets => p (.agg sign bound comp g sets) ∧ bound.every ∧ setsEvery sets

def formulasEvery : List (Formula S P F D) → Prop
  | [] => True
  | f :: fs => f.every ∧ formulasEvery fs

end

variable {p}

theorem termsEvery_iff {ts : List (Term S P F D)} : termsEvery p ts ↔ ∀ t ∈ ts, t.every p := by
  induction ts with
  | nil => simp [termsEvery]
  | cons t ts ih => simp [termsEvery, ih]

theorem setsEvery_iff {ss : List (QuantSetExpr S P F D)} : setsEvery p ss ↔ ∀ s ∈ ss, s.every p := by
  induction ss with
  | nil => simp [setsEvery]
  | cons s ss ih => simp [setsEvery, ih]

theorem formulasEvery_iff {fs : List (Formula S P F D)} : formulasEvery p fs ↔ ∀ f ∈ fs, f.every p := by
  induction fs with
  | nil => simp [formulasEvery]
  | cons f fs ih => simp [formulasEvery, ih]

theorem Formula.every_self {f : Formula S P F D} (h : f.every p) : p f := by
  cases f <;> exact h.1

end Every

-- what a visitor does with a formula whose parts are visited; the number is the next new identifier
structure FormulaVisitor (S P F D : Type) where
  visitEqChain : SIGN → Bool → List CompType → List (Term S P F D) → ℕ → Formula S P F D × ℕ :=
    fun sign conj comps terms n => (.eqChain sign conj comps terms, n)
  visitEquiv : SIGN → Formula S P F D → Formula S P F D → ℕ → Formula S P F D × ℕ :=
    fun sign l r n => (.equiv sign l r, n)
  visitBool : SIGN → Bool → List (Formula S P F D) → Formula S P F D :=
    fun sign conj subs => .bool sign conj subs
  visitQuant : SIGN → QUANT → List (Variable S) → Formula S P F D → Formula S P F D :=
    fun sign q vars f => .quant sign q vars f

namespace FormulaVisitor

variable (V : FormulaVisitor S P F D)

mutual

def visitTerm : Term S P F D → ℕ → Term S P F D × ℕ
  | .var v, n => (.var v, n)
  | .func f args, n =>
    let args := visitTerms args n
    (.func f args.1, args.2)
  | .dom s d, n => (.dom s d, n)
  | .agg g sets, n =>
    let sets := visitSets sets n
    (.agg g sets.1, sets.2)

def visitTerms : List (Term S P F D) → ℕ → List (Term S P F D) × ℕ
  | [], n => ([], n)
  | t :: ts, n =>
    let t := visitTerm t n
    let ts := visitTerms ts t.2
    (t.1 :: ts.1, ts.2)

def visitSet : QuantSetExpr S P F D → ℕ → QuantSetExpr S P F D × ℕ
  | .mk vars condition term, n =>
    let term := visitTerm term n
    let condition := visit condition term.2
    (.mk vars condition.1 term.1, condition.2)

def visitSets : List (QuantSetExpr S P F D) → ℕ → List (QuantSetExpr S P F D) × ℕ
  | [], n => ([], n)
  | s :: ss, n =>
    let s := visitSet s n
    let ss := visitSets ss s.2
    (s.1 :: ss.1, ss.2)

def visit : Formula S P F D → ℕ → Formula S P F D × ℕ
  | .pred sign symbol args, n =>
    let args := visitTerms args n
    (.pred sign symbol args.1, args.2)
  | .eqChain sign conj comps terms, n =>
    let terms := visitTerms terms n
    V.visitEqChain sign conj comps terms.1 terms.2
  | .equiv sign l r, n =>
    let l := visit l n
    let r := visit r l.2
    V.visitEquiv sign l.1 r.1 r.2
  | .bool sign conj subs, n =>
    let subs := visitAll subs n
    (V.visitBool sign conj subs.1, subs.2)
  | .quant sign q vars f, n =>
    let f := visit f n
    (V.visitQuant sign q vars f.1, f.2)
  | .agg sign bound comp g sets, n =>
    let bound := visitTerm bound n
    let sets := visitSets sets bound.2
    (.agg sign bound.1 comp g sets.1, sets.2)

def visitAll : List (Formula S P F D) → ℕ → List (Formula S P F D) × ℕ
  | [], n => ([], n)
  | f :: fs, n =>
    let f := visit f n
    let fs := visitAll fs f.2
    (f.1 :: fs.1, fs.2)

end

variable {V}

section Lists

variable {α : Type} (g : α → ℕ → α × ℕ) (gs : List α → ℕ → List α × ℕ)

theorem mem_visited (hnil : ∀ n, gs [] n = ([], n))
    (hcons : ∀ x l n, gs (x :: l) n = ((g x n).1 :: (gs l (g x n).2).1, (gs l (g x n).2).2))
    {l : List α} {n : ℕ} {x' : α} (h : x' ∈ (gs l n).1) : ∃ x ∈ l, ∃ n, (g x n).1 = x' := by
  induction l generalizing n with
  | nil =>
    rw [hnil] at h
    exact absurd h List.not_mem_nil
  | cons x l ih =>
    rw [hcons] at h
    rcases List.mem_cons.mp h with h | h
    · exact ⟨x, List.mem_cons_self, n, h.symm⟩
    · obtain ⟨y, hy, hy'⟩ := ih h
      exact ⟨y, List.mem_cons_of_mem x hy, hy'⟩

end Lists

theorem mem_visitTerms {ts : List (Term S P F D)} {n : ℕ} {t' : Term S P F D}
    (h : t' ∈ (V.visitTerms ts n).1) : ∃ t ∈ ts, ∃ n, (V.visitTerm t n).1 = t' :=
  mem_visited V.visitTerm V.visitTerms (fun _ => rfl) (fun _ _ _ => rfl) h

theorem mem_visitSets {ss : List (QuantSetExpr S P F D)} {n : ℕ} {s' : QuantSetExpr S P F D}
    (h : s' ∈ (V.visitSets ss n).1) : ∃ s ∈ ss, ∃ n, (V.visitSet s n).1 = s' :=
  mem_visited V.visitSet V.visitSets (fun _ => rfl) (fun _ _ _ => rfl) h

theorem mem_visitAll {fs : List (Formula S P F D)} {n : ℕ} {f' : Formula S P F D}
    (h : f' ∈ (V.visitAll fs n).1) : ∃ f ∈ fs, ∃ n, (V.visit f n).1 = f' :=
  mem_visited V.visit V.visitAll (fun _ => rfl) (fun _ _ _ => rfl) h

section Shape

-- a visitor that makes every formula of one shape into one of another
structure Shapes (V : FormulaVisitor S P F D) (p q : Formula S P F D → Prop) : Prop where
  pred : ∀ sign symbol args, q (.pred sign symbol args)
  eqChain : ∀ {sign conj comps ts} (n), (∃ ts', p (.eqChain sign conj comps ts')) → termsEvery q ts →
    (V.visitEqChain sign conj comps ts n).1.every q
  equiv : ∀ {sign l r} (n), (∃ l' r', p (.equiv sign l' r')) → l.every q → r.every q →
    (V.visitEquiv sign l r n).1.every q
  bool : ∀ {sign conj fs}, (∃ fs', p (.bool sign conj fs')) → formulasEvery q fs →
    (V.visitBool sign conj fs).every q
  quant : ∀ {sign k vars f}, (∃ f', p (.quant sign k vars f')) → f.every q →
    (V.visitQuant sign k vars f).every q
  agg : ∀ sign bound comp g sets, q (.agg sign bound comp g sets)

variable {p q : Formula S P F D → Prop}

theorem Shapes.every (h : V.Shapes p q) :
    (∀ t, t.every p → ∀ n, (V.visitTerm t n).1.every q) ∧
    (∀ s, s.every p → ∀ n, (V.visitSet s n).1.every q) ∧
    ∀ f, f.every p → ∀ n, (V.visit f n).1.every q := by
  have terms : ∀ {ts : List (Term S P F D)}, (∀ t ∈ ts, t.every p → ∀ n, (V.visitTerm t n).1.every q) →
      termsEvery p ts → ∀ n, termsEvery q (V.visitTerms ts n).1 := by
    intro ts ih hts n
    refine termsEvery_iff.mpr fun t' ht' => ?_
    obtain ⟨t, ht, m, rfl⟩ := mem_visitTerms ht'
    exact ih t ht (termsEvery_iff.mp hts t ht) m
  have sets : ∀ {ss : List (QuantSetExpr S P F D)},
      (∀ s ∈ ss, s.every p → ∀ n, (V.visitSet s n).1.every q) →
      setsEvery p ss → ∀ n, setsEvery q (V.visitSets ss n).1 := by
    intro ss ih hss n
    refine setsEvery_iff.mpr fun s' hs' => ?_
    obtain ⟨s, hs, m, rfl⟩ := mem_visitSets hs'
    exact ih s hs (setsEvery_iff.mp hss s hs) m
  have formulas : ∀ {fs : List (Formula S P F D)}, (∀ f ∈ fs, f.every p → ∀ n, (V.visit f n).1.every q) →
      formulasEvery p fs → ∀ n, formulasEvery q (V.visitAll fs n).1 := by
    intro fs ih hfs n
    refine formulasEvery_iff.mpr fun f' hf' => ?_
    obtain ⟨f, hf, m, rfl⟩ := mem_visitAll hf'
    exact ih f hf (formulasEvery_iff.mp hfs f hf) m
  refine Formula.induct ?_ ?_ ?_ ?_ ?_ ?_ ?_ ?_ ?_ ?_ ?_
  · exact fun v _ n => trivial
  · exact fun f args ih hargs n => terms ih hargs n
  · exact fun s d _ n => trivial
  · exact fun g ss ih hss n => sets ih hss n
  · exact fun vars c t ihc iht hs n => ⟨ihc hs.1 _, iht hs.2 _⟩
  · exact fun sign symbol args ih hf n => ⟨h.pred _ _ _, terms ih hf.2 n⟩
  · exact fun sign conj comps ts ih hf n => h.eqChain _ ⟨_, hf.1⟩ (terms ih hf.2 n)
  · exact fun sign l r ihl ihr hf n => h.equiv _ ⟨_, _, hf.1⟩ (ihl hf.2.1 _) (ihr hf.2.2 _)
  · exact fun sign conj fs ih hf n => h.bool ⟨_, hf.1⟩ (formulas ih hf.2 n)
  · exact fun sign k vars f ih hf n => h.quant ⟨_, hf.1⟩ (ih hf.2 n)
  · exact fun sign b comp g ss ihb ih hf n => ⟨h.agg _ _ _ _ _, ihb hf.2.1 n, sets ih hf.2.2 _⟩

end Shape

section Sound

variable [DecidableEq S]

structure Sound (V : FormulaVisitor S P F D) (I : Structure S P F D)
    (ok : PFSymbol S P F → List (Option D) → Prop) : Prop where
  eqChain : ∀ sign conj comps {ts n}, (∀ v ∈ termsFreeVars ts, v.id < n) →
    n ≤ (V.visitEqChain sign conj comps ts n).2 ∧
      (Formula.polar I ok).Keeps (.eqChain sign conj comps ts) (V.visitEqChain sign conj comps ts n).1
  equiv : ∀ sign {l r n}, (∀ v ∈ l.freeVars ++ r.freeVars, v.id < n) →
    n ≤ (V.visitEquiv sign l r n).2 ∧
      (Formula.polar I ok).Keeps (.equiv sign l r) (V.visitEquiv sign l r n).1
  bool : ∀ sign conj fs, (Formula.polar I ok).Keeps (.bool sign conj fs) (V.visitBool sign conj fs)
  quant : ∀ sign q vars f, (Formula.polar I ok).Keeps (.quant sign q vars f) (V.visitQuant sign q vars f)

variable {I : Structure S P F D} {ok : PFSymbol S P F → List (Option D) → Prop}

theorem keeps_list {α β : Type} {K : Kind S D α β} (g : α → ℕ → α × ℕ)
    (gs : List α → ℕ → List α × ℕ) (hnil : ∀ n, gs [] n = ([], n))
    (hcons : ∀ x l n, gs (x :: l) n = ((g x n).1 :: (gs l (g x n).2).1, (gs l (g x n).2).2))
    {l : List α} (hl : ∀ x ∈ l, ∀ n, K.Below n x → n ≤ (g x n).2 ∧ K.Keeps x (g x n).1)
    (n : ℕ) (h : K.list.Below n l) : n ≤ (gs l n).2 ∧ K.list.Keeps l (gs l n).1 := by
  induction l generalizing n with
  | nil =>
    rw [hnil]
    exact ⟨Nat.le_refl n, Kind.Keeps.refl []⟩
  | cons x l ih =>
    obtain ⟨hx, hl⟩ := List.forall_mem_cons.mp hl
    obtain ⟨hbelow, hrest⟩ := List.forall_mem_cons.mp (Kind.below_list_iff.mp h)
    obtain ⟨hle, hkeeps⟩ := hx n hbelow
    obtain ⟨hle', hkeeps'⟩ := ih hl _ ((Kind.below_list_iff.mpr hrest).mono hle)
    rw [hcons]
    exact ⟨Nat.le_trans hle hle', hkeeps.cons hkeeps'⟩

theorem Sound.keeps (hV : V.Sound I ok) :
    (∀ (t : Term S P F D) (n : ℕ), (Term.polar I ok).Below n t →
      n ≤ (V.visitTerm t n).2 ∧ (Term.polar I ok).Keeps t (V.visitTerm t n).1) ∧
    (∀ (s : QuantSetExpr S P F D) (n : ℕ), (QuantSetExpr.polar I ok).Below n s →
      n ≤ (V.visitSet s n).2 ∧ (QuantSetExpr.polar I ok).Keeps s (V.visitSet s n).1) ∧
    ∀ (f : Formula S P F D) (n : ℕ), (Formula.polar I ok).Below n f →
      n ≤ (V.visit f n).2 ∧ (Formula.polar I ok).Keeps f (V.visit f n).1 := by
  have terms : ∀ {ts : List (Term S P F D)}, (∀ t ∈ ts, ∀ n, (Term.polar I ok).Below n t →
      n ≤ (V.visitTerm t n).2 ∧ (Term.polar I ok).Keeps t (V.visitTerm t n).1) →
      ∀ n, (Term.polar I ok).list.Below n ts →
        n ≤ (V.visitTerms ts n).2 ∧ (Term.polar I ok).list.Keeps ts (V.visitTerms ts n).1 :=
    keeps_list V.visitTerm V.visitTerms (fun _ => rfl) fun _ _ _ => rfl
  have sets : ∀ {ss : List (QuantSetExpr S P F D)}, (∀ s ∈ ss, ∀ n, (QuantSetExpr.polar I ok).Below n s →
      n ≤ (V.visitSet s n).2 ∧ (QuantSetExpr.polar I ok).Keeps s (V.visitSet s n).1) →
      ∀ n, (QuantSetExpr.polar I ok).list.Below n ss →
        n ≤ (V.visitSets ss n).2 ∧ (QuantSetExpr.polar I ok).list.Keeps ss (V.visitSets ss n).1 :=
    keeps_list V.visitSet V.visitSets (fun _ => rfl) fun _ _ _ => rfl
  have formulas : ∀ {fs : List (Formula S P F D)}, (∀ f ∈ fs, ∀ n, (Formula.polar I ok).Below n f →
      n ≤ (V.visit f n).2 ∧ (Formula.polar I ok).Keeps f (V.visit f n).1) →
      ∀ n, (Formula.polar I ok).list.Below n fs →
        n ≤ (V.visitAll fs n).2 ∧ (Formula.polar I ok).list.Keeps fs (V.visitAll fs n).1 :=
    keeps_list V.visit V.visitAll (fun _ => rfl) fun _ _ _ => rfl
  refine Formula.induct ?_ ?_ ?_ ?_ ?_ ?_ ?_ ?_ ?_ ?_ ?_
  · exact fun v n _ => ⟨Nat.le_refl n, Kind.Keeps.refl _⟩
  · intro f args ih n h
    obtain ⟨hle, hkeeps⟩ := terms ih n ((binds_func f).below h)
    exact ⟨hle, (binds_func f).keeps hkeeps⟩
  · exact fun s d n _ => ⟨Nat.le_refl n, Kind.Keeps.refl _⟩
  · intro g ss ih n h
    obtain ⟨hle, hkeeps⟩ := sets ih n ((binds_aggTerm g).below h)
    exact ⟨hle, (binds_aggTerm g).keeps hkeeps⟩
  · intro vars c t ihc iht n h
    obtain ⟨ht, hc⟩ := Kind.below_pair_iff.mp ((binds_set vars).below (x := (t, c)) h)
    obtain ⟨hle, hkeeps⟩ := iht n ht
    obtain ⟨hle', hkeeps'⟩ := ihc _ (hc.mono hle)
    exact ⟨Nat.le_trans hle hle', (binds_set vars).keeps (x := (t, c)) (hkeeps.pair hkeeps')⟩
  · intro sign symbol args ih n h
    obtain ⟨hle, hkeeps⟩ := terms ih n ((binds_pred sign symbol).below h)
    exact ⟨hle, (binds_pred sign symbol).keeps hkeeps⟩
  · intro sign conj comps ts ih n h
    obtain ⟨hle, hkeeps⟩ := terms ih n ((binds_eqChain sign conj comps).below h)
    have hnode := (@binds_eqChain S P F D _ I ok sign conj comps).keeps hkeeps
    obtain ⟨hle', hkeeps'⟩ := hV.eqChain sign conj comps
      fun v hv => Nat.lt_of_lt_of_le (h.1 v (hnode.free v hv)) hle
    exact ⟨Nat.le_trans hle hle', hnode.trans hkeeps'⟩
  · intro sign l r ihl ihr n h
    obtain ⟨hl, hr⟩ := Kind.below_pair_iff.mp ((binds_equiv sign).below (x := (l, r)) h)
    obtain ⟨hle, hkeeps⟩ := ihl n hl
    obtain ⟨hle', hkeeps'⟩ := ihr _ (hr.mono hle)
    have hnode := (@binds_equiv S P F D _ I ok sign).keeps (x := (l, r)) (hkeeps.pair hkeeps')
    have hle'' := Nat.le_trans hle hle'
    obtain ⟨hrebuilt, hkeeps''⟩ := hV.equiv sign
      fun v hv => Nat.lt_of_lt_of_le (h.1 v (hnode.free v hv)) hle''
    exact ⟨Nat.le_trans hle'' hrebuilt, hnode.trans hkeeps''⟩
  · intro sign conj fs ih n h
    obtain ⟨hle, hkeeps⟩ := formulas ih n ((binds_bool sign conj).below h)
    exact ⟨hle, ((binds_bool sign conj).keeps hkeeps).trans (hV.bool sign conj _)⟩
  · intro sign q vars f ih n h
    obtain ⟨hle, hkeeps⟩ := ih n ((binds_quant sign q vars).below h)
    exact ⟨hle, ((binds_quant sign q vars).keeps hkeeps).trans (hV.quant sign q vars _)⟩
  · intro sign b comp g ss ihb ih n h
    obtain ⟨hb, hs⟩ := Kind.below_pair_iff.mp ((binds_agg sign comp g).below (x := (b, ss)) h)
    obtain ⟨hle, hkeeps⟩ := ihb n hb
    obtain ⟨hle', hkeeps'⟩ := sets ih _ (hs.mono hle)
    exact ⟨Nat.le_trans hle hle', (binds_agg sign comp g).keeps (x := (b, ss)) (hkeeps.pair hkeeps')⟩

end Sound

end FormulaVisitor

end Theory
