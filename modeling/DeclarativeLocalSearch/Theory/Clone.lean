import DeclarativeLocalSearch.Theory.Polarity

set_option linter.unusedSectionVars false

namespace Theory

open Structure

variable {S P F D : Type} [DecidableEq S]

-- the new variable for a quantified one, when no identifier from n on is in use
def fresh (n : ℕ) (v : Variable S) : Variable S := ⟨n + v.id, v.sort⟩

-- the map of a clone below a quantification of the variables
def renewed (n : ℕ) (vars : List (Variable S)) (ρ : Variable S → Variable S) (v : Variable S) :
    Variable S :=
  if v ∈ vars then fresh n v else ρ v

mutual

def Term.clone : Term S P F D → (Variable S → Variable S) → ℕ → Term S P F D × ℕ
  | .var v, ρ, n => (.var (ρ v), n)
  | .func f args, ρ, n =>
    let args := cloneTerms args ρ n
    (.func f args.1, args.2)
  | .dom s d, _, n => (.dom s d, n)
  | .agg g sets, ρ, n =>
    let sets := cloneSets sets ρ n
    (.agg g sets.1, sets.2)

def cloneTerms : List (Term S P F D) → (Variable S → Variable S) → ℕ → List (Term S P F D) × ℕ
  | [], _, n => ([], n)
  | t :: ts, ρ, n =>
    let t := t.clone ρ n
    let ts := cloneTerms ts ρ t.2
    (t.1 :: ts.1, ts.2)

def QuantSetExpr.clone :
    QuantSetExpr S P F D → (Variable S → Variable S) → ℕ → QuantSetExpr S P F D × ℕ
  | .mk vars condition term, ρ, n =>
    let term := term.clone (renewed n vars ρ) (n + firstFree vars)
    let condition := condition.clone (renewed n vars ρ) term.2
    (.mk (vars.map (fresh n)) condition.1 term.1, condition.2)

def cloneSets :
    List (QuantSetExpr S P F D) → (Variable S → Variable S) → ℕ → List (QuantSetExpr S P F D) × ℕ
  | [], _, n => ([], n)
  | s :: ss, ρ, n =>
    let s := s.clone ρ n
    let ss := cloneSets ss ρ s.2
    (s.1 :: ss.1, ss.2)

def Formula.clone : Formula S P F D → (Variable S → Variable S) → ℕ → Formula S P F D × ℕ
  | .pred sign symbol args, ρ, n =>
    let args := cloneTerms args ρ n
    (.pred sign symbol args.1, args.2)
  | .eqChain sign conj comps terms, ρ, n =>
    let terms := cloneTerms terms ρ n
    (.eqChain sign conj comps terms.1, terms.2)
  | .equiv sign l r, ρ, n =>
    let l := l.clone ρ n
    let r := r.clone ρ l.2
    (.equiv sign l.1 r.1, r.2)
  | .bool sign conj subs, ρ, n =>
    let subs := cloneFormulas subs ρ n
    (.bool sign conj subs.1, subs.2)
  | .quant sign q vars f, ρ, n =>
    let f := f.clone (renewed n vars ρ) (n + firstFree vars)
    (.quant sign q (vars.map (fresh n)) f.1, f.2)
  | .agg sign bound comp g sets, ρ, n =>
    let bound := bound.clone ρ n
    let sets := cloneSets sets ρ bound.2
    (.agg sign bound.1 comp g sets.1, sets.2)

def cloneFormulas :
    List (Formula S P F D) → (Variable S → Variable S) → ℕ → List (Formula S P F D) × ℕ
  | [], _, n => ([], n)
  | f :: fs, ρ, n =>
    let f := f.clone ρ n
    let fs := cloneFormulas fs ρ f.2
    (f.1 :: fs.1, fs.2)

end

section Renew

variable {I : Structure S P F D} {n : ℕ} {vars : List (Variable S)} {ρ : Variable S → Variable S}

theorem mem_fresh {v : Variable S} (h : v ∈ vars.map (fresh n)) :
    n ≤ v.id ∧ v.id < n + firstFree vars ∧ (⟨v.id - n, v.sort⟩ : Variable S) ∈ vars := by
  obtain ⟨w, hw, rfl⟩ := List.mem_map.mp h
  have hlt := lt_firstFree hw
  refine ⟨Nat.le_add_right _ _, Nat.add_lt_add_left hlt n, ?_⟩
  simpa only [fresh, Nat.add_sub_cancel_left] using hw

def renew (I : Structure S P F D) (n : ℕ) (vars : List (Variable S)) :
    I.Tuple vars ≃ I.Tuple (vars.map (fresh n)) where
  toFun a := ⟨fun w => a.1 ⟨⟨w.1.id - n, w.1.sort⟩, (mem_fresh w.2).2.2⟩,
    fun w => a.2 ⟨⟨w.1.id - n, w.1.sort⟩, (mem_fresh w.2).2.2⟩⟩
  invFun b := ⟨fun v => b.1 ⟨fresh n v.1, List.mem_map_of_mem v.2⟩, fun v => b.2 ⟨fresh n v.1, _⟩⟩
  left_inv a := Subtype.ext (funext fun v => congrArg a.1 (Subtype.ext (by simp [fresh])))
  right_inv b := Subtype.ext (funext fun w => congrArg b.1 (Subtype.ext (by
    obtain ⟨v, -, hv⟩ := List.mem_map.mp w.2
    simp [← hv, fresh])))

theorem extend_renew {e : Variable S → D} (a : I.Tuple vars) {v : Variable S}
    (h : v ∉ vars → (ρ v).id < n) :
    I.extend e (renew I n vars a) (renewed n vars ρ v) = I.extend (fun v => e (ρ v)) a v := by
  by_cases hv : v ∈ vars
  · rw [renewed, if_pos hv, extend_of_mem (List.mem_map_of_mem hv), extend_of_mem hv]
    refine congrArg a.1 (Subtype.ext ?_)
    simp only [fresh, Nat.add_sub_cancel_left]
  · rw [renewed, if_neg hv, extend_of_not_mem hv, extend_of_not_mem]
    exact fun hmem => absurd (h hv) (Nat.not_lt.mpr (mem_fresh hmem).1)

end Renew

namespace Kind

variable {α β γ δ : Type} {K : Kind S D α β} {L : Kind S D γ δ} {n n' n'' : ℕ}
  {ρ : Variable S → Variable S}

structure Clones (K : Kind S D α β) (ρ : Variable S → Variable S) (n : ℕ) (x : α) (n' : ℕ) (x' : α) :
    Prop where
  le : n ≤ n'
  free : ∀ w ∈ K.free x', ∃ v ∈ K.free x, ρ v = w
  bound : ∀ w ∈ K.bound x', n ≤ w.id ∧ w.id < n'
  meaning : (∀ v ∈ K.free x, (ρ v).id < n) → ∀ e, K.meaning x' e = K.meaning x fun v => e (ρ v)

theorem Clones.nil : K.list.Clones ρ n [] n [] where
  le := Nat.le_refl n
  free _ hw := absurd hw List.not_mem_nil
  bound _ hw := absurd hw List.not_mem_nil
  meaning _ _ := rfl

theorem Clones.pair {x x' : α} {y y' : γ} (h : K.Clones ρ n x n' x') (h' : L.Clones ρ n' y n'' y') :
    (K.pair L).Clones ρ n (x, y) n'' (x', y') where
  le := Nat.le_trans h.le h'.le
  free w hw := by
    rcases List.mem_append.mp hw with hw | hw
    · obtain ⟨v, hv, hvw⟩ := h.free w hw
      exact ⟨v, List.mem_append_left _ hv, hvw⟩
    · obtain ⟨v, hv, hvw⟩ := h'.free w hw
      exact ⟨v, List.mem_append_right _ hv, hvw⟩
  bound w hw := by
    rcases List.mem_append.mp hw with hw | hw
    · exact ⟨(h.bound w hw).1, Nat.lt_of_lt_of_le (h.bound w hw).2 h'.le⟩
    · exact ⟨Nat.le_trans h.le (h'.bound w hw).1, (h'.bound w hw).2⟩
  meaning hρ e := congrArg₂ Prod.mk (h.meaning (fun v hv => hρ v (List.mem_append_left _ hv)) e)
    (h'.meaning (fun v hv => Nat.lt_of_lt_of_le (hρ v (List.mem_append_right _ hv)) h.le) e)

theorem Clones.cons {x x' : α} {l l' : List α} (h : K.Clones ρ n x n' x')
    (h' : K.list.Clones ρ n' l n'' l') : K.list.Clones ρ n (x :: l) n'' (x' :: l') where
  le := (h.pair h').le
  free := (h.pair h').free
  bound := (h.pair h').bound
  meaning hρ e := by
    obtain ⟨hx, hl⟩ := Prod.mk.inj ((h.pair h').meaning hρ e)
    exact congrArg₂ List.cons hx hl

theorem Binds.clones {I : Structure S P F D} {c : α → γ} (b : Binds I K L [] c) {x x' : α}
    (h : K.Clones ρ n x n' x') : L.Clones ρ n (c x) n' (c x') where
  le := h.le
  free w hw := by
    obtain ⟨v, hv, hvw⟩ := h.free w ((b.free x' w).mp hw).1
    exact ⟨v, (b.free x v).mpr ⟨hv, List.not_mem_nil⟩, hvw⟩
  bound w hw := h.bound w (((b.bound x' w).mp hw).resolve_left List.not_mem_nil)
  meaning hρ e := b.meaning x' x e _ fun a => by
    rw [extend_nil, extend_nil]
    exact h.meaning (fun v hv => hρ v ((b.free x v).mpr ⟨hv, List.not_mem_nil⟩)) e

-- a constructor that binds any variables, whatever their names
structure Binder (I : Structure S P F D) (K : Kind S D α β) (L : Kind S D γ δ)
    (c : List (Variable S) → α → γ) : Prop where
  binds : ∀ vars, Binds I K L vars (c vars)
  transport : ∀ {vars vars'} (σ : I.Tuple vars ≃ I.Tuple vars') {x x' e e'},
    (∀ a, K.meaning x (I.extend e a) = K.meaning x' (I.extend e' (σ a))) →
      L.meaning (c vars x) e = L.meaning (c vars' x') e'

theorem Binder.clones {I : Structure S P F D} {c : List (Variable S) → α → γ} (b : Binder I K L c)
    (hK : K.Local) {vars : List (Variable S)} {x x' : α}
    (h : K.Clones (renewed n vars ρ) (n + firstFree vars) x n' x') :
    L.Clones ρ n (c vars x) n' (c (vars.map (fresh n)) x') where
  le := Nat.le_trans (Nat.le_add_right _ _) h.le
  free w hw := by
    obtain ⟨hw, hnew⟩ := ((b.binds _).free x' w).mp hw
    obtain ⟨v, hv, hvw⟩ := h.free w hw
    have hvar : v ∉ vars := fun hvar => hnew (by
      rw [← hvw, renewed, if_pos hvar]
      exact List.mem_map_of_mem hvar)
    rw [renewed, if_neg hvar] at hvw
    exact ⟨v, ((b.binds _).free x v).mpr ⟨hv, hvar⟩, hvw⟩
  bound w hw := by
    rcases ((b.binds _).bound x' w).mp hw with hw | hw
    · exact ⟨(mem_fresh hw).1, Nat.lt_of_lt_of_le (mem_fresh hw).2.1 h.le⟩
    · exact ⟨Nat.le_trans (Nat.le_add_right _ _) (h.bound w hw).1, (h.bound w hw).2⟩
  meaning hρ e := by
    have hold : ∀ v ∈ K.free x, v ∉ vars → (ρ v).id < n := fun v hv hvar =>
      hρ v (((b.binds _).free x v).mpr ⟨hv, hvar⟩)
    have hlt : ∀ v ∈ K.free x, (renewed n vars ρ v).id < n + firstFree vars := by
      intro v hv
      unfold renewed
      split_ifs with hvar
      · exact Nat.add_lt_add_left (lt_firstFree hvar) n
      · exact Nat.lt_of_lt_of_le (hold v hv hvar) (Nat.le_add_right _ _)
    refine (b.transport (renew I n vars) fun a => ?_).symm
    rw [h.meaning hlt]
    exact hK x _ _ fun v hv => (extend_renew a (hold v hv)).symm

end Kind

theorem clones_list {α β : Type} {K : Kind S D α β} (g : α → (Variable S → Variable S) → ℕ → α × ℕ)
    (gs : List α → (Variable S → Variable S) → ℕ → List α × ℕ) (hnil : ∀ ρ n, gs [] ρ n = ([], n))
    (hcons : ∀ x l ρ n, gs (x :: l) ρ n = ((g x ρ n).1 :: (gs l ρ (g x ρ n).2).1, (gs l ρ (g x ρ n).2).2))
    {l : List α} (hl : ∀ x ∈ l, ∀ ρ n, K.Clones ρ n x (g x ρ n).2 (g x ρ n).1)
    (ρ : Variable S → Variable S) (n : ℕ) : K.list.Clones ρ n l (gs l ρ n).2 (gs l ρ n).1 := by
  induction l generalizing n with
  | nil =>
    rw [hnil]
    exact Kind.Clones.nil
  | cons x l ih =>
    obtain ⟨hx, hl⟩ := List.forall_mem_cons.mp hl
    rw [hcons]
    exact (hx ρ n).cons (ih hl _)

namespace Kind

variable {β γ δ : Type} {T : Kind S D (Term S P F D) β} {Q : Kind S D (QuantSetExpr S P F D) γ}
  {L : Kind S D (Formula S P F D) δ}

-- kinds for the terms, the sets and the formulas, with a meaning that is put together from the parts
structure Expressions (I : Structure S P F D) (T : Kind S D (Term S P F D) β) (Q : Kind S D (QuantSetExpr S P F D) γ)
    (L : Kind S D (Formula S P F D) δ) : Prop where
  freeVar : ∀ v, T.free (.var v) = [v]
  boundVar : ∀ v, T.bound (.var v) = []
  var : ∀ v v' e e', e v = e' v' → T.meaning (.var v) e = T.meaning (.var v') e'
  freeDom : ∀ s d, T.free (.dom s d) = []
  boundDom : ∀ s d, T.bound (.dom s d) = []
  dom : ∀ s d e e', T.meaning (.dom s d) e = T.meaning (.dom s d) e'
  func : ∀ f, Binds I T.list T [] (.func f)
  aggTerm : ∀ g, Binds I Q.list T [] (.agg g)
  set : Binder I (T.pair L) Q (fun vars (x : Term S P F D × Formula S P F D) => .mk vars x.2 x.1)
  pred : ∀ sign symbol, Binds I T.list L [] (.pred sign symbol)
  eqChain : ∀ sign conj comps, Binds I T.list L [] (.eqChain sign conj comps)
  equiv : ∀ sign, Binds I (L.pair L) L [] (fun x : Formula S P F D × Formula S P F D => .equiv sign x.1 x.2)
  bool : ∀ sign conj, Binds I L.list L [] (.bool sign conj)
  quant : ∀ sign q, Binder I L L (.quant sign q)
  agg : ∀ sign comp g, Binds I (T.pair Q.list) L []
    (fun x : Term S P F D × List (QuantSetExpr S P F D) => .agg sign x.1 comp g x.2)

theorem Expressions.local {I : Structure S P F D} (h : Expressions I T Q L) : T.Local ∧ Q.Local ∧ L.Local := by
  refine Formula.induct ?_ ?_ ?_ ?_ ?_ ?_ ?_ ?_ ?_ ?_ ?_
  · exact fun v e e' he => h.var v v e e' (he v (h.freeVar v ▸ List.mem_singleton_self v))
  · exact fun f args ih => (h.func f).local (Local.list ih)
  · exact fun s d e e' _ => h.dom s d e e'
  · exact fun g sets ih => (h.aggTerm g).local (Local.list ih)
  · intro vars c t ihc iht
    refine (h.set.binds vars).local (x := (t, c)) fun e e' he => ?_
    exact Prod.ext (iht e e' fun v hv => he v (List.mem_append_left _ hv))
      (ihc e e' fun v hv => he v (List.mem_append_right _ hv))
  · exact fun sign symbol args ih => (h.pred sign symbol).local (Local.list ih)
  · exact fun sign conj comps terms ih => (h.eqChain sign conj comps).local (Local.list ih)
  · intro sign l r ihl ihr
    refine (h.equiv sign).local (x := (l, r)) fun e e' he => ?_
    exact Prod.ext (ihl e e' fun v hv => he v (List.mem_append_left _ hv))
      (ihr e e' fun v hv => he v (List.mem_append_right _ hv))
  · exact fun sign conj fs ih => (h.bool sign conj).local (Local.list ih)
  · exact fun sign q vars f ih => ((h.quant sign q).binds vars).local ih
  · intro sign b comp g ss ihb ih
    refine (h.agg sign comp g).local (x := (b, ss)) fun e e' he => ?_
    exact Prod.ext (ihb e e' fun v hv => he v (List.mem_append_left _ hv))
      (Local.list ih e e' fun v hv => he v (List.mem_append_right _ hv))

theorem Expressions.clones {I : Structure S P F D} (h : Expressions I T Q L) :
    (∀ (t : Term S P F D) ρ n, T.Clones ρ n t (t.clone ρ n).2 (t.clone ρ n).1) ∧
    (∀ (s : QuantSetExpr S P F D) ρ n, Q.Clones ρ n s (s.clone ρ n).2 (s.clone ρ n).1) ∧
    ∀ (f : Formula S P F D) ρ n, L.Clones ρ n f (f.clone ρ n).2 (f.clone ρ n).1 := by
  obtain ⟨hterm, -, hformula⟩ := h.local
  have hpair : (T.pair L).Local := fun x e e' h =>
    Prod.ext (hterm x.1 e e' fun v hv => h v (List.mem_append_left _ hv))
      (hformula x.2 e e' fun v hv => h v (List.mem_append_right _ hv))
  have terms : ∀ {ts : List (Term S P F D)},
      (∀ t ∈ ts, ∀ ρ n, T.Clones ρ n t (t.clone ρ n).2 (t.clone ρ n).1) →
      ∀ ρ n, T.list.Clones ρ n ts (cloneTerms ts ρ n).2 (cloneTerms ts ρ n).1 :=
    clones_list Term.clone cloneTerms (fun _ _ => rfl) fun _ _ _ _ => rfl
  have sets : ∀ {ss : List (QuantSetExpr S P F D)},
      (∀ s ∈ ss, ∀ ρ n, Q.Clones ρ n s (s.clone ρ n).2 (s.clone ρ n).1) →
      ∀ ρ n, Q.list.Clones ρ n ss (cloneSets ss ρ n).2 (cloneSets ss ρ n).1 :=
    clones_list QuantSetExpr.clone cloneSets (fun _ _ => rfl) fun _ _ _ _ => rfl
  have formulas : ∀ {fs : List (Formula S P F D)},
      (∀ f ∈ fs, ∀ ρ n, L.Clones ρ n f (f.clone ρ n).2 (f.clone ρ n).1) →
      ∀ ρ n, L.list.Clones ρ n fs (cloneFormulas fs ρ n).2 (cloneFormulas fs ρ n).1 :=
    clones_list Formula.clone cloneFormulas (fun _ _ => rfl) fun _ _ _ _ => rfl
  refine Formula.induct ?_ ?_ ?_ ?_ ?_ ?_ ?_ ?_ ?_ ?_ ?_
  · intro v ρ n
    refine ⟨Nat.le_refl n, fun w hw => ⟨v, ?_, ?_⟩, fun w hw => ?_, fun _ e => h.var _ _ _ _ rfl⟩
    · rw [h.freeVar]
      exact List.mem_singleton_self v
    · rw [Term.clone, h.freeVar] at hw
      exact (List.mem_singleton.mp hw).symm
    · rw [Term.clone, h.boundVar] at hw
      exact absurd hw List.not_mem_nil
  · exact fun f args ih ρ n => (h.func f).clones (terms ih ρ n)
  · intro s d ρ n
    refine ⟨Nat.le_refl n, fun w hw => ?_, fun w hw => ?_, fun _ e => h.dom _ _ _ _⟩
    · rw [Term.clone, h.freeDom] at hw
      exact absurd hw List.not_mem_nil
    · rw [Term.clone, h.boundDom] at hw
      exact absurd hw List.not_mem_nil
  · exact fun g ss ih ρ n => (h.aggTerm g).clones (sets ih ρ n)
  · exact fun vars c t ihc iht ρ n => h.set.clones hpair (x := (t, c)) ((iht _ _).pair (ihc _ _))
  · exact fun sign symbol args ih ρ n => (h.pred sign symbol).clones (terms ih ρ n)
  · exact fun sign conj comps ts ih ρ n => (h.eqChain sign conj comps).clones (terms ih ρ n)
  · exact fun sign l r ihl ihr ρ n => (h.equiv sign).clones (x := (l, r)) ((ihl ρ n).pair (ihr ρ _))
  · exact fun sign conj fs ih ρ n => (h.bool sign conj).clones (formulas ih ρ n)
  · exact fun sign q vars f ih ρ n => (h.quant sign q).clones hformula (ih _ _)
  · exact fun sign b comp g ss ihb ih ρ n =>
      (h.agg sign comp g).clones (x := (b, ss)) ((ihb ρ n).pair (sets ih ρ _))

end Kind

section Holds

variable {I : Structure S P F D} {ok : PFSymbol S P F → List (Option D) → Prop}

theorem binder_set : Kind.Binder I ((Term.polar I ok).pair (Formula.polar I ok)) (QuantSetExpr.polar I ok)
    (fun vars (x : Term S P F D × Formula S P F D) => .mk vars x.2 x.1) where
  binds := binds_set
  transport := by
    intro vars vars' σ x x' e e' h
    have hpair := fun a => Prod.mk.inj (h a)
    have hvalue := fun a => (Prod.mk.inj (hpair a).1)
    have hcondition := fun a => polar_holds (hpair a).2
    refine Prod.ext (funext fun d => ?_) (propext ?_)
    · refine ENat.card_congr (σ.subtypeEquiv fun a => ?_)
      rw [(hcondition a).1, (hvalue a).1]
    · exact σ.forall_congr fun a => and_congr ((hcondition a).2 .pos) (iff_of_eq (hvalue a).2)

theorem binder_quant (sign : SIGN) (q : QUANT) :
    Kind.Binder I (Formula.polar I ok) (Formula.polar I ok) (.quant sign q) where
  binds := binds_quant sign q
  transport := by
    intro vars vars' σ f f' e e' h
    have hsub := fun a => polar_holds (h a)
    refine polar_ext ?_ fun outer => σ.forall_congr fun a => (hsub a).2 _
    cases q
    · exact iff_of_eq (congrArg sign.apply (propext (σ.forall_congr fun a => (hsub a).1)))
    · exact iff_of_eq (congrArg sign.apply (propext (σ.exists_congr fun a => (hsub a).1)))

theorem polar_expressions : Kind.Expressions I (Term.polar I ok) (QuantSetExpr.polar I ok) (Formula.polar I ok) where
  freeVar _ := rfl
  boundVar _ := rfl
  var _ _ _ _ h := Prod.ext (congrArg some h) rfl
  freeDom _ _ := rfl
  boundDom _ _ := rfl
  dom _ _ _ _ := rfl
  func := binds_func
  aggTerm := binds_aggTerm
  set := binder_set
  pred := binds_pred
  eqChain := binds_eqChain
  equiv := binds_equiv
  bool := binds_bool
  quant := binder_quant
  agg := binds_agg

theorem polar_local : (Term.polar I ok).Local ∧ (QuantSetExpr.polar I ok).Local ∧ (Formula.polar I ok).Local :=
  polar_expressions.local

theorem clones :
    (∀ (t : Term S P F D) ρ n, (Term.polar I ok).Clones ρ n t (t.clone ρ n).2 (t.clone ρ n).1) ∧
    (∀ (s : QuantSetExpr S P F D) ρ n,
      (QuantSetExpr.polar I ok).Clones ρ n s (s.clone ρ n).2 (s.clone ρ n).1) ∧
    ∀ (f : Formula S P F D) ρ n, (Formula.polar I ok).Clones ρ n f (f.clone ρ n).2 (f.clone ρ n).1 :=
  polar_expressions.clones

end Holds

end Theory
