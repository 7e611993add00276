import DeclarativeLocalSearch.Theory.PushQuantificationsHolds

namespace Theory

variable {S P F D : Type}

def Formula.sign : Formula S P F D → SIGN
  | .pred sign _ _ => sign
  | .eqChain sign _ _ _ => sign
  | .equiv sign _ _ => sign
  | .bool sign _ _ => sign
  | .quant sign _ _ _ => sign
  | .agg sign _ _ _ _ => sign

mutual

def Formula.height : Formula S P F D → ℕ
  | .bool _ _ subs => heights subs + 1
  | .quant _ _ _ f => f.height + 1
  | .pred _ _ _ => 0
  | .eqChain _ _ _ _ => 0
  | .equiv _ _ _ => 0
  | .agg _ _ _ _ _ => 0

def heights : List (Formula S P F D) → ℕ
  | [] => 0
  | f :: fs => max f.height (heights fs)

end

section Substitute

variable (ρ : Variable S → Variable S)

mutual

theorem height_substitute : (f : Formula S P F D) → (f.substituteVarWithVar ρ).height = f.height
  | .bool sign conj subs => by
    rw [Formula.substituteVarWithVar, Formula.height, Formula.height, heights_substitute subs]
  | .quant sign q vars f => by
    rw [Formula.substituteVarWithVar, Formula.height, Formula.height, height_substitute f]
  | .pred _ _ _ => rfl
  | .eqChain _ _ _ _ => rfl
  | .equiv _ _ _ => rfl
  | .agg _ _ _ _ _ => rfl

theorem heights_substitute : (fs : List (Formula S P F D)) → heights (substituteFormulas ρ fs) = heights fs
  | [] => rfl
  | f :: fs => by
    rw [substituteFormulas, heights, heights, height_substitute f, heights_substitute fs]

end

end Substitute

def QUANT.ofUniv : Bool → QUANT
  | true => .univ
  | false => .exist

namespace PushQuantificationsCompletely

variable [DecidableEq S]

-- the variable that a subformula gets is v for the first one that contains v, and then a new one
def copied (renew : Bool) (v : Variable S) (f : Formula S P F D) (n : ℕ) :
    Variable S × Formula S P F D × ℕ :=
  if renew then (⟨n, v.sort⟩, f.substituteVarWithVar (replace v ⟨n, v.sort⟩), n + 1) else (v, f, n)

theorem height_copied (renew : Bool) (v : Variable S) (f : Formula S P F D) (n : ℕ) :
    (copied renew v f n).2.1.height = f.height := by
  unfold copied
  split_ifs
  · exact height_substitute _ f
  · rfl

theorem lex_of_le {a b x y : ℕ} (hab : a ≤ b) (hxy : x < y) :
    Prod.Lex (· < ·) (· < ·) (a, x) (b, y) := by
  rcases Nat.lt_or_eq_of_le hab with hlt | rfl
  · exact Prod.Lex.left _ _ hlt
  · exact Prod.Lex.right _ hxy

mutual

-- none where the variable is not pushable, and nothing has changed then
def pushQuantifiedVariableThrough (v : Variable S) (univ : Bool) (f : Formula S P F D) (n : ℕ) :
    Option (Formula S P F D × ℕ) :=
  if f.sign = .neg then none
  else if v ∉ f.freeVars then some (f, n)
  else
    match f with
    | .quant sign q vars sub =>
      if q.isUniv ≠ univ then none
      else
        match pushQuantifiedVariableThrough v univ sub n with
        | some (sub, n) => some (.quant sign q vars sub, n)
        | none => some (.quant sign q (vars ∪ [v]) sub, n)
    | .bool sign conj subs =>
      let childs := subs.filter (v ∈ ·.freeVars)
      let siblings := subs.filter (v ∉ ·.freeVars)
      if conj = univ then
        let subs := pushThroughAll v univ false subs n
        some (.bool sign conj subs.1, subs.2)
      else if siblings = [] then none
      else if childs.length = 1 then
        let subs := pushThroughAll v univ false subs n
        some (.bool sign conj subs.1, subs.2)
      else some (.bool sign conj
        (siblings ++ [.quant .pos (.ofUniv univ) [v] (.bool .pos conj childs)]), n)
    | _ => none
termination_by (f.height, 0)
decreasing_by
  all_goals exact Prod.Lex.left _ _ (Nat.lt_succ_self _)

def pushThroughAll (v : Variable S) (univ renew : Bool) (subs : List (Formula S P F D)) (n : ℕ) :
    List (Formula S P F D) × ℕ :=
  match subs with
  | [] => ([], n)
  | f :: fs =>
    if v ∈ f.freeVars then
      let copy := copied renew v f n
      let sub := (pushQuantifiedVariableThrough copy.1 univ copy.2.1 copy.2.2).getD
        (.quant .pos (.ofUniv univ) [copy.1] copy.2.1, copy.2.2)
      let subs := pushThroughAll v univ true fs sub.2
      (sub.1 :: subs.1, subs.2)
    else
      let subs := pushThroughAll v univ renew fs n
      (f :: subs.1, subs.2)
termination_by (heights subs, subs.length + 1)
decreasing_by
  · rw [height_copied]
    exact lex_of_le (Nat.le_max_left _ _) (Nat.succ_pos _)
  · exact lex_of_le (Nat.le_max_right _ _) (Nat.lt_succ_self _)
  · exact lex_of_le (Nat.le_max_right _ _) (Nat.lt_succ_self _)

end

variable (order : SetOrder S)

def readdVars (univ : Bool) : List (Variable S) → Formula S P F D → ℕ → Formula S P F D × ℕ
  | [], qf, n => (qf, n)
  | v :: vs, qf, n =>
    let qf := (pushQuantifiedVariableThrough v univ qf n).getD (qf, n)
    readdVars univ vs qf.1 qf.2

def visitQuant (sign : SIGN) (q : QUANT) (vars : List (Variable S)) (_ sub : Formula S P F D) (n : ℕ) :
    Formula S P F D × ℕ :=
  let qf := readdVars q.isUniv (order.elements vars) (.quant sign q [] sub) n
  match qf.1 with
  | .quant _ _ [] sub => flatten sub qf.2
  | f => flatten f qf.2

def visitor : TheoryMutatingVisitor S P F D where
  visitBool sign conj subs n := (.bool sign conj subs, n)
  visitQuant := visitQuant order

-- the visitor with its result left aside: a quantification stays at the top
def visitInPlace : Formula S P F D → ℕ → Formula S P F D × ℕ
  | .quant sign q vars sub, n =>
    let sub := (visitor order).visit sub n
    let qf := readdVars q.isUniv (order.elements vars) (.quant sign q [] sub.1) sub.2
    match qf.1 with
    | .quant sign q [] sub =>
      let sub := flatten sub qf.2
      (.quant sign q [] sub.1, sub.2)
    | f => flatten f qf.2
  | f, n => (visitor order).visit f n

end PushQuantificationsCompletely

end Theory

namespace Theory

namespace PushQuantificationsCompletely

open PushQuantifications (mem_filter_or)

variable {S P F D : Type} [DecidableEq S] {I : Structure S P F D} {used : S → Prop} {n : ℕ}
  {univ : Bool} {v : Variable S}

theorem isUniv_ofUniv (univ : Bool) : (QUANT.ofUniv univ).isUniv = univ := by
  cases univ <;> rfl

theorem ofUniv_isUniv (q : QUANT) : QUANT.ofUniv q.isUniv = q := by
  cases q <;> rfl

-- the variable is quantified in the formulas it occurs in
def marked (univ : Bool) (v : Variable S) (f : Formula S P F D) : Formula S P F D :=
  if v ∈ f.freeVars then .quant .pos (.ofUniv univ) [v] f else f

theorem copied_becomes (renew : Bool) {q : QUANT} {f : Formula S P F D}
    (h : (Formula.kind I).Fit used n (.quant .pos q [v] f)) :
    (Formula.kind I).Becomes used n (.quant .pos q [v] f) (copied renew v f n).2.2
      (.quant .pos q [(copied renew v f n).1] (copied renew v f n).2.1) := by
  unfold copied
  split_ifs
  · exact quant_fresh h
  · exact Kind.Becomes.refl h

def Pushes (I : Structure S P F D) (used : S → Prop) (univ : Bool) (f : Formula S P F D) : Prop :=
  ∀ v n r, (Formula.kind I).Fit used n (.quant .pos (.ofUniv univ) [v] f) →
    pushQuantifiedVariableThrough v univ f n = some r →
    (Formula.kind I).Becomes used n (.quant .pos (.ofUniv univ) [v] f) r.2 r.1

theorem pushThroughAll_becomes {k : ℕ} (hpush : ∀ f : Formula S P F D, f.height < k → Pushes I used univ f)
    {subs : List (Formula S P F D)} (hk : heights subs < k) (renew : Bool) (n : ℕ)
    (h : (Formula.kind I).list.Fit used n (subs.map (marked univ v))) :
    (Formula.kind I).list.Becomes used n (subs.map (marked univ v))
      (pushThroughAll v univ renew subs n).2 (pushThroughAll v univ renew subs n).1 := by
  induction subs generalizing renew n with
  | nil =>
    rw [pushThroughAll]
    exact Kind.Becomes.refl h
  | cons f fs ih =>
    obtain ⟨hf, hfs⟩ := List.forall_mem_cons.mp (Kind.fit_list_iff.mp h)
    have hheight : f.height < k := Nat.lt_of_le_of_lt (Nat.le_max_left _ _) hk
    have hheights : heights fs < k := Nat.lt_of_le_of_lt (Nat.le_max_right _ _) hk
    rw [List.map_cons]
    by_cases hv : v ∈ f.freeVars
    · rw [pushThroughAll, if_pos hv]
      rw [marked, if_pos hv] at hf ⊢
      have hcopy := copied_becomes renew hf
      have hsub : (Formula.kind I).Becomes used n (.quant .pos (.ofUniv univ) [v] f)
          ((pushQuantifiedVariableThrough (copied renew v f n).1 univ (copied renew v f n).2.1
            (copied renew v f n).2.2).getD (.quant .pos (.ofUniv univ) [(copied renew v f n).1]
              (copied renew v f n).2.1, (copied renew v f n).2.2)).2
          ((pushQuantifiedVariableThrough (copied renew v f n).1 univ (copied renew v f n).2.1
            (copied renew v f n).2.2).getD (.quant .pos (.ofUniv univ) [(copied renew v f n).1]
              (copied renew v f n).2.1, (copied renew v f n).2.2)).1 := by
        cases hr : pushQuantifiedVariableThrough (copied renew v f n).1 univ (copied renew v f n).2.1
            (copied renew v f n).2.2 with
        | none => exact hcopy
        | some r =>
          exact hcopy.trans (hpush _ ((height_copied renew v f n).symm ▸ hheight) _ _ r hcopy.fit hr)
      exact hsub.cons (ih hheights true _ ((Kind.fit_list_iff.mpr hfs).mono hsub.le))
    · rw [pushThroughAll, if_neg hv]
      rw [marked, if_neg hv] at hf ⊢
      exact (Kind.Becomes.refl hf).cons (ih hheights renew n (Kind.fit_list_iff.mpr hfs))

theorem marked_of_same {fs : List (Formula S P F D)} (hne : ∀ s, used s → ∃ d, I.sort s d)
    (h : (Formula.kind I).Fit used n (.quant .pos (.ofUniv univ) [v] (.bool .pos univ fs))) :
    (Formula.kind I).Becomes used n (.quant .pos (.ofUniv univ) [v] (.bool .pos univ fs)) n
      (.bool .pos univ (fs.map (marked univ v))) := by
  have hdistribute := quant_distribute (isUniv_ofUniv univ) h
  refine hdistribute.trans (bool_congr hdistribute.fit ?_)
  have hfs := List.forall_mem_map.mp (fit_bool_iff.mp hdistribute.fit)
  clear h hdistribute
  induction fs with
  | nil => exact Kind.Becomes.refl (Kind.fit_list_iff.mpr fun _ hf => absurd hf List.not_mem_nil)
  | cons f fs ih =>
    obtain ⟨hf, hfs⟩ := List.forall_mem_cons.mp hfs
    refine Kind.Becomes.cons ?_ (ih hfs)
    rw [marked]
    split_ifs with hv
    · exact Kind.Becomes.refl hf
    · exact quant_irrelevant hf (fun w hw => hne _ ((fit_quant_iff.mp hf).2 w hw).2.2)
        fun w hw => List.mem_singleton.mp hw ▸ hv

theorem mem_marked_iff {fs : List (Formula S P F D)} {g : Formula S P F D}
    (hone : fs.filter (fun f => v ∈ f.freeVars) = [g]) (f : Formula S P F D) :
    f ∈ fs.filter (fun f => v ∉ f.freeVars) ++ [.quant .pos (.ofUniv univ) [v] g] ↔
      f ∈ fs.map (marked univ v) := by
  have hg : ∀ f, f = g ↔ f ∈ fs ∧ v ∈ f.freeVars := fun f => by
    rw [← List.mem_singleton, ← hone]
    simp
  simp only [List.mem_append, List.mem_filter, decide_eq_true_eq, List.mem_singleton, List.mem_map]
  constructor
  · rintro (⟨hf, hv⟩ | rfl)
    · exact ⟨f, hf, if_neg hv⟩
    · obtain ⟨hmem, hv⟩ := (hg g).mp rfl
      exact ⟨g, hmem, if_pos hv⟩
  · rintro ⟨f', hf', rfl⟩
    by_cases hv : v ∈ f'.freeVars
    · rw [marked, if_pos hv, (hg f').mpr ⟨hf', hv⟩]
      exact Or.inr rfl
    · rw [marked, if_neg hv]
      exact Or.inl ⟨hf', hv⟩

theorem extracted {q : QUANT} {conj : Bool} {fs : List (Formula S P F D)}
    (hne : ∀ s, used s → ∃ d, I.sort s d)
    (h : (Formula.kind I).Fit used n (.quant .pos q [v] (.bool .pos conj fs))) :
    (Formula.kind I).Becomes used n (.quant .pos q [v] (.bool .pos conj fs)) n
      (.bool .pos conj (fs.filter (fun f => v ∉ f.freeVars) ++
        [.quant .pos q [v] (.bool .pos conj (fs.filter fun f => v ∈ f.freeVars))])) := by
  have hordered := quant_congr h (bool_members (fs.filter (fun f => v ∉ f.freeVars) ++
    fs.filter fun f => v ∈ f.freeVars) (fit_quant_iff.mp h).1 fun f => by
      simpa using mem_filter_or (p := fun f : Formula S P F D => v ∈ f.freeVars) (m := []) f)
  refine hordered.trans (quant_extract hordered.fit (fun w hw => hne _ ((fit_quant_iff.mp h).2 w hw).2.2)
    fun f hf w hw => List.mem_singleton.mp hw ▸ by simpa using (List.mem_filter.mp hf).2)

theorem push_becomes (univ : Bool) (hne : ∀ s, used s → ∃ d, I.sort s d) (k : ℕ) :
    ∀ f : Formula S P F D, f.height < k → Pushes I used univ f := by
  induction k with
  | zero => exact fun f hf => absurd hf (Nat.not_lt_zero _)
  | succ k ih =>
    intro f hk v n r h hr
    rw [pushQuantifiedVariableThrough.eq_def] at hr
    split_ifs at hr with hsign hfree
    · cases f with
      | quant sign q vars sub =>
        have hpos : sign = .pos := ((fit_quant_iff.mp h).1.prepared : sign = .pos ∧ _).1
        subst hpos
        have hheight : sub.height < k := Nat.lt_of_succ_lt_succ hk
        dsimp only at hr
        split_ifs at hr with hq
        have hq : q = .ofUniv univ := by
          rw [← not_not.mp hq, ofUniv_isUniv]
        subst hq
        cases hsub : pushQuantifiedVariableThrough v univ sub n with
        | some r' =>
          rw [hsub] at hr
          have hswap := quant_swap h
          rw [← Option.some.inj hr]
          exact hswap.trans (quant_congr hswap.fit
            (ih sub hheight v n r' (fit_quant_iff.mp hswap.fit).1 hsub))
        | none =>
          rw [hsub] at hr
          rw [← Option.some.inj hr]
          refine quant_merge (fun w => ?_) h
          rw [List.mem_union_iff, List.mem_singleton, or_comm]
      | bool sign conj subs =>
        have hpos : sign = .pos := ((fit_quant_iff.mp h).1.prepared : sign = .pos ∧ _).1
        subst hpos
        have hheight : heights subs < k := Nat.lt_of_succ_lt_succ hk
        dsimp only at hr
        split_ifs at hr with hconj hall hone
        · subst hconj
          have hmarked := marked_of_same hne h
          rw [← Option.some.inj hr]
          exact hmarked.trans (bool_congr hmarked.fit (pushThroughAll_becomes ih hheight false n
            (Kind.fit_list_iff.mpr (fit_bool_iff.mp hmarked.fit))))
        · obtain ⟨g, hg⟩ := List.length_eq_one_iff.mp hone
          have hout := extracted hne h
          rw [hg] at hout
          have hlast := fit_bool_iff.mp hout.fit _ (List.mem_append_right _ (List.mem_singleton_self _))
          have hsingle := hout.trans (bool_congr_last hout.fit
            (quant_congr hlast (bool_single (fit_quant_iff.mp hlast).1)))
          have hmarked := hsingle.trans (bool_members _ hsingle.fit (mem_marked_iff hg))
          rw [← Option.some.inj hr]
          exact hmarked.trans (bool_congr hmarked.fit (pushThroughAll_becomes ih hheight false n
            (Kind.fit_list_iff.mpr (fit_bool_iff.mp hmarked.fit))))
        · rw [← Option.some.inj hr]
          exact extracted hne h
      | pred _ _ _ => exact absurd hr nofun
      | eqChain _ _ _ _ => exact absurd hr nofun
      | equiv _ _ _ => exact absurd hr nofun
      | agg _ _ _ _ _ => exact absurd hr nofun
    · rw [← Option.some.inj hr]
      exact quant_irrelevant h (fun w hw => hne _ ((fit_quant_iff.mp h).2 w hw).2.2)
        fun w hw => List.mem_singleton.mp hw ▸ hfree

theorem push_quant (v : Variable S) (q : QUANT) (ws : List (Variable S)) (sub : Formula S P F D) (n : ℕ) :
    ∃ ws' sub' n', pushQuantifiedVariableThrough v q.isUniv (.quant .pos q ws sub) n =
      some (.quant .pos q ws' sub', n') := by
  rw [pushQuantifiedVariableThrough.eq_def, if_neg (show ¬ Formula.sign (.quant .pos q ws sub) = .neg from nofun)]
  split_ifs
  · dsimp only
    rw [if_neg (not_not.mpr rfl)]
    cases pushQuantifiedVariableThrough v q.isUniv sub n with
    | none => exact ⟨_, _, _, rfl⟩
    | some r => exact ⟨_, _, _, rfl⟩
  · exact ⟨_, _, _, rfl⟩

theorem readdVars_becomes (hne : ∀ s, used s → ∃ d, I.sort s d) {q : QUANT} {vs ws : List (Variable S)}
    {sub : Formula S P F D} (hnodup : vs.Nodup)
    (h : (Formula.kind I).Fit used n (.quant .pos q vs (.quant .pos q ws sub))) :
    ∃ ws' sub' n', readdVars q.isUniv vs (.quant .pos q ws sub) n = (.quant .pos q ws' sub', n') ∧
      (Formula.kind I).Becomes used n (.quant .pos q vs (.quant .pos q ws sub)) n'
        (.quant .pos q ws' sub') := by
  induction vs generalizing ws sub n with
  | nil => exact ⟨ws, sub, n, rfl, quant_nil h⟩
  | cons v vs ih =>
    obtain ⟨hv, hnodup⟩ := List.nodup_cons.mp hnodup
    obtain ⟨ws', sub', n', hpush⟩ := push_quant v q ws sub n
    have hsplit := quant_split vs [v] (fun w => by simp [or_comm])
      (fun w hw hwv => hv (List.mem_singleton.mp hwv ▸ hw)) h
    have hin := (fit_quant_iff.mp hsplit.fit).1
    have hq := ofUniv_isUniv q
    have hpushed := push_becomes q.isUniv hne _ (.quant .pos q ws sub) (Nat.lt_succ_self _) v n _
      (hq.symm ▸ hin) hpush
    rw [hq] at hpushed
    have hquant := hsplit.trans (quant_congr hsplit.fit hpushed)
    obtain ⟨ws'', sub'', n'', hreadd, hbecomes⟩ := ih hnodup hquant.fit
    refine ⟨ws'', sub'', n'', ?_, hquant.trans hbecomes⟩
    rw [readdVars, hpush]
    exact hreadd

variable (order : SetOrder S)

theorem readded_becomes (hne : ∀ s, used s → ∃ d, I.sort s d) {q : QUANT} {vars : List (Variable S)}
    {n' : ℕ} {f f' : Formula S P F D} (h : (Formula.kind I).Fit used n (.quant .pos q vars f))
    (hf : (Formula.kind I).Becomes used n f n' f') :
    ∃ ws sub m, readdVars q.isUniv (order.elements vars) (.quant .pos q [] f') n' =
      (.quant .pos q ws sub, m) ∧
      (Formula.kind I).Becomes used n (.quant .pos q vars f) m (.quant .pos q ws sub) := by
  have hquant := quant_congr h hf
  have hordered := hquant.trans (quant_members _ hquant.fit (order.mem_elements vars))
  have hempty := hordered.trans (quant_split (order.elements vars) []
    (fun v => by simp) (fun v _ => List.not_mem_nil) hordered.fit)
  obtain ⟨ws, sub, m, hreadd, hbecomes⟩ := readdVars_becomes hne (order.nodup vars) hempty.fit
  exact ⟨ws, sub, m, hreadd, hempty.trans hbecomes⟩

theorem sound (hne : ∀ s, used s → ∃ d, I.sort s d) :
    (visitor order : TheoryMutatingVisitor S P F D).Sound I used where
  bool h := Kind.Becomes.refl h
  quant {n n' q vars f f'} h hf := by
    obtain ⟨ws, sub, m, hreadd, hbecomes⟩ := readded_becomes order hne h hf
    dsimp only [visitor, visitQuant]
    rw [hreadd]
    cases ws with
    | nil =>
      have hnil := hbecomes.trans (quant_nil hbecomes.fit)
      exact hnil.trans (flatten_becomes hnil.fit)
    | cons v ws => exact hbecomes.trans (flatten_becomes hbecomes.fit)

theorem visitInPlace_becomes (hne : ∀ s, used s → ∃ d, I.sort s d) {f : Formula S P F D}
    (h : (Formula.kind I).Fit used n f) :
    (Formula.kind I).Becomes used n f (visitInPlace order f n).2 (visitInPlace order f n).1 := by
  cases f with
  | quant sign q vars sub =>
    have hpos : sign = .pos := (h.prepared : sign = .pos ∧ _).1
    subst hpos
    obtain ⟨ws, sub, m, hreadd, hbecomes⟩ := readded_becomes order hne h
      ((sound order hne).visit (fit_quant_iff.mp h).1)
    dsimp only [visitInPlace]
    rw [hreadd]
    cases ws with
    | nil => exact hbecomes.trans (quant_congr hbecomes.fit (flatten_becomes (fit_quant_iff.mp hbecomes.fit).1))
    | cons v ws => exact hbecomes.trans (flatten_becomes hbecomes.fit)
  | pred _ _ _ => exact (sound order hne).visit h
  | eqChain _ _ _ _ => exact (sound order hne).visit h
  | equiv _ _ _ => exact (sound order hne).visit h
  | bool _ _ _ => exact (sound order hne).visit h
  | agg _ _ _ _ _ => exact (sound order hne).visit h

end PushQuantificationsCompletely

end Theory
