import DeclarativeLocalSearch.FoBdd.Denotes
import DeclarativeLocalSearch.FoBdd.NestedRuns
import DeclarativeLocalSearch.FoBdd.Relational

namespace FoBdd

open DecisionDiagram Relation

variable {V A S D : Type} [DecidableEq V] [DecidableEq A] [DecidableEq S] {L : TermLanguage V A S}

namespace FOBDDManager

-- what may be asked of the manager about diagrams without sets; a substitution is one that the meaning knows
inductive MeaningStep (M : Meaning L D) (before : ℕ → ℕ → Bool) (ok : FOBDDManager A S → ℕ → ℕ → Bool) :
    FOBDDManager A S → FOBDDManager A S → Prop
  | atomKernel {s s' : FOBDDManager A S} {n : ℕ} {a : A} {k : ℕ}
      (h : (getAtomKernel L n a []).run s = some (k, s')) : MeaningStep M before ok s s'
  | quantKernel {s s' : FOBDDManager A S} {n : ℕ} {sort : S} {b k : ℕ} (hb : s.bdd b ≠ none)
      (h : (getQuantKernel L n sort b).run s = some (k, s')) : MeaningStep M before ok s s'
  | negation {s s' : FOBDDManager A S} {n b r : ℕ} (hb : s.bdd b ≠ none)
      (h : (negation n b).run s = some (r, s')) : MeaningStep M before ok s s'
  | conjunction {s s' : FOBDDManager A S} {n b b' r : ℕ} (hb : s.bdd b ≠ none) (hb' : s.bdd b' ≠ none)
      (h : (conjunction before n b b').run s = some (r, s')) : MeaningStep M before ok s s'
  | disjunction {s s' : FOBDDManager A S} {n b b' r : ℕ} (hb : s.bdd b ≠ none) (hb' : s.bdd b' ≠ none)
      (h : (disjunction before n b b').run s = some (r, s')) : MeaningStep M before ok s s'
  | ifthenelse {s s' : FOBDDManager A S} {n k t f r : ℕ} (hk : s.order k ≠ none) (ht : s.bdd t ≠ none)
      (hf : s.bdd f ≠ none) (h : (ifthenelse n k t f).run s = some (r, s')) : MeaningStep M before ok s s'
  | existsquantify {s s' : FOBDDManager A S} {n : ℕ} {v : V} {b r : ℕ} (hb : s.bdd b ≠ none)
      (h : (existsquantify L ok n v b).run s = some (r, s')) : MeaningStep M before ok s s'
  | univquantify {s s' : FOBDDManager A S} {n : ℕ} {v : V} {b r : ℕ} (hb : s.bdd b ≠ none)
      (h : (univquantify L ok n v b).run s = some (r, s')) : MeaningStep M before ok s s'
  | substitute {s s' : FOBDDManager A S} {terms : ℕ → A → A}
      {R : ℕ → (V → D) → (ℕ → D) → (V → D) → (ℕ → D) → Prop} {n b r : ℕ} (hR : Translation M terms R)
      (hb : s.bdd b ≠ none) (h : (change L terms n 0 b).run s = some (r, s')) : MeaningStep M before ok s s'

variable {M : Meaning L D} {before : ℕ → ℕ → Bool} {ok : FOBDDManager A S → ℕ → ℕ → Bool}
  {s s' s'' : FOBDDManager A S}

theorem MeaningStep.sound (hne : ∀ sort, ∃ d, M.sort sort d) (h : MeaningStep M before ok s s') (hs : Sound M s) :
    Sound M s' ∧ Extends s s' := by
  cases h with
  | atomKernel h =>
    have hden := getAtomKernel_denotes hs h
    exact ⟨hden.sound, hden.ext⟩
  | quantKernel hb h =>
    have hden := getQuantKernel_denotes hs hne hb h
    exact ⟨hden.sound, hden.ext⟩
  | negation hb h =>
    have hden := negation_denotes hs hb h
    exact ⟨hden.sound, hden.ext⟩
  | conjunction hb hb' h =>
    have hden := conjunction_denotes hs hb hb' h
    exact ⟨hden.sound, hden.ext⟩
  | disjunction hb hb' h =>
    have hden := disjunction_denotes hs hb hb' h
    exact ⟨hden.sound, hden.ext⟩
  | ifthenelse hk ht hf h =>
    have hden := ifthenelse_denotes hs hk ht hf h
    exact ⟨hden.sound, hden.ext⟩
  | existsquantify hb h =>
    obtain ⟨hsound, hext, -⟩ := existsquantify_means hs hne hb h
    exact ⟨hsound, hext⟩
  | univquantify hb h =>
    obtain ⟨hsound, hext, -⟩ := univquantify_means hs hne hb h
    exact ⟨hsound, hext⟩
  | substitute hR hb h =>
    have hchanged := change_changed hR hne hs hb h
    exact ⟨hchanged.sound, hchanged.ext⟩

theorem meaningRun_sound (hne : ∀ sort, ∃ d, M.sort sort d) (h : ReflTransGen (MeaningStep M before ok) s s')
    (hs : Sound M s) : Sound M s' ∧ Extends s s' := by
  induction h with
  | refl => exact ⟨hs, Extends.refl s⟩
  | tail _ step ih =>
    obtain ⟨hsound, hext⟩ := step.sound hne ih.1
    exact ⟨hsound, ih.2.trans hext⟩

theorem MeaningStep.step (h : MeaningStep M before ok s s') : Step L before ok s s' := by
  cases h with
  | atomKernel h => exact .atomKernel (fun b hb => absurd hb List.not_mem_nil) h
  | quantKernel hb h => exact .quantKernel hb h
  | negation hb h => exact .negation hb h
  | conjunction hb hb' h => exact .conjunction hb hb' h
  | disjunction hb hb' h => exact .disjunction hb hb' h
  | ifthenelse hk ht hf h => exact .ifthenelse hk ht hf h
  | existsquantify hb h => exact .existsquantify hb h
  | univquantify hb h => exact .univquantify hb h
  | substitute hR hb h => exact .substitute hb h

section Coherent

omit [DecidableEq V] [DecidableEq A] [DecidableEq S]

variable {c : Prop}

theorem Older.holds_congr {k b : ℕ} (h : Older s k b) (hs : Inv c s) {w w' : ℕ → Prop}
    (hw : ∀ k' < k, s.order k' ≠ none → (w k' ↔ w' k')) : Holds s.bdd w b ↔ Holds s.bdd w' b := by
  induction h with
  | leaf hb => rw [holds_leaf hb, holds_leaf hb]
  | branch hb hk _ _ iht ihf =>
    rw [holds_branch hb, holds_branch hb, hw _ hk (hs.children hb).2.2, iht, ihf]

theorem Nested.content_congr (h : Nested s) (hs : Inv c s) (I : Interpretation A S) {k : ℕ} {x : KernelContent A S}
    (hx : s.content k = some x) {v v' : ℕ → I.Env → Prop} (hv : ∀ k' < k, s.order k' ≠ none → v k' = v' k') :
    I.content (I.meaning s v) x = I.content (I.meaning s v') x := by
  refine I.content_congr fun b hb => ?_
  funext e
  exact propext ((h.older k x hx b hb).holds_congr hs fun k' hk' ho => by rw [hv k' hk' ho])

open Classical in
-- the kernels of a manager have a meaning, by recursion on their age
theorem Nested.exists_coherent (h : Nested s) (hs : Inv c s) (I : Interpretation A S) : ∃ v, I.Coherent s v := by
  let step (k : ℕ) (rec : ∀ k' < k, I.Env → Prop) : I.Env → Prop :=
    match s.content k with
    | none => fun _ => False
    | some x => I.content (I.meaning s fun k' => if hk : k' < k then rec k' hk else fun _ => False) x
  let v : ℕ → I.Env → Prop := WellFounded.fix Nat.lt_wfRel.wf step
  have hv : ∀ k, v k = step k fun k' _ => v k' := fun k => WellFounded.fix_eq _ _ k
  refine ⟨v, fun k x hx => ?_⟩
  rw [hv]
  simp only [step, hx]
  exact h.content_congr hs I hx fun k' hk' _ => dif_pos hk'

theorem Nested.coherent_unique (h : Nested s) (hs : Inv c s) (I : Interpretation A S) {v v' : ℕ → I.Env → Prop}
    (hv : I.Coherent s v) (hv' : I.Coherent s v') (k : ℕ) (ho : s.order k ≠ none) : v k = v' k := by
  induction k using Nat.strong_induction_on with
  | _ k ih =>
    obtain ⟨x, hx⟩ := Option.ne_none_iff_exists'.mp (h.content k ho)
    rw [hv k x hx, hv' k x hx]
    exact h.content_congr hs I hx ih

theorem Nested.meaning_unique (h : Nested s) (hs : Inv c s) (I : Interpretation A S) {v v' : ℕ → I.Env → Prop}
    (hv : I.Coherent s v) (hv' : I.Coherent s v') {b : ℕ} (hb : s.bdd b ≠ none) :
    I.meaning s v b = I.meaning s v' b := by
  funext e
  refine propext ((hs.older_next hb).holds_congr hs fun k _ ho => ?_)
  rw [h.coherent_unique hs I hv hv' k ho]

end Coherent

-- in all managers that come after s, the diagram r means Q, where Q may ask what the kernels and the diagrams mean
def Lasts (M : Meaning L D) (before : ℕ → ℕ → Bool) (ok : FOBDDManager A S → ℕ → ℕ → Bool) (s : FOBDDManager A S)
    (r : ℕ) (Q : (ℕ → (V → D) → D → Prop) → (ℕ → (V → D) → D → Prop) → (V → D) → D → Prop) : Prop :=
  ∀ s', ReflTransGen (MeaningStep M before ok) s s' → s'.bdd r ≠ none ∧ ∀ v, M.Coherent s' v → ∀ e c,
    M.bdd s' v r e (fun _ => c) ↔
      Q (fun k e c => Meaning.kernel v k e fun _ => c) (fun b e c => M.bdd s' v b e fun _ => c) e c

-- what an operation returns for arguments that are there
theorem lasts_of_returns (hne : ∀ sort, ∃ d, M.sort sort d) (hs : Sound M s) {r : ℕ}
    {Q : (ℕ → (V → D) → D → Prop) → (ℕ → (V → D) → D → Prop) → (V → D) → D → Prop} (hs' : Sound M s')
    (he : Extends s s') (hr : s'.bdd r ≠ none)
    (hmeaning : ∀ v, M.Coherent s' v → ∀ e c, M.bdd s' v r e (fun _ => c) ↔
      Q (fun k e c => Meaning.kernel v k e fun _ => c) (fun b e c => M.bdd s v b e fun _ => c) e c)
    (hQ : ∀ kern den den' e c, (∀ b, s.bdd b ≠ none → den b = den' b) → (Q kern den e c ↔ Q kern den' e c)) :
    Lasts M before ok s' r Q := by
  intro s'' hrun
  obtain ⟨hs'', he'⟩ := meaningRun_sound hne hrun hs'
  refine ⟨he'.valid hr, fun v hv e c => ?_⟩
  rw [hs'.bdd_eq he' hr, hmeaning v (he'.coherent hs'.inv hv)]
  refine hQ _ _ _ e c fun b hb => ?_
  funext e c
  rw [hs.bdd_eq (he.trans he') hb]

end FOBDDManager

section Relational

variable {D : Type}

def Argument.value (e : ℕ → D) (i : ℕ → D) : Argument → D
  | .variable v => e v
  | .deBruijnIndex n => i n

theorem Argument.value_congr {e : ℕ → D} {i i' : ℕ → D} {n : ℕ} (hi : AgreeBut n i i') {x : Argument}
    (hx : x ≠ .deBruijnIndex n) : x.value e i = x.value e i' := by
  cases x with
  | «variable» v => rfl
  | deBruijnIndex j => exact hi j fun hj => hx (congrArg _ hj)

theorem Argument.value_bump (e : ℕ → D) (i : ℕ → D) (v n : ℕ) (x : Argument) :
    (x.bump v n).value e i = x.value (Function.update e v (i n)) (skip n i) := by
  cases x with
  | «variable» w =>
    simp only [Argument.bump, Argument.value, Function.update_apply]
    split_ifs <;> rfl
  | deBruijnIndex j =>
    simp only [Argument.bump, Argument.value, skip]
    split_ifs
    · omega
    · rfl
    · rfl
    · omega

-- a first-order structure gives the atoms and the sorts their meaning
def relationalMeaning (sort : ℕ → ℕ) (dom : ℕ → D → Prop) (pred : ℕ → List D → Prop) : Meaning (relational sort) D where
  sort := dom
  atom a e i := match a.symbol with
    | .predicate p => pred p (a.args.map (Argument.value e i))
    | .sortPredicate s => ∃ d, a.args.map (Argument.value e i) = [d] ∧ dom s d
  simplify_constant a v h := by cases h
  simplify_atom a a' sets h e i := by
    cases h
    exact Iff.rfl
  contains a n h e i i' hi := by
    have hargs : a.args.map (Argument.value e i) = a.args.map (Argument.value e i') :=
      List.map_congr_left fun x hx => Argument.value_congr hi fun heq => by
        have hnot : Argument.deBruijnIndex n ∉ a.args := by simpa [relational] using h
        exact hnot (heq ▸ hx)
    rw [hargs]
  builtin s empty h := by cases h
  sortAtom s e i := by simp [relational, Argument.value]
  bump v n a e i := by
    have hargs : (a.args.map (Argument.bump v n)).map (Argument.value e i) =
        a.args.map (Argument.value (Function.update e v (i n)) (skip n i)) := by
      rw [List.map_map]
      exact List.map_congr_left fun x _ => Argument.value_bump e i v n x
    simp only [relational, hargs]
  solves s a h := by cases h

namespace FOBDDManager

-- everything is in the sort, and every predicate is true
abbrev allTrue : Meaning vocabulary Bool := relationalMeaning (fun _ => 0) (fun _ _ => True) fun _ _ => True

theorem withAtomBDD_meaningRun :
    ReflTransGen (MeaningStep allTrue pointerLess always) createManager withAtomBDD := by
  have h1 : (existsquantify vocabulary always 10 0 truebdd).run createManager = some (3, sortQuantified) := rfl
  have h2 : (getAtomKernel vocabulary 10 ⟨.predicate 0, []⟩ []).run sortQuantified = some (4, withAtom) := rfl
  have h3 : (ifthenelse 10 4 truebdd falsebdd).run withAtom = some (4, withAtomBDD) := rfl
  have hrun : ReflTransGen (MeaningStep allTrue pointerLess always) createManager sortQuantified :=
    .single (.existsquantify (by decide) h1)
  exact (hrun.tail (.atomKernel h2)).tail (.ifthenelse (by decide) (by decide) (by decide) h3)

end FOBDDManager

end Relational

end FoBdd
