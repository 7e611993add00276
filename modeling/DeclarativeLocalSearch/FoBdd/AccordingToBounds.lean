import DeclarativeLocalSearch.Foundation.Approximation
import DeclarativeLocalSearch.FoBdd.Denotes
import DeclarativeLocalSearch.FoBdd.Graphed

set_option linter.unusedSectionVars false

namespace FoBdd

open Theory Structure FOBDDManager Approximation DecisionDiagram

variable {S P F D A : Type}

def AtomKernelType.table (T : ThreeValued S P F D) : AtomKernelType → PFSymbol S P F → List D → Prop
  | .twoValued => T.base.atom
  | .ct => T.ct
  | .cf => T.cf

namespace GenerateBDDAccordingToBounds

variable [DecidableEq S] [DecidableEq A] (G : GenerateBDDAccordingToBounds S P F D A) (T : ThreeValued S P F D)

-- an atom of the diagrams is looked up in the table of its symbol
structure AtomMeaning extends Meaning G.language.toTermLanguage D where
  sort_eq : sort = T.base.sort
  atom_iff : ∀ akt symbol args e i ds, T.base.values args e = ds.map some →
    (atom (G.language.atom akt symbol args) e i ↔ akt.table T symbol ds)
  substitute_iff : ∀ mva a e e' i, (∀ p ∈ mva, T.base.value p.2 e = some (e' p.1)) →
    (∀ v, v ∉ mva.map Prod.fst → e' v = e v) → (atom (G.language.substitute mva a) e i ↔ atom a e' i)

abbrev InUniverse (symbol : PFSymbol S P F) (ds : List D) : Prop :=
  inUniverse G.vocabulary G.arity T.base symbol ds

abbrev Extension (I : Structure S P F D) : Prop := T.Extends G.vocabulary G.arity G.builtin I

def Decided (symbol : PFSymbol S P F) : Prop :=
  ∀ ds, G.InUniverse T symbol ds → T.ct symbol ds ∨ T.cf symbol ds

structure WellFormed : Prop where
  comparisons : ∀ (c : CompType) sort, G.builtin (c.symbol sort) = true
  parents : ∀ s, ∀ p ∈ G.vocabulary.parents s, ∀ d, T.base.sort s d → T.base.sort p d
  nonempty : ∀ s, ∃ d, T.base.sort s d
  twoValued : ∀ symbol, G.twoValued symbol = true → ∀ ds, G.InUniverse T symbol ds →
    (T.ct symbol ds ↔ T.base.atom symbol ds) ∧ (T.cf symbol ds ↔ ¬ T.base.atom symbol ds)

def replacedBy (symbol : PFSymbol S P F) (ct cf : ℕ) : Prop :=
  G.cannotBeReplaced symbol = false ∧ G.ctbounds symbol = some ct ∧ G.cfbounds symbol = some cf

variable {G T} in
-- a diagram over the variables of a symbol that is right about what is certain
structure Bound (M : G.AtomMeaning T) (s : FOBDDManager A S) (symbol : PFSymbol S P F) (b : ℕ)
    (table : List D → Prop) : Prop where
  valid : s.bdd b ≠ none
  meaning : ∀ v, M.Coherent s v → ∀ e c, G.InUniverse T symbol ((G.vars symbol).map e) →
    Approximates (G.Decided T symbol) false (M.bdd s v b e fun _ => c) (table ((G.vars symbol).map e))

variable {G T} in
def Bounded (M : G.AtomMeaning T) (s : FOBDDManager A S) : Prop :=
  ∀ symbol ct cf, G.replacedBy symbol ct cf →
    ((G.vars symbol).Nodup ∧ (G.vars symbol).length = G.arity symbol) ∧
      Bound M s symbol ct (T.ct symbol) ∧ Bound M s symbol cf (T.cf symbol)

def wanted (type : TruthType) (p : Prop) : Prop := if needFalse type then ¬ p else p

variable {G T} {M : G.AtomMeaning T} {s s' : FOBDDManager A S}

theorem Bounded.extends (h : Bounded M s) (hs : Sound M.toMeaning s) (he : Extends s s') : Bounded M s' := by
  have hbound : ∀ {symbol b table}, Bound M s symbol b table → Bound M s' symbol b table := fun hb =>
    ⟨he.valid hb.valid, fun v hv e c hu => by
      rw [hs.bdd_eq he hb.valid]
      exact hb.meaning v (he.coherent hs.inv hv) e c hu⟩
  exact fun symbol ct cf hr => ⟨(h symbol ct cf hr).1, hbound (h symbol ct cf hr).2.1, hbound (h symbol ct cf hr).2.2⟩

section Terms

theorem parents_sort (hT : WellFormed G T) {n : ℕ} {a b : S} (hb : b ∈ G.vocabulary.ancestorsUpTo none n a) {d : D}
    (hd : T.base.sort a d) : T.base.sort b d := by
  induction n generalizing a with
  | zero => exact absurd hb List.not_mem_nil
  | succ n ih =>
    obtain ⟨p, hp, hb⟩ := List.mem_flatMap.mp hb
    rcases List.mem_append.mp hb with h | h
    · exact List.mem_singleton.mp h ▸ hT.parents a p hp d hd
    · exact ih h (hT.parents a p hp d hd)

theorem valued_values {args : List (Term S P F D)} (hargs : ∀ t ∈ args, G.Valued T t) {e : Variable S → D}
    (he : Sorted T.base (termsFreeVars args) e) :
    ∃ ds, T.base.values args e = ds.map some ∧ List.Forall₂ (fun t d => T.base.sort (G.termSort t) d) args ds := by
  induction args with
  | nil => exact ⟨[], rfl, List.Forall₂.nil⟩
  | cons t ts ih =>
    obtain ⟨ht, hts⟩ := List.forall_mem_cons.mp hargs
    obtain ⟨het, hets⟩ := sorted_append.mp he
    obtain ⟨d, hd, hsort⟩ := ht.value e het
    obtain ⟨ds, hds, hsorts⟩ := ih hts hets
    exact ⟨d :: ds, congrArg₂ List.cons hd hds, List.Forall₂.cons hsort hsorts⟩

theorem holds_pred {I : Structure S P F D} (hI : Extension G T I) {sign : SIGN} {symbol : PFSymbol S P F}
    {args : List (Term S P F D)} (hargs : ∀ t ∈ args, G.Valued T t) {e : Variable S → D} {ds : List D}
    (hds : T.base.values args e = ds.map some) :
    I.holds (.pred sign symbol args) e ↔ sign.apply (I.atom symbol ds) := by
  have happlied : I.applied symbol (I.values args e) ↔ I.atom symbol ds := by
    rw [hI.values fun t ht => (hargs t ht).fixed, hds]
    refine ⟨fun ⟨ds', hds', h⟩ => ?_, fun h => ⟨ds, rfl, h⟩⟩
    rw [List.map_injective_iff.mpr (Option.some_injective D) hds']
    exact h
  exact iff_of_eq (congrArg sign.apply (propext happlied))

end Terms

section Factory

theorem turnIntoBdd_denotes (hs : Sound M.toMeaning s) {n : ℕ} {sign : SIGN} {symbol : PFSymbol S P F}
    {args : List (Term S P F D)} {type : Option SymbolType} (akt : AtomKernelType)
    (htype : checkIfBoundedPredicate type = (akt, false)) {r : ℕ}
    (hr : (turnIntoBdd G n sign type symbol args).run s = some (r, s')) :
    Denotes M.toMeaning s s' r fun _ e i => sign.apply (M.atom (G.language.atom akt symbol args) e i) := by
  rw [turnIntoBdd, htype] at hr
  obtain ⟨k, s1, hk, hr⟩ := Op.bind_eq_some.mp hr
  have hkernel := getAtomKernel_denotes hs hk
  have hconstant : ∀ v e i, M.bdd s1 v truebdd e i ∧ ¬ M.bdd s1 v falsebdd e i := fun v e i =>
    ⟨hkernel.sound.bdd_true v e i, hkernel.sound.not_bdd_false v e i⟩
  cases sign with
  | neg =>
    have hres := ifthenelse_denotes hkernel.sound hkernel.kernel hkernel.sound.false_valid hkernel.sound.true_valid hr
    refine (hres.after hkernel.ext).congr fun v hv e i => ?_
    simp only [Choice, hconstant, and_false, and_true, false_or, SIGN.apply]
    exact not_congr (hkernel.meaning v (hres.ext.coherent hkernel.sound.inv hv) e i)
  | pos =>
    have hres := ifthenelse_denotes hkernel.sound hkernel.kernel hkernel.sound.true_valid hkernel.sound.false_valid hr
    refine (hres.after hkernel.ext).congr fun v hv e i => ?_
    simp only [Choice, hconstant, and_false, and_true, or_false, SIGN.apply]
    exact hkernel.meaning v (hres.ext.coherent hkernel.sound.inv hv) e i

theorem outofbounds_denotes (hs : Sound M.toMeaning s) {n : ℕ} {sort termsort : S} {t : Term S P F D} {r : ℕ}
    (hr : (outofbounds G n sort termsort t).run s = some (r, s')) :
    Denotes M.toMeaning s s' r fun _ e i =>
      ¬ M.atom (G.language.atom .twoValued (.sort sort) [t]) e i ∧
        M.atom (G.language.atom .twoValued (.sort termsort) [t]) e i := by
  simp only [outofbounds, Op.bind_eq_some] at hr
  obtain ⟨out, s1, h1, temp, s2, h2, insort, s3, h3, hr⟩ := hr
  have hout := turnIntoBdd_denotes hs .twoValued rfl h1
  have htemp := conjunction_denotes hout.sound hout.sound.true_valid hout.valid h2
  have hin := turnIntoBdd_denotes htemp.sound .twoValued rfl h3
  have hres := conjunction_denotes hin.sound (hin.ext.valid htemp.valid) hin.valid hr
  refine ((hres.after hin.ext).after (hout.ext.trans htemp.ext)).congr fun v hv e i => ?_
  have hv3 := hres.ext.coherent hin.sound.inv hv
  have hv2 := hin.ext.coherent htemp.sound.inv hv3
  rw [hin.meaning v hv3, htemp.sound.bdd_eq hin.ext htemp.valid, htemp.meaning v hv2,
    hout.meaning v (htemp.ext.coherent hout.sound.inv hv2)]
  exact and_congr_left fun _ => and_iff_right (hout.sound.bdd_true v e i)

end Factory

section CheckBounds

-- an operation has returned a diagram in the state s', and what it means at one value for all indices is in Q
structure Built (M : G.AtomMeaning T) (s s' : FOBDDManager A S) (r : ℕ)
    (Q : Meaning.Valuation (Variable S) D → (Variable S → D) → D → Prop → Prop) : Prop where
  sound : Sound M.toMeaning s'
  ext : Extends s s'
  valid : s'.bdd r ≠ none
  meaning : ∀ v, M.Coherent s' v → ∀ e c, Q v e c (M.bdd s' v r e fun _ => c)

variable {n r : ℕ}

-- some argument lies outside the sort of the symbol
def Outside (T : ThreeValued S P F D) (l : List (S × Term S P F D)) (e : Variable S → D) : Prop :=
  ∃ p ∈ l, ∃ d, T.base.value p.2 e = some d ∧ ¬ T.base.sort p.1 d

theorem outside_cons {p : S × Term S P F D} {l : List (S × Term S P F D)} {e : Variable S → D} :
    Outside T (p :: l) e ↔ (∃ d, T.base.value p.2 e = some d ∧ ¬ T.base.sort p.1 d) ∨ Outside T l e := by
  simp only [Outside, List.mem_cons, or_and_right, exists_or, exists_eq_left]

theorem sort_atom {sort : S} {t : Term S P F D} {e : Variable S → D} {d : D} (hd : T.base.value t e = some d)
    (i : ℕ → D) : M.atom (G.language.atom .twoValued (.sort sort) [t]) e i ↔ T.base.sort sort d := by
  have hvalues : T.base.values [t] e = [d].map some := congrArg (List.cons · []) hd
  rw [M.atom_iff _ _ _ _ _ _ hvalues]
  constructor
  · rintro ⟨d', hd', hsort⟩
    exact List.singleton_inj.mp hd' ▸ hsort
  · exact fun h => ⟨d, rfl, h⟩

theorem checkBounds_built (hT : WellFormed G T) {disj : Bool} {l : List (S × Term S P F D)}
    (hl : ∀ p ∈ l, G.Valued T p.2) (hs : Sound M.toMeaning s) {b : ℕ} (hb : s.bdd b ≠ none)
    (hr : (checkBounds G n disj l b).run s = some (r, s')) :
    Built M s s' r fun v e c p => (∀ q ∈ l, Sorted T.base q.2.freeVars e) →
      (p ↔ if disj then Outside T l e ∨ M.bdd s v b e fun _ => c else ¬ Outside T l e ∧ M.bdd s v b e fun _ => c) := by
  induction l generalizing b s with
  | nil =>
    obtain ⟨rfl, rfl⟩ := Op.pure_eq_some.mp hr
    refine ⟨hs, Extends.refl s, hb, fun v _ e c _ => ?_⟩
    have hout : ¬ Outside T [] e := fun ⟨_, hmem, _⟩ => List.not_mem_nil hmem
    simp only [hout, false_or, not_false_eq_true, true_and, ite_self]
  | cons p l ih =>
    obtain ⟨hp, hl⟩ := List.forall_mem_cons.mp hl
    rw [checkBounds] at hr
    split_ifs at hr with hsort hdisj
    · -- the sort of the term is below
      have hrest := ih hl hs hb hr
      refine ⟨hrest.sound, hrest.ext, hrest.valid, fun v hv e c he => ?_⟩
      obtain ⟨hep, hel⟩ := List.forall_mem_cons.mp he
      have hin : ¬ ∃ d, T.base.value p.2 e = some d ∧ ¬ T.base.sort p.1 d := by
        rintro ⟨d, hd, hnot⟩
        obtain ⟨d', hd', hsorted⟩ := hp.value e hep
        obtain rfl := Option.some.inj (hd.symm.trans hd')
        rcases hsort with h | h
        · exact hnot (h ▸ hsorted)
        · exact hnot (parents_sort hT h hsorted)
      simp only [hrest.meaning v hv e c hel, outside_cons, hin, false_or]
    all_goals
      obtain ⟨out, s1, h1, hr⟩ := Op.bind_eq_some.mp hr
      have hout := outofbounds_denotes hs h1
      have hmeans : ∀ v, M.Coherent s1 v → ∀ e i, Sorted T.base p.2.freeVars e →
          (M.bdd s1 v out e i ↔ ∃ d, T.base.value p.2 e = some d ∧ ¬ T.base.sort p.1 d) := fun v hv e i he => by
        obtain ⟨d, hd, hsorted⟩ := hp.value e he
        rw [hout.meaning v hv, sort_atom hd, sort_atom hd, hd]
        exact ⟨fun h => ⟨d, rfl, h.1⟩, fun ⟨_, hd', hnot⟩ => ⟨Option.some.inj hd' ▸ hnot, hsorted⟩⟩
    · obtain ⟨b', s2, h2, hr⟩ := Op.bind_eq_some.mp hr
      have hdis := disjunction_denotes hout.sound hout.valid (hout.ext.valid hb) h2
      have hrest := ih hl hdis.sound hdis.valid hr
      refine ⟨hrest.sound, (hout.ext.trans hdis.ext).trans hrest.ext, hrest.valid, fun v hv e c he => ?_⟩
      obtain ⟨hep, hel⟩ := List.forall_mem_cons.mp he
      have hv2 := hrest.ext.coherent hdis.sound.inv hv
      have hv1 := hdis.ext.coherent hout.sound.inv hv2
      rw [hrest.meaning v hv e c hel, if_pos hdisj, if_pos hdisj, hdis.meaning v hv2, hmeans v hv1 e _ hep,
        hs.bdd_eq hout.ext hb, outside_cons, or_left_comm, or_assoc]
    · obtain ⟨inside, s2, h2, hr⟩ := Op.bind_eq_some.mp hr
      have hneg := negation_denotes hout.sound hout.valid h2
      obtain ⟨b', s3, h3, hr⟩ := Op.bind_eq_some.mp hr
      have hcon := conjunction_denotes hneg.sound hneg.valid (hneg.ext.valid (hout.ext.valid hb)) h3
      have hrest := ih hl hcon.sound hcon.valid hr
      refine ⟨hrest.sound, ((hout.ext.trans hneg.ext).trans hcon.ext).trans hrest.ext, hrest.valid, fun v hv e c he => ?_⟩
      obtain ⟨hep, hel⟩ := List.forall_mem_cons.mp he
      have hv3 := hrest.ext.coherent hcon.sound.inv hv
      have hv2 := hcon.ext.coherent hneg.sound.inv hv3
      have hv1 := hneg.ext.coherent hout.sound.inv hv2
      rw [hrest.meaning v hv e c hel, if_neg hdisj, if_neg hdisj, hcon.meaning v hv3, hneg.meaning v hv2,
        hmeans v hv1 e _ hep, hs.bdd_eq (hout.ext.trans hneg.ext) hb, outside_cons, not_or, and_left_comm, and_assoc]

end CheckBounds

section Certain

variable {n r : ℕ}

theorem exists_assignment {vars : List (Variable S)} {ds : List D} (hlength : vars.length = ds.length)
    (hnodup : vars.Nodup) (e : Variable S → D) : ∃ e', vars.map e' = ds ∧ ∀ v, v ∉ vars → e' v = e v := by
  induction vars generalizing ds with
  | nil =>
    cases ds with
    | nil => exact ⟨e, rfl, fun _ _ => rfl⟩
    | cons d ds => exact absurd hlength nofun
  | cons v vars ih =>
    cases ds with
    | nil => exact absurd hlength nofun
    | cons d ds =>
      obtain ⟨hv, hnodup⟩ := List.nodup_cons.mp hnodup
      obtain ⟨e', hmap, hrest⟩ := ih (Nat.succ.inj hlength) hnodup
      refine ⟨Function.update e' v d, ?_, fun w hw => ?_⟩
      · refine congrArg₂ List.cons (Function.update_self v d e') ((List.map_congr_left fun w hw => ?_).trans hmap)
        exact Function.update_of_ne (ne_of_mem_of_not_mem hw hv) d e'
      · rw [Function.update_of_ne (List.ne_of_not_mem_cons hw)]
        exact hrest w fun h => hw (List.mem_cons_of_mem v h)

theorem WellFormed.sorts_nonempty (hT : WellFormed G T) (M : G.AtomMeaning T) (sort : S) : ∃ d, M.sort sort d :=
  M.sort_eq ▸ hT.nonempty sort

theorem substitute_built (hT : WellFormed G T) (hs : Sound M.toMeaning s) {mva : List (Variable S × Term S P F D)}
    {b : ℕ} (hb : s.bdd b ≠ none) (hr : (substitute G n b mva).run s = some (r, s')) :
    Built M s s' r fun v e c p => ∀ e', (∀ q ∈ mva, T.base.value q.2 e = some (e' q.1)) →
      (∀ v, v ∉ mva.map Prod.fst → e' v = e v) → (p ↔ M.bdd s v b e' fun _ => c) := by
  have htranslation : Translation M.toMeaning (fun _ => G.language.substitute mva) fun _ e i e' i' =>
      ((∀ q ∈ mva, T.base.value q.2 e = some (e' q.1)) ∧ ∀ v, v ∉ mva.map Prod.fst → e' v = e v) ∧ i = i' :=
    { atom := fun n a e i e' i' h => by
        obtain ⟨⟨hmva, hrest⟩, rfl⟩ := h
        exact M.substitute_iff mva a e e' i hmva hrest
      push := fun n e i e' i' d h => ⟨h.1, congrArg (push d) h.2⟩ }
  have hchanged := change_changed htranslation (hT.sorts_nonempty M) hs hb hr
  exact ⟨hchanged.sound, hchanged.ext, hchanged.valid, fun v hv e c e' hmva hrest =>
    hchanged.meaning v hv e _ e' _ ⟨⟨hmva, hrest⟩, rfl⟩⟩

-- the bound of the symbol at the arguments
theorem substitute_bound (hT : WellFormed G T) (hs : Sound M.toMeaning s) {symbol : PFSymbol S P F}
    {args : List (Term S P F D)} {b : ℕ} {table : List D → Prop} (hnodup : (G.vars symbol).Nodup)
    (hvars : (G.vars symbol).length = G.arity symbol) (hb : Bound M s symbol b table)
    (hr : (substitute G n b ((G.vars symbol).zip args)).run s = some (r, s')) :
    Built M s s' r fun _ e _ p => ∀ ds, T.base.values args e = ds.map some → G.InUniverse T symbol ds →
      Approximates (G.Decided T symbol) false p (table ds) := by
  have hres := substitute_built hT hs hb.valid hr
  refine ⟨hres.sound, hres.ext, hres.valid, fun v hv e c ds hds hu => ?_⟩
  obtain ⟨e', hmap, hrest⟩ := exists_assignment (hvars.trans hu.1.symm) hnodup e
  have hargs : List.Forall₂ (fun v t => T.base.value t e = some (e' v)) (G.vars symbol) args := by
    rw [values_eq_map, ← hmap, List.map_map] at hds
    have hall := List.forall₂_eq_eq_eq ▸ hds.symm
    exact (List.forall₂_map_right_iff.mp (List.forall₂_map_left_iff.mp hall)).imp fun _ _ h => h.symm
  have hlength := List.forall₂_iff_zip.mp hargs
  have hfst : ((G.vars symbol).zip args).map Prod.fst = G.vars symbol := List.map_fst_zip hlength.1.le
  have hbound := hb.meaning v (hres.ext.coherent hs.inv hv) e' c (hmap ▸ hu)
  rw [hmap] at hbound
  exact hbound.congr (hres.meaning v hv e c e' (fun q hq => hlength.2 hq) fun v hv => hrest v (hfst ▸ hv)) Iff.rfl

theorem certainBdd_built (hT : WellFormed G T) (hs : Sound M.toMeaning s) (hB : Bounded M s) {getct : Bool}
    {symbol : PFSymbol S P F} {args : List (Term S P F D)}
    (hr : (certainBdd G n getct symbol args).run s = some (r, s')) :
    Built M s s' r fun _ e _ p => ∀ ds, T.base.values args e = ds.map some → G.InUniverse T symbol ds →
      Approximates (G.Decided T symbol) false p (if getct then T.ct symbol ds else T.cf symbol ds) := by
  unfold certainBdd at hr
  split at hr
  · rename_i ct cf hreplaced hct hcf
    obtain ⟨⟨hnodup, hvars⟩, hbct, hbcf⟩ := hB symbol ct cf ⟨hreplaced, hct, hcf⟩
    cases getct with
    | true => exact substitute_bound hT hs hnodup hvars hbct hr
    | false => exact substitute_bound hT hs hnodup hvars hbcf hr
  · cases htwo : G.twoValued symbol with
    | true =>
      rw [htwo, if_pos rfl] at hr
      have hres := turnIntoBdd_denotes hs .twoValued rfl hr
      refine ⟨hres.sound, hres.ext, hres.valid, fun v hv e c ds hds hu => Approximates.of_iff ?_⟩
      obtain ⟨hct, hcf⟩ := hT.twoValued symbol htwo ds hu
      rw [hres.meaning v hv, M.atom_iff _ _ _ _ _ _ hds]
      cases getct with
      | true => exact hct.symm
      | false => exact hcf.symm
    | false =>
      rw [htwo, if_neg Bool.false_ne_true] at hr
      cases getct with
      | true =>
        have hres := turnIntoBdd_denotes hs .ct rfl hr
        refine ⟨hres.sound, hres.ext, hres.valid, fun v hv e c ds hds hu => Approximates.of_iff ?_⟩
        exact (hres.meaning v hv e _).trans (M.atom_iff _ _ _ _ _ _ hds)
      | false =>
        have hres := turnIntoBdd_denotes hs .cf rfl hr
        refine ⟨hres.sound, hres.ext, hres.valid, fun v hv e c ds hds hu => Approximates.of_iff ?_⟩
        exact (hres.meaning v hv e _).trans (M.atom_iff _ _ _ _ _ _ hds)

end Certain

section VisitPred

variable {n r : ℕ}

theorem inUniverse_iff {symbol : PFSymbol S P F} {args : List (Term S P F D)} {e : Variable S → D} {ds : List D}
    (hds : T.base.values args e = ds.map some) (hlength : args.length = G.arity symbol) :
    G.InUniverse T symbol ds ↔
      ¬ Outside T (((List.range (G.arity symbol)).map fun i => G.vocabulary.sort symbol i).zip args) e := by
  have hvalue : ∀ (i : ℕ) t d, args[i]? = some t → ds[i]? = some d → T.base.value t e = some d := fun i t d ht hd => by
    have hi := congrArg (fun l : List (Option D) => l[i]?) hds
    simpa [values_eq_map, ht, hd] using hi
  have hsize : ds.length = G.arity symbol := by
    have := congrArg List.length hds
    rwa [values_eq_map, List.length_map, List.length_map, hlength, eq_comm] at this
  constructor
  · rintro hu ⟨q, hq, d, hd, hnot⟩
    obtain ⟨i, hi⟩ := List.mem_iff_getElem?.mp hq
    obtain ⟨hsort, harg⟩ := List.getElem?_zip_eq_some.mp hi
    have hlt : i < ds.length := by
      rw [hsize, ← hlength]
      exact (List.getElem?_eq_some_iff.mp harg).1
    obtain ⟨hlt', hsort⟩ := List.getElem?_eq_some_iff.mp hsort
    rw [List.getElem_map, List.getElem_range] at hsort
    obtain rfl := Option.some.inj (hd.symm.trans (hvalue i _ _ harg (List.getElem?_eq_getElem hlt)))
    exact hnot (hsort ▸ hu.2 i _ (List.getElem?_eq_getElem hlt))
  · refine fun hout => ⟨hsize, fun i d hd => ?_⟩
    have hlt : i < G.arity symbol := hsize ▸ (List.getElem?_eq_some_iff.mp hd).1
    have harg := List.getElem?_eq_getElem (hlength ▸ hlt : i < args.length)
    by_contra hnot
    refine hout ⟨(G.vocabulary.sort symbol i, args[i]), List.mem_iff_getElem?.mpr ⟨i, ?_⟩, d, hvalue i _ _ harg hd, hnot⟩
    exact List.getElem?_zip_eq_some.mpr ⟨by simp [hlt], harg⟩

-- an atom of an extension against what is certain of it
theorem Extension.certain {I : Structure S P F D} (hI : Extension G T I) {symbol : PFSymbol S P F}
    (hbuiltin : G.builtin symbol = false) {ds : List D} (hu : G.InUniverse T symbol ds) (getct : Bool) :
    Approximates (G.Decided T symbol) false (if getct then T.ct symbol ds else T.cf symbol ds)
      (if getct then I.atom symbol ds else ¬ I.atom symbol ds) := by
  have hct := hI.ct symbol hbuiltin ds hu
  have hcf := hI.cf symbol hbuiltin ds hu
  cases getct with
  | true => exact ⟨hct, fun hd => ⟨hct, fun h => (hd ds hu).resolve_right fun hf => hcf hf h⟩⟩
  | false => exact ⟨hcf, fun hd => ⟨hcf, fun h => (hd ds hu).resolve_left fun ht => h (hct ht)⟩⟩

theorem wanted_sign (type : TruthType) (sign : SIGN) (p : Prop) :
    wanted type (sign.apply p) ↔ if ((sign = .neg : Bool) != needFalse type) = true then ¬ p else p := by
  cases type <;> cases sign <;> simp [wanted, needFalse, SIGN.apply]

theorem approximates_wanted {exact p m : Prop} {type : TruthType} {sign : SIGN}
    (h : Approximates exact false m
      (if ((type = .certainTrue || type = .possFalse : Bool) != (sign = .neg : Bool)) = true then p else ¬ p)) :
    Approximates exact (needPossible type) (if needPossible type then ¬ m else m) (wanted type (sign.apply p)) := by
  cases type <;> cases sign
  · exact h
  · exact h
  · exact h
  · exact h.congr Iff.rfl not_not
  · exact h.not.congr Iff.rfl not_not.symm
  · exact h.not
  · exact h.not
  · exact h.not

theorem visitPred_built (hT : WellFormed G T) {I : Structure S P F D} (hI : Extension G T I)
    (hs : Sound M.toMeaning s) (hB : Bounded M s) {exact : Prop} {type : TruthType} {sign : SIGN}
    {symbol : PFSymbol S P F} {args : List (Term S P F D)}
    (hexact : exact → G.builtin symbol = false → G.Decided T symbol) (hargs : ∀ t ∈ args, G.Valued T t)
    (hlength : G.builtin symbol = false → args.length = G.arity symbol)
    (hr : (visitPred G n type sign symbol args).run s = some (r, s')) :
    Built M s s' r fun _ e _ p => Sorted T.base (termsFreeVars args) e →
      Approximates exact (needPossible type) p (wanted type (I.holds (.pred sign symbol args) e)) := by
  rw [visitPred] at hr
  cases hbuiltin : G.builtin symbol with
  | true =>
    rw [hbuiltin, if_pos rfl] at hr
    obtain ⟨b, s1, h1, hr⟩ := Op.bind_eq_some.mp hr
    have hatom := turnIntoBdd_denotes hs .twoValued rfl h1
    have hmeans : ∀ v, M.Coherent s1 v → ∀ e i, Sorted T.base (termsFreeVars args) e →
        (M.bdd s1 v b e i ↔ I.holds (.pred sign symbol args) e) := fun v hv e i he => by
      obtain ⟨ds, hds, -⟩ := valued_values hargs he
      rw [hatom.meaning v hv, M.atom_iff _ _ _ _ _ _ hds, holds_pred hI hargs hds]
      exact iff_of_eq (congrArg sign.apply (propext (hI.agrees symbol hbuiltin ds).symm))
    cases hneed : needFalse type with
    | true =>
      rw [hneed, if_pos rfl] at hr
      have hneg := negation_denotes hatom.sound hatom.valid hr
      refine ⟨hneg.sound, hatom.ext.trans hneg.ext, hneg.valid, fun v hv e c he => Approximates.of_iff ?_⟩
      rw [hneg.meaning v hv, hmeans v (hneg.ext.coherent hatom.sound.inv hv) e _ he, wanted, if_pos hneed]
    | false =>
      rw [hneed, if_neg Bool.false_ne_true] at hr
      obtain ⟨rfl, rfl⟩ := Op.pure_eq_some.mp hr
      refine ⟨hatom.sound, hatom.ext, hatom.valid, fun v hv e c he => Approximates.of_iff ?_⟩
      rw [hmeans v hv e _ he, wanted, if_neg (Bool.eq_false_iff.mp hneed)]
  | false =>
    rw [hbuiltin, if_neg Bool.false_ne_true] at hr
    obtain ⟨b, s1, h1, hr⟩ := Op.bind_eq_some.mp hr
    have hcertain := certainBdd_built hT hs hB h1
    -- what is possible is the negation of the certain opposite
    have hpossible : ∃ b' s2, (Built M s1 s2 b' fun v e c p =>
        (p ↔ if needPossible type then ¬ M.bdd s1 v b e fun _ => c else M.bdd s1 v b e fun _ => c)) ∧
        (checkBounds G n ((sign = .neg : Bool) != needFalse type)
          (((List.range (G.arity symbol)).map fun i => G.vocabulary.sort symbol i).zip args) b').run s2 =
            some (r, s') := by
      cases hneed : needPossible type with
      | true =>
        rw [hneed, if_pos rfl] at hr
        obtain ⟨b', s2, h2, hr⟩ := Op.bind_eq_some.mp hr
        have hneg := negation_denotes hcertain.sound hcertain.valid h2
        exact ⟨b', s2, ⟨hneg.sound, hneg.ext, hneg.valid, fun v hv e c => hneg.meaning v hv e _⟩, hr⟩
      | false =>
        rw [hneed, if_neg Bool.false_ne_true] at hr
        exact ⟨b, s1, ⟨hcertain.sound, Extends.refl s1, hcertain.valid, fun v hv e c => Iff.rfl⟩, hr⟩
    obtain ⟨b', s2, hpossible, hr⟩ := hpossible
    have hbounds := checkBounds_built hT (fun q hq => hargs q.2 (List.of_mem_zip hq).2) hpossible.sound
      hpossible.valid hr
    refine ⟨hbounds.sound, (hcertain.ext.trans hpossible.ext).trans hbounds.ext, hbounds.valid, fun v hv e c he => ?_⟩
    have hv2 := hbounds.ext.coherent hpossible.sound.inv hv
    have hv1 := hpossible.ext.coherent hcertain.sound.inv hv2
    obtain ⟨ds, hds, -⟩ := valued_values hargs he
    have hmeans := hbounds.meaning v hv e c fun q hq v hv =>
      he v (mem_termsFreeVars.mpr ⟨q.2, (List.of_mem_zip hq).2, hv⟩)
    have hu := inUniverse_iff hds (hlength hbuiltin)
    rw [hpossible.meaning v hv2] at hmeans
    refine Approximates.congr ?_ hmeans (iff_of_eq (congrArg (wanted type) (propext (holds_pred hI hargs hds))))
    by_cases hout : G.InUniverse T symbol ds
    · have hnot := hu.mp hout
      have hatom := ((hcertain.meaning v hv1 e c ds hds hout).trans (hI.certain hbuiltin hout _)).mono fun he =>
        hexact he hbuiltin
      refine (approximates_wanted hatom).congr ?_ Iff.rfl
      simp only [hnot, false_or, not_false_eq_true, true_and, ite_self]
    · have hfalse : ¬ I.atom symbol ds := fun h => hout (hI.within symbol hbuiltin ds h)
      have hin := not_not.mp (mt hu.mpr hout)
      refine Approximates.of_iff ?_
      simp only [wanted_sign, hin, hfalse, true_or, not_true_eq_false, false_and, not_false_eq_true]

end VisitPred

section Connectives

variable {n r : ℕ}

-- a diagram for a formula, as it is wanted
abbrev BuiltFor (M : G.AtomMeaning T) (s s' : FOBDDManager A S) (exact : Prop) (I : Structure S P F D) (r : ℕ)
    (type : TruthType) (f : Formula S P F D) : Prop :=
  Built M s s' r fun _ e _ p => Sorted T.base f.freeVars e →
    Approximates exact (needPossible type) p (wanted type (I.holds f e))

theorem visitBool_built {exact : Prop} {I : Structure S P F D} {type : TruthType}
    {rec : Formula S P F D → Op A S ℕ} {conjunctive : Bool} {fs : List (Formula S P F D)}
    (hrec : ∀ f ∈ fs, ∀ s s' r, Sound M.toMeaning s → Bounded M s → (rec f).run s = some (r, s') →
      BuiltFor M s s' exact I r type f)
    (hs : Sound M.toMeaning s) (hB : Bounded M s) {b : ℕ} (hb : s.bdd b ≠ none)
    (hr : (visitBool G n rec conjunctive fs b).run s = some (r, s')) :
    Built M s s' r fun v e c p => Sorted T.base (formulasFreeVars fs) e → ∀ w,
      Approximates exact (needPossible type) (M.bdd s v b e fun _ => c) w →
        Approximates exact (needPossible type) p (if conjunctive then w ∧ ∀ f ∈ fs, wanted type (I.holds f e)
          else w ∨ ∃ f ∈ fs, wanted type (I.holds f e)) := by
  induction fs generalizing b s with
  | nil =>
    obtain ⟨rfl, rfl⟩ := Op.pure_eq_some.mp hr
    refine ⟨hs, Extends.refl s, hb, fun v _ e c _ w hw => hw.congr Iff.rfl ?_⟩
    cases conjunctive <;> simp
  | cons f fs ih =>
    obtain ⟨hf, hfs⟩ := List.forall_mem_cons.mp hrec
    obtain ⟨newbdd, s1, h1, hr⟩ := Op.bind_eq_some.mp hr
    have hnew := hf s s1 newbdd hs hB h1
    have hB1 := hB.extends hs hnew.ext
    cases conjunctive with
    | true =>
      rw [if_pos rfl] at hr
      obtain ⟨b', s2, h2, hr⟩ := Op.bind_eq_some.mp hr
      have hcon := conjunction_denotes hnew.sound (hnew.ext.valid hb) hnew.valid h2
      have hrest := ih hfs hcon.sound (hB1.extends hnew.sound hcon.ext) hcon.valid hr
      refine ⟨hrest.sound, (hnew.ext.trans hcon.ext).trans hrest.ext, hrest.valid, fun v hv e c he w hw => ?_⟩
      obtain ⟨hef, hefs⟩ := sorted_append.mp he
      have hv2 := hrest.ext.coherent hcon.sound.inv hv
      have hv1 := hcon.ext.coherent hnew.sound.inv hv2
      have hboth := hw.and (hnew.meaning v hv1 e c hef)
      rw [← hs.bdd_eq hnew.ext hb] at hboth
      refine (hrest.meaning v hv e c hefs _ (hboth.congr (hcon.meaning v hv2 e _) Iff.rfl)).congr Iff.rfl ?_
      simp only [if_true, List.forall_mem_cons, and_assoc]
    | false =>
      rw [if_neg Bool.false_ne_true] at hr
      obtain ⟨b', s2, h2, hr⟩ := Op.bind_eq_some.mp hr
      have hdis := disjunction_denotes hnew.sound (hnew.ext.valid hb) hnew.valid h2
      have hrest := ih hfs hdis.sound (hB1.extends hnew.sound hdis.ext) hdis.valid hr
      refine ⟨hrest.sound, (hnew.ext.trans hdis.ext).trans hrest.ext, hrest.valid, fun v hv e c he w hw => ?_⟩
      obtain ⟨hef, hefs⟩ := sorted_append.mp he
      have hv2 := hrest.ext.coherent hdis.sound.inv hv
      have hv1 := hdis.ext.coherent hnew.sound.inv hv2
      have hboth := hw.or (hnew.meaning v hv1 e c hef)
      rw [← hs.bdd_eq hnew.ext hb] at hboth
      refine (hrest.meaning v hv e c hefs _ (hboth.congr (hdis.meaning v hv2 e _) Iff.rfl)).congr Iff.rfl ?_
      simp only [Bool.false_eq_true, if_false, List.mem_cons, or_and_right, exists_or, exists_eq_left, or_assoc]

theorem existsquantifyAll_built (hT : WellFormed G T) {vars : List (Variable S)} (hs : Sound M.toMeaning s) {b : ℕ}
    (hb : s.bdd b ≠ none) (hr : (existsquantifyAll G n vars b).run s = some (r, s')) :
    Built M s s' r fun v e c p => (p ↔ ∃ e', Varies T.base vars e e' ∧ M.bdd s v b e' fun _ => c) := by
  induction vars generalizing b s with
  | nil =>
    obtain ⟨rfl, rfl⟩ := Op.pure_eq_some.mp hr
    refine ⟨hs, Extends.refl s, hb, fun v _ e c => ?_⟩
    simp only [varies_nil, exists_eq_left]
  | cons x vars ih =>
    obtain ⟨b', s1, h1, hr⟩ := Op.bind_eq_some.mp hr
    obtain ⟨hs1, he1, hv1, hm1⟩ := existsquantify_means hs (hT.sorts_nonempty M) hb h1
    have hrest := ih hs1 hv1 hr
    refine ⟨hrest.sound, he1.trans hrest.ext, hrest.valid, fun v hv e c => ?_⟩
    have hcoh := hrest.ext.coherent hs1.inv hv
    rw [hrest.meaning v hv]
    simp only [hm1 v hcoh, M.sort_eq, G.language.sort_eq, varies_cons]
    constructor
    · rintro ⟨e', hvaries, d, hd, h⟩
      exact ⟨_, ⟨e', d, hvaries, hd, rfl⟩, h⟩
    · rintro ⟨_, ⟨e', d, hvaries, hd, rfl⟩, h⟩
      exact ⟨e', hvaries, d, hd, h⟩

end Connectives

section Evaluate

variable {n r : ℕ}

theorem needPossible_swapTF (type : TruthType) : needPossible (swapTF type) = needPossible type := by
  cases type <;> rfl

-- the connective and the quantifier are turned around together with the truth type
theorem wanted_all {α : Type} (type : TruthType) (sign : SIGN) (conj : Bool) (X p : α → Prop) :
    wanted type (sign.apply (if conj then ∀ a, X a → p a else ∃ a, X a ∧ p a)) ↔
      if ((if sign = .pos then conj else ! conj) != needFalse type) = true
      then ∀ a, X a → wanted (if sign = .pos then type else swapTF type) (p a)
      else ∃ a, X a ∧ wanted (if sign = .pos then type else swapTF type) (p a) := by
  cases type <;> cases sign <;> cases conj <;> simp [wanted, needFalse, swapTF, SIGN.apply]

theorem univquantifyAll_built (hT : WellFormed G T) {vars : List (Variable S)} (hs : Sound M.toMeaning s) {b : ℕ}
    (hb : s.bdd b ≠ none) (hr : (univquantifyAll G n vars b).run s = some (r, s')) :
    Built M s s' r fun v e c p => (p ↔ ∀ e', Varies T.base vars e e' → M.bdd s v b e' fun _ => c) := by
  obtain ⟨negatedbdd, s1, h1, hr⟩ := Op.bind_eq_some.mp hr
  have hneg := negation_denotes hs hb h1
  obtain ⟨quantbdd, s2, h2, hr⟩ := Op.bind_eq_some.mp hr
  have hquant := existsquantifyAll_built hT hneg.sound hneg.valid h2
  have hres := negation_denotes hquant.sound hquant.valid hr
  refine ⟨hres.sound, (hneg.ext.trans hquant.ext).trans hres.ext, hres.valid, fun v hv e c => ?_⟩
  have hv2 := hres.ext.coherent hquant.sound.inv hv
  have hv1 := hquant.ext.coherent hneg.sound.inv hv2
  rw [hres.meaning v hv, hquant.meaning v hv2]
  simp only [hneg.meaning v hv1, not_exists, not_and, not_not]

theorem needPossible_under (type : TruthType) (sign : SIGN) :
    needPossible (if sign = .pos then type else swapTF type) = needPossible type := by
  split_ifs
  · rfl
  · exact needPossible_swapTF type

theorem Built.of_keeps {exact : Prop} {I : Structure S P F D} {type : TruthType} {f f' : Formula S P F D}
    (h : BuiltFor M s s' exact I r type f') (hkeeps : (Formula.polar I fun _ _ => True).Keeps f f') :
    BuiltFor M s s' exact I r type f := by
  refine ⟨h.sound, h.ext, h.valid, fun v hv e c he => ?_⟩
  have hholds : I.holds f' e = I.holds f e := congrArg Prod.fst (congrFun hkeeps.meaning e)
  rw [← hholds]
  exact h.meaning v hv e c fun x hx => he x (hkeeps.free x hx)

theorem evaluate_built (hT : WellFormed G T) {I : Structure S P F D} (hI : Extension G T I) {exact : Prop}
    (hexact : exact → ∀ symbol, G.builtin symbol = false → G.Decided T symbol) (hs : Sound M.toMeaning s)
    (hB : Bounded M s) {f : Formula S P F D} {type : TruthType} (hf : G.graphed T (¬ exact) f)
    (hr : (evaluate G n f type).run s = some (r, s')) : BuiltFor M s s' exact I r type f := by
  induction n generalizing f type s s' r with
  | zero => exact absurd hr Op.failure_eq_some
  | succ n ih =>
    cases f with
    | pred sign symbol args => exact visitPred_built hT hI hs hB (fun he => hexact he symbol) hf.1 hf.2 hr
    | bool sign conj subs =>
      rw [evaluate] at hr
      have hall : ∀ e, _ := fun e => wanted_all type sign conj (· ∈ subs) fun f => I.holds f e
      generalize ((if sign = .pos then conj else ! conj) != needFalse type) = conjunctive at hr hall
      have hres := visitBool_built (I := I) (fun f hmem s s' r hs hB hr =>
        ih hs hB (graphedAll_iff.mp hf f hmem) hr) hs hB (hs.constant_valid conjunctive) hr
      refine ⟨hres.sound, hres.ext, hres.valid, fun v hv e c he => ?_⟩
      have hsub := hres.meaning v hv e c he _ (Approximates.of_iff (hs.constant_iff conjunctive v e _))
      rw [needPossible_under] at hsub
      refine hsub.congr Iff.rfl (((iff_of_eq (congrArg (wanted type) (propext holds_bool))).trans (hall e)).trans ?_)
      cases conjunctive with
      | true => exact (and_iff_right rfl).symm
      | false => exact (or_iff_right Bool.false_ne_true).symm
    | quant sign q vars f =>
      rw [evaluate] at hr
      have hall : ∀ e, _ := fun e => wanted_all type sign q.isUniv (Varies I vars e) (I.holds f)
      generalize ((if sign = .pos then q.isUniv else ! q.isUniv) != needFalse type) = universal at hr hall
      obtain ⟨subbdd, s1, h1, hr⟩ := Op.bind_eq_some.mp hr
      have hgraphed : G.graphed T (¬ exact) f := hf
      have hsub := ih hs hB hgraphed h1
      have hbody : ∀ v, M.Coherent s1 v → ∀ e c, Sorted T.base (Formula.quant sign q vars f).freeVars e →
          ∀ e', Varies I vars e e' → Approximates exact (needPossible type)
            (M.bdd s1 v subbdd e' fun _ => c) (wanted (if sign = .pos then type else swapTF type) (I.holds f e')) := by
        intro v hv e c he e' he'
        rw [← needPossible_under type sign]
        refine hsub.meaning v hv e' c fun x hx => ?_
        by_cases hmem : x ∈ vars
        · exact hI.sort ▸ he'.1 x hmem
        · rw [he'.2 x hmem]
          exact he x (List.mem_filter.mpr ⟨hx, by simpa using hmem⟩)
      cases universal with
      | true =>
        have hres := univquantifyAll_built hT hsub.sound hsub.valid hr
        refine ⟨hres.sound, hsub.ext.trans hres.ext, hres.valid, fun v hv e c he => ?_⟩
        have hv1 := hres.ext.coherent hsub.sound.inv hv
        refine (Approximates.forall (hbody v hv1 e c he)).congr ?_ ?_
        · rw [← hI.varies]
          exact hres.meaning v hv e c
        · exact (iff_of_eq (congrArg (wanted type) (propext holds_quant))).trans (hall e)
      | false =>
        have hres := existsquantifyAll_built hT hsub.sound hsub.valid hr
        refine ⟨hres.sound, hsub.ext.trans hres.ext, hres.valid, fun v hv e c he => ?_⟩
        have hv1 := hres.ext.coherent hsub.sound.inv hv
        refine (Approximates.exists (hbody v hv1 e c he)).congr ?_ ?_
        · rw [← hI.varies]
          exact hres.meaning v hv e c
        · exact (iff_of_eq (congrArg (wanted type) (propext holds_quant))).trans (hall e)
    | eqChain sign conj comps terms =>
      exact (ih hs hB (graphed_splitComparisonChainsOf hT.comparisons hf) hr).of_keeps
        (splitComparisonChainsOf_keeps (.eqChain sign conj comps terms))
    | equiv sign left right =>
      exact (ih hs hB (graphed_removeEquivalencesOf hf) hr).of_keeps (removeEquivalencesOf_keeps (.equiv sign left right))
    | agg sign bound comp g sets =>
      rw [evaluate] at hr
      obtain ⟨rfl, rfl⟩ := Op.pure_eq_some.mp hr
      exact ⟨hs, Extends.refl s, hs.constant_valid _, fun v hv e c _ =>
        (Approximates.of_not_exact hf).congr (hs.constant_iff _ v e _) Iff.rfl⟩

end Evaluate

section Estimates

-- what a diagram of the type says about the truth of a formula in the extensions
def Estimates (T : ThreeValued S P F D) (G : GenerateBDDAccordingToBounds S P F D A) (type : TruthType)
    (holds : Structure S P F D → Prop) (m : Prop) : Prop :=
  match type with
  | .certainTrue => m → ∀ I, G.Extension T I → holds I
  | .certainFalse => m → ∀ I, G.Extension T I → ¬ holds I
  | .possTrue => (∃ I, G.Extension T I ∧ holds I) → m
  | .possFalse => (∃ I, G.Extension T I ∧ ¬ holds I) → m

end Estimates

section Proposition

-- a proposition over one element
def propositional : AtomLanguage Unit Unit Empty Unit (AtomKernelType × PFSymbol Unit Unit Empty × ℕ) where
  simplify a sets := .inr (a, sets)
  simplify_sets a sets a' sets' h := by
    cases h
    exact List.Subset.refl _
  contains _ _ := false
  setvars _ _ := 0
  builtin _ := none
  sortAtom sort := (.twoValued, .sort sort, 1)
  sort := Variable.sort
  bump _ _ a := a
  solves _ _ := false
  atom akt symbol args := (akt, symbol, args.length)
  substitute _ a := a
  sort_eq := rfl

def withoutBounds : GenerateBDDAccordingToBounds Unit Unit Empty Unit (AtomKernelType × PFSymbol Unit Unit Empty × ℕ) where
  vocabulary :=
    { parents := fun _ => []
      height := fun _ => 0
      height_lt := nofun
      std := fun _ => ()
      outsort := nofun
      sort := fun _ _ => ()
      stdFunction := nofun }
  arity _ := 0
  builtin symbol := symbol ≠ .predicate ()
  language := propositional
  before b b' := b < b'
  ctbounds _ := none
  cfbounds _ := none
  vars _ := []
  cannotBeReplaced _ := false
  twoValued _ := false

def trueProposition : Structure Unit Unit Empty Unit where
  sort _ _ := True
  isEmpty _ := false
  isEmpty_iff := Theory.isEmpty_unit_iff
  less _ _ := False
  predicate _ ds := ds = []
  function := nofun
  aggregate _ _ := some ()

def knownProposition (known : Prop) : ThreeValued Unit Unit Empty Unit where
  base := trueProposition
  fixed _ := True
  ct symbol ds := known ∧ trueProposition.atom symbol ds
  cf symbol ds := known ∧ ¬ trueProposition.atom symbol ds

theorem list_unit {ds ds' : List Unit} (h : ds.length = ds'.length) : ds = ds' := by
  refine List.ext_getElem h fun i _ _ => rfl

def propositionalMeaning (known : Prop) : AtomMeaning withoutBounds (knownProposition known) where
  sort _ _ := True
  atom a _ _ := a.1.table (knownProposition known) a.2.1 (List.replicate a.2.2 ())
  simplify_constant _ _ := nofun
  simplify_atom a a' sets h _ _ := by
    cases h
    exact Iff.rfl
  contains _ _ _ _ _ _ _ := Iff.rfl
  builtin _ _ := nofun
  sortAtom s _ _ := iff_of_true ⟨(), rfl, trivial⟩ trivial
  bump _ _ _ _ _ := Iff.rfl
  solves _ _ := nofun
  sort_eq := rfl
  atom_iff akt symbol args e i ds h := by
    have hlength := congrArg List.length h
    rw [values_eq_map, List.length_map, List.length_map] at hlength
    exact iff_of_eq (congrArg (akt.table (knownProposition known) symbol)
      (list_unit ((List.length_replicate).trans hlength)))
  substitute_iff _ _ _ _ _ _ _ := Iff.rfl

theorem knownProposition_wellFormed (known : Prop) : WellFormed withoutBounds (knownProposition known) where
  comparisons c sort := by cases c <;> rfl
  parents _ _ := nofun
  nonempty _ := ⟨(), trivial⟩
  twoValued _ := nofun

theorem trueProposition_extension (known : Prop) :
    Extension withoutBounds (knownProposition known) trueProposition where
  sort := rfl
  less := rfl
  aggregate := rfl
  function _ _ := rfl
  agrees _ _ _ := Iff.rfl
  within symbol h ds hatom := by
    obtain rfl : symbol = .predicate () := by simpa [withoutBounds] using h
    obtain rfl : ds = [] := hatom
    exact ⟨rfl, nofun⟩
  ct _ _ _ _ h := h.2
  cf _ _ _ _ h := h.2

abbrev unknownAtom : Formula Unit Unit Empty Unit := .pred .neg (.predicate ()) []

-- the manager after the possible truth of the atom has been asked for
def askedForAtom : FOBDDManager (AtomKernelType × PFSymbol Unit Unit Empty × ℕ) Unit :=
  match (evaluate withoutBounds 5 unknownAtom .possTrue).run createManager with
  | some (_, s) => s
  | none => createManager

def atomValuation (k : ℕ) (_ : (Variable Unit → Unit) × (ℕ → Unit)) : Prop := k = truekernel

theorem atomValuation_constants {known : Prop} {bdd : ℕ → (Variable Unit → Unit) × (ℕ → Unit) → Prop} {k : ℕ}
    {x : KernelContent (AtomKernelType × PFSymbol Unit Unit Empty × ℕ) Unit} (h : createManager.content k = some x) :
    atomValuation k = (propositionalMeaning known).interpretation.content bdd x := by
  simp only [createManager] at h
  funext e
  split_ifs at h with h1 h2
  · cases h
    exact eq_true h1
  · cases h
    exact eq_false h1

theorem atomValuation_coherent : (propositionalMeaning False).Coherent askedForAtom atomValuation := by
  intro k x hk
  have hcontent : askedForAtom.content =
      Function.update createManager.content 2 (some (.atom (.ct, .predicate (), 0) [])) := rfl
  rw [hcontent, Function.update_apply] at hk
  split_ifs at hk with h
  · cases hk
    funext e
    rw [h]
    exact propext (iff_of_false (Nat.succ_ne_zero 1) fun hct => hct.1)
  · exact atomValuation_constants hk

end Proposition

end GenerateBDDAccordingToBounds

end FoBdd
