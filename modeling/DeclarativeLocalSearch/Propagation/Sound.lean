import DeclarativeLocalSearch.Propagation.LeafConnectors

set_option linter.unusedSectionVars false

namespace Propagation

open Theory Structure

variable {N S P F D : Type}

def told (ct : Bool) (p : Prop) : Prop := if ct then p else ¬ p

theorem told_sign (ct : Bool) (sign : SIGN) (p : Prop) :
    told (ct == decide (sign = .pos)) p ↔ told ct (sign.apply p) := by
  cases ct <;> cases sign <;> simp [told, SIGN.apply]

theorem told_not_sign (ct : Bool) (sign : SIGN) (p : Prop) :
    told (ct != decide (sign = .pos)) p ↔ ¬ told (ct == decide (sign = .pos)) p := by
  cases ct <;> cases sign <;> simp [told]

theorem told_sign_apply (ct : Bool) (sign : SIGN) (p : Prop) :
    told (ct == decide (sign = .pos)) (sign.apply p) ↔ told ct p := by
  cases ct <;> cases sign <;> simp [told, SIGN.apply]

theorem told_congr {ct : Bool} {p q : Prop} (h : p ↔ q) : told ct p ↔ told ct q := by rw [h]

namespace Network

variable [DecidableEq N] [DecidableEq S] (X : Network N S P F D) (V : SortedVocabulary S P F)
  (arity : PFSymbol S P F → ℕ) (T : ThreeValued S P F D) (sentences : List N)

-- the immediate subformulas that the propagator goes through
def parts : Formula S P F D → List (Formula S P F D)
  | .equiv _ l r => [l, r]
  | .bool _ _ fs => fs
  | .quant _ _ _ f => [f]
  | _ => []

def Branch (f : Formula S P F D) : Prop :=
  match f with
  | .equiv _ _ _ => True
  | .bool _ _ _ => True
  | .quant _ _ _ _ => True
  | _ => False

-- the theory after the transformations of the factory, with a leaf connector for each symbol
structure WellFormed (initbounds : PFSymbol S P F → InitBoundType) : Prop where
  subformulas : ∀ n, (X.subformulas n).map X.formula = parts (X.formula n)
  upward : ∀ c p, X.upward c = some p → Branch (X.formula p) → c ∈ X.subformulas p
  leafupward : ∀ c m, m ∈ X.leafupward c → ¬ Branch (X.formula m)
  connector : ∀ symbol, X.builtin symbol = false → ∃ vars : List (Variable S),
    X.formula (X.connector symbol) = .pred .pos symbol (vars.map .var) ∧ vars.Nodup ∧
      vars.map Variable.sort = (List.range (arity symbol)).map (V.sort symbol)
  leaf : ∀ n sign symbol args, X.formula n = .pred sign symbol args → X.builtin symbol = false →
    n ≠ X.connector symbol → ∃ vars : List (Variable S), args = vars.map .var ∧ vars.length = arity symbol ∧
      ∀ v ∈ vars, v ∉ (X.formula (X.connector symbol)).freeVars
  atom : ∀ n sign symbol args, X.formula n = .pred sign symbol args → X.builtin symbol = true →
    ∀ t ∈ args, fixedTerm T.fixed t
  quantified : ∀ n sign q vars f, X.formula n = .quant sign q vars f → ∀ v ∈ vars, v ∈ f.freeVars ∨ ∃ d, T.base.sort v.sort d
  twoValued : ∀ symbol, initbounds symbol = .twoVal → ∀ ds, inUniverse V arity T.base symbol ds →
    (T.ct symbol ds ↔ T.base.atom symbol ds) ∧ (T.cf symbol ds ↔ ¬ T.base.atom symbol ds)

-- the models of the theory that extend the structure
structure Models (M : Structure S P F D) : Prop where
  ext : T.Extends V arity X.builtin M
  holds : ∀ n ∈ sentences, ∀ e, Sorted T.base (X.formula n).freeVars e → M.holds (X.formula n) e

variable {T} {K : FOPropDomainFactory S P F D} (W : K.Means T)

-- the formula is true, or false, at all assignments in the domain
def Certain (n : N) (ct : Bool) (d : K.Domain) : Prop :=
  ∀ M, X.Models V arity T sentences M → ∀ e, Sorted T.base (X.formula n).freeVars e → W.meaning d e →
    told ct (M.holds (X.formula n) e)

def Scheduled (p : FOPropagation N) : Prop :=
  Branch (X.formula p.parent) → ∀ c, p.child = some c → c ∈ X.subformulas p.parent

structure Sound (σ : TypedFOPropagator N K) : Prop where
  certain : ∀ n ct, X.Certain V arity sentences W n ct ((σ.domains n).bound ct)
  scheduled : ∀ p ∈ σ.scheduler, X.Scheduled p

variable {X V arity sentences W} {initbounds : PFSymbol S P F → InitBoundType} {σ : TypedFOPropagator N K}
  {admissible : AdmissibleBoundChecker K}

section Update

theorem schedule_sound (hσ : X.Sound V arity sentences W σ) {p : FOPropagation N} (hp : X.Scheduled p) :
    X.Sound V arity sentences W (schedule p σ) := by
  rw [schedule]
  split_ifs
  · exact hσ
  · refine ⟨hσ.certain, fun q hq => ?_⟩
    rcases List.mem_append.mp hq with hq | hq
    · exact hσ.scheduled q hq
    · exact List.mem_singleton.mp hq ▸ hp

theorem scheduleAll_sound (hσ : X.Sound V arity sentences W σ) {ps : List (FOPropagation N)}
    (hps : ∀ p ∈ ps, X.Scheduled p) : X.Sound V arity sentences W (scheduleAll ps σ) := by
  induction ps generalizing σ with
  | nil => exact hσ
  | cons p ps ih =>
    obtain ⟨hp, hps⟩ := List.forall_mem_cons.mp hps
    exact ih (schedule_sound hσ hp) hps

theorem setBound_bound {n f : N} {ct ct' : Bool} {d : K.Domain} : ((setBound f ct d σ).domains n).bound ct' =
    if n = f ∧ ct' = ct then d else (σ.domains n).bound ct' := by
  by_cases hn : n = f
  · subst hn
    cases ct <;> cases ct' <;> simp [setBound, ThreeValuedDomain.bound]
  · simp [setBound, hn]

theorem setBound_sound (hσ : X.Sound V arity sentences W σ) {f : N} {ct : Bool} {d : K.Domain}
    (hd : X.Certain V arity sentences W f ct d) : X.Sound V arity sentences W (setBound f ct d σ) := by
  refine ⟨fun n ct' => ?_, hσ.scheduled⟩
  rw [setBound_bound]
  split_ifs with h
  · rw [h.1, h.2]
    exact hd
  · exact hσ.certain n ct'

theorem siblings_scheduled {f : N} {dir : FOPropDirection} {ct : Bool} {child : Option N} {p : FOPropagation N}
    (hp : p ∈ X.siblings f dir ct child) : X.Scheduled p := by
  cases dir with
  | down => exact absurd hp List.not_mem_nil
  | up =>
    cases child with
    | none => exact absurd hp List.not_mem_nil
    | some c =>
      obtain ⟨subf, hsubf, rfl⟩ := List.mem_map.mp hp
      exact fun _ c hc => Option.some.inj hc ▸ (List.mem_filter.mp hsubf).1

theorem onward_scheduled (hX : X.WellFormed V arity T initbounds) {f : N} {dir : FOPropDirection} {ct : Bool}
    {child : Option N} {p : FOPropagation N} (hp : p ∈ X.onward f dir ct child) : X.Scheduled p := by
  cases dir with
  | up =>
    obtain ⟨parent, hparent, rfl⟩ := List.mem_map.mp hp
    exact fun hbranch c hc => Option.some.inj hc ▸ hX.upward f parent (Option.mem_toList.mp hparent) hbranch
  | down =>
    rcases List.mem_append.mp hp with hp | hp
    · obtain ⟨subf, hsubf, rfl⟩ := List.mem_map.mp hp
      exact fun _ c hc => Option.some.inj hc ▸ hsubf
    · split at hp
      · split_ifs at hp
        · obtain ⟨m, hm, rfl⟩ := List.mem_map.mp hp
          exact fun hbranch => absurd hbranch (hX.leafupward f m (List.mem_filter.mp hm).1)
        · exact absurd hp List.not_mem_nil
        · obtain rfl := List.mem_singleton.mp hp
          exact fun _ c hc => absurd hc nofun
      · exact absurd hp List.not_mem_nil

theorem updateDomain_sound (hX : X.WellFormed V arity T initbounds) (hσ : X.Sound V arity sentences W σ) {f : N}
    {dir : FOPropDirection} {ct : Bool} {newdomain : K.Domain} {child : Option N}
    (hd : X.Certain V arity sentences W f ct newdomain) :
    X.Sound V arity sentences W (X.updateDomain admissible f dir ct newdomain child σ) := by
  have hsiblings := scheduleAll_sound hσ fun p hp => @siblings_scheduled N S P F D _ _ X f dir ct child p hp
  rw [updateDomain]
  split_ifs
  · exact hsiblings
  · refine scheduleAll_sound (setBound_sound hsiblings fun M hM e he h => ?_) fun p hp => onward_scheduled hX hp
    rcases (W.disjunction _ _ e).mp h with h | h
    · exact hσ.certain f ct M hM e he h
    · exact hd M hM e he h

end Update

section Connectives

theorem foldl_conjunction {ds : List K.Domain} {d : K.Domain} {e : Variable S → D} :
    W.meaning (ds.foldl K.conjunction d) e ↔ W.meaning d e ∧ ∀ d' ∈ ds, W.meaning d' e := by
  induction ds generalizing d with
  | nil => simp
  | cons d' ds ih => rw [List.foldl_cons, ih, W.conjunction, List.forall_mem_cons, and_assoc]

theorem certain_exists {f child : N} {ct : Bool} {d : K.Domain}
    (h : ∀ M, X.Models V arity T sentences M → ∀ e, Sorted T.base (X.formula f).freeVars e →
      Sorted T.base (X.formula child).freeVars e → W.meaning d e → told ct (M.holds (X.formula child) e)) :
    X.Certain V arity sentences W child ct (addAllToExists K admissible d (X.quantvars f child)) := by
  intro M hM e he hd
  obtain ⟨e', ⟨hsorted, hsame⟩, hd⟩ := addAllToExists_some W hd
  have hchild : ∀ v ∈ (X.formula child).freeVars, e' v = e v := fun v hv => hsame v fun hq => by
    have hnot := (List.mem_filter.mp hq).2
    simp [hv] at hnot
  have hagree : M.holds (X.formula child) e' ↔ M.holds (X.formula child) e := agree.2.2 _ _ _ hchild
  have hec : Sorted T.base (X.formula child).freeVars e' := fun v hv => (hchild v hv).symm ▸ he v hv
  refine (told_congr hagree).mp (h M hM e' (fun v hv => ?_) hec hd)
  by_cases hmem : v ∈ (X.formula child).freeVars
  · exact hec v hmem
  · exact hsorted v (List.mem_filter.mpr ⟨hv, by simpa using hmem⟩)

theorem WellFormed.child (hX : X.WellFormed V arity T initbounds) {f : N} {i : ℕ} {c : N}
    (hc : (X.subformulas f)[i]? = some c) : (parts (X.formula f))[i]? = some (X.formula c) := by
  rw [← hX.subformulas f, List.getElem?_map, hc]
  rfl

theorem told_part {b conj : Bool} {n : ℕ} {ps : List Prop} {p : Prop} (hp : ps[n]? = some p)
    (hparent : told b (if conj then ∀ q ∈ ps, q else ∃ q ∈ ps, q))
    (hothers : b ≠ conj → ∀ i q, i ≠ n → ps[i]? = some q → told (!b) q) : told b p := by
  have hmem := List.mem_of_getElem? hp
  cases b with
  | true =>
    cases conj with
    | true => exact hparent p hmem
    | false =>
      obtain ⟨q, hq, htrue⟩ := hparent
      obtain ⟨i, hi⟩ := List.mem_iff_getElem?.mp hq
      by_cases hin : i = n
      · obtain rfl := Option.some.inj ((hin ▸ hi).symm.trans hp)
        exact htrue
      · exact absurd htrue (hothers (by simp) i q hin hi)
  | false =>
    cases conj with
    | false => exact fun htrue => hparent ⟨p, hmem, htrue⟩
    | true =>
      refine fun htrue => hparent fun q hq => ?_
      obtain ⟨i, hi⟩ := List.mem_iff_getElem?.mp hq
      by_cases hin : i = n
      · obtain rfl := Option.some.inj ((hin ▸ hi).symm.trans hp)
        exact htrue
      · exact hothers (by simp) i q hin hi

theorem holds_parts {M : Structure S P F D} {sign : SIGN} {conj : Bool} {fs : List (Formula S P F D)}
    {e : Variable S → D} : M.holds (.bool sign conj fs) e ↔
      sign.apply (if conj then ∀ q ∈ fs.map (M.holds · e), q else ∃ q ∈ fs.map (M.holds · e), q) := by
  have hall : (∀ q ∈ fs.map (M.holds · e), q) ↔ ∀ f ∈ fs, M.holds f e := List.forall_mem_map
  have hsome : (∃ q ∈ fs.map (M.holds · e), q) ↔ ∃ f ∈ fs, M.holds f e := by
    constructor
    · rintro ⟨_, hq, h⟩
      obtain ⟨f, hf, rfl⟩ := List.mem_map.mp hq
      exact ⟨f, hf, h⟩
    · exact fun ⟨f, hf, h⟩ => ⟨_, List.mem_map_of_mem hf, h⟩
  rw [holds_bool, hall, hsome]

theorem free_child (hX : X.WellFormed V arity T initbounds) {bf c : N} {sign : SIGN} {conj : Bool}
    {fs : List (Formula S P F D)} (hf : X.formula bf = .bool sign conj fs) (hc : c ∈ X.subformulas bf)
    {e : Variable S → D} (he : Sorted T.base (X.formula bf).freeVars e) :
    Sorted T.base (X.formula c).freeVars e := by
  have hmem : X.formula c ∈ fs := by
    have hpart := List.mem_map_of_mem (f := X.formula) hc
    rwa [hX.subformulas, hf] at hpart
  intro v hv
  refine he v ?_
  rw [hf]
  exact mem_formulasFreeVars.mpr ⟨_, hmem, hv⟩

theorem boolDown_certain (hX : X.WellFormed V arity T initbounds) (hσ : X.Sound V arity sentences W σ) {bf c : N}
    {sign : SIGN} {conj ct : Bool} {fs : List (Formula S P F D)} (hf : X.formula bf = .bool sign conj fs) {n : ℕ}
    (hc : (X.subformulas bf)[n]? = some c) :
    X.Certain V arity sentences W c (ct == decide (sign = .pos)) (X.boolDown admissible bf sign conj ct σ c n) := by
  refine certain_exists fun M hM e he hec hd => ?_
  have hlong : (ct != (conj == decide (sign = .pos))) = ((ct == decide (sign = .pos)) != conj) := by
    cases ct <;> cases conj <;> cases decide (sign = .pos) <;> rfl
  have hother : (ct != decide (sign = .pos)) = !(ct == decide (sign = .pos)) := rfl
  rw [hlong, hother] at hd
  have hbf : W.meaning ((σ.domains bf).bound ct) e := by
    split_ifs at hd
    · exact (foldl_conjunction.mp hd).1
    · exact hd
  have hparent := hσ.certain bf ct M hM e he hbf
  rw [hf, told_congr holds_parts, ← told_sign] at hparent
  have hpart : ∀ {i c}, (X.subformulas bf)[i]? = some c →
      (fs.map (M.holds · e))[i]? = some (M.holds (X.formula c) e) := fun {i c} hc => by
    have hpart := hX.child hc
    rw [hf] at hpart
    rw [List.getElem?_map]
    exact congrArg (Option.map (M.holds · e)) hpart
  refine told_part (hpart hc) hparent fun hne i q hi hq => ?_
  rw [if_pos (by simpa using hne)] at hd
  -- the other child is decided the other way
  have hlt : i < (X.subformulas bf).length := by
    have hlt := (List.getElem?_eq_some_iff.mp hq).1
    rwa [List.length_map, ← show parts (X.formula bf) = fs by rw [hf]; rfl, ← hX.subformulas, List.length_map] at hlt
  have hi' := List.getElem?_eq_getElem hlt
  obtain rfl := Option.some.inj (hq.symm.trans (hpart hi'))
  have hmem := List.mem_of_getElem? hi'
  refine hσ.certain _ _ M hM e (free_child hX hf hmem he) ((foldl_conjunction.mp hd).2 _ ?_)
  refine (List.mem_eraseIdx_iff_getElem?).mpr ⟨i, hi, ?_⟩
  rw [List.getElem?_map, hi']
  rfl

theorem visitBool_sound (hX : X.WellFormed V arity T initbounds) (hσ : X.Sound V arity sentences W σ) {bf : N}
    {sign : SIGN} {conj ct : Bool} {fs : List (Formula S P F D)} (hf : X.formula bf = .bool sign conj fs)
    {dir : FOPropDirection} {child : Option N} (hchild : ∀ c, child = some c → c ∈ X.subformulas bf) :
    X.Sound V arity sentences W (X.visitBool admissible bf sign conj dir ct child σ) := by
  cases dir with
  | down =>
    have hloop : ∀ (l : List (N × ℕ)) (σ' : TypedFOPropagator N K), (∀ x ∈ l, x ∈ (X.subformulas bf).zipIdx) →
        X.Sound V arity sentences W σ' → X.Sound V arity sentences W (l.foldl (fun σ' x =>
          if (child = none ∨ child = some x.1) ∧ (σ'.domains x.1).twovalued = false then
            X.updateDomain admissible x.1 .down (ct == decide (sign = .pos))
              (X.boolDown admissible bf sign conj ct σ x.1 x.2) none σ'
          else σ') σ') := by
      intro l
      induction l with
      | nil => exact fun σ' _ h => h
      | cons x l ih =>
        intro σ' hmem h
        obtain ⟨hx, hl⟩ := List.forall_mem_cons.mp hmem
        refine ih _ hl ?_
        dsimp only
        split_ifs
        · exact updateDomain_sound hX h (boolDown_certain hX hσ hf (List.mem_zipIdx_iff_getElem?.mp hx))
        · exact h
    exact hloop _ σ (fun _ h => h) hσ
  | up =>
    have hchildren : ∀ {M : Structure S P F D} {e : Variable S → D} {q : Prop}, q ∈ fs.map (M.holds · e) →
        ∃ c ∈ X.subformulas bf, q = M.holds (X.formula c) e := by
      intro M e q hq
      obtain ⟨f, hmem, rfl⟩ := List.mem_map.mp hq
      have hparts : (X.subformulas bf).map X.formula = fs := (hX.subformulas bf).trans (by rw [hf]; rfl)
      rw [← hparts] at hmem
      obtain ⟨c, hc, rfl⟩ := List.mem_map.mp hmem
      exact ⟨c, hc, rfl⟩
    unfold visitBool
    dsimp only
    split_ifs with hconj
    · refine updateDomain_sound hX hσ fun M hM e he hd => ?_
      have hall := (foldl_conjunction.mp hd).2
      have hcertain : ∀ q ∈ fs.map (M.holds · e), told ct q := fun q hq => by
        obtain ⟨c, hc, rfl⟩ := hchildren hq
        exact hσ.certain c ct M hM e (free_child hX hf hc he) (hall _ (List.mem_map_of_mem hc))
      rw [hf, told_congr holds_parts, told_sign_apply, ← hconj]
      cases ct with
      | true => exact hcertain
      | false =>
        rintro ⟨q, hq, h⟩
        exact hcertain q hq h
    · cases child with
      | none => exact hσ
      | some c =>
        refine updateDomain_sound hX hσ fun M hM e he hd => ?_
        have hc := hchild c rfl
        have hcertain := hσ.certain c ct M hM e (free_child hX hf hc he) hd
        have hmem : M.holds (X.formula c) e ∈ fs.map (M.holds · e) := by
          have hpart := List.mem_map_of_mem (f := X.formula) hc
          rw [hX.subformulas, hf] at hpart
          exact List.mem_map_of_mem (f := (M.holds · e)) hpart
        rw [hf, told_congr holds_parts, told_sign_apply]
        cases ct with
        | true =>
          cases conj with
          | true => exact absurd rfl hconj
          | false => exact ⟨_, hmem, hcertain⟩
        | false =>
          cases conj with
          | true => exact fun h => hcertain (h _ hmem)
          | false => exact absurd rfl hconj

theorem told_equiv {b : Bool} {p q : Prop} (h : told b (p ↔ q)) : (p → told b q) ∧ (¬ p → told (!b) q) ∧
    (q → told b p) ∧ (¬ q → told (!b) p) := by
  cases b <;> simp [told] at h ⊢ <;> tauto

theorem equiv_children (hX : X.WellFormed V arity T initbounds) {ef left right : N} {sign : SIGN}
    {l r : Formula S P F D} (hf : X.formula ef = .equiv sign l r) (hsub : X.subformulas ef = [left, right]) :
    X.formula left = l ∧ X.formula right = r := by
  have hparts := hX.subformulas ef
  rw [hf, hsub] at hparts
  exact ⟨(List.cons.inj hparts).1, (List.cons.inj (List.cons.inj hparts).2).1⟩

theorem visitEquivChild_sound (hX : X.WellFormed V arity T initbounds) (hσ : X.Sound V arity sentences W σ)
    {ef left right : N} {sign : SIGN} {l r : Formula S P F D} {ct : Bool} (hf : X.formula ef = .equiv sign l r)
    (hsub : X.subformulas ef = [left, right]) {dir : FOPropDirection} {child : N} (hchild : child ∈ [left, right]) :
    X.Sound V arity sentences W (X.visitEquivChild admissible ef sign left right dir ct child σ) := by
  obtain ⟨hl, hr⟩ := equiv_children hX hf hsub
  generalize hother : (if child = left then right else left) = otherchild
  -- the child and the other one make up the equivalence
  have hholds : ∀ (M : Structure S P F D) e, M.holds (X.formula ef) e ↔
      sign.apply (M.holds (X.formula child) e ↔ M.holds (X.formula otherchild) e) := by
    intro M e
    rw [hf]
    by_cases hleft : child = left
    · rw [if_pos hleft] at hother
      rw [hleft, ← hother, hl, hr]
      rfl
    · rw [if_neg hleft] at hother
      obtain rfl : child = right := by simpa [hleft] using hchild
      rw [← hother, hl, hr]
      exact iff_of_eq (congrArg sign.apply (propext iff_comm))
  have hfree : ∀ {e}, Sorted T.base (X.formula ef).freeVars e → Sorted T.base (X.formula otherchild).freeVars e ∧
      Sorted T.base (X.formula child).freeVars e := by
    intro e he
    rw [hf] at he
    obtain ⟨hel, her⟩ := sorted_append.mp he
    by_cases hleft : child = left
    · rw [if_pos hleft] at hother
      rw [hleft, ← hother, hl, hr]
      exact ⟨her, hel⟩
    · rw [if_neg hleft] at hother
      obtain rfl : child = right := by simpa [hleft] using hchild
      rw [← hother, hl, hr]
      exact ⟨hel, her⟩
  simp only [visitEquivChild, hother]
  cases dir with
  | down =>
    refine updateDomain_sound hX (updateDomain_sound hX hσ ?_) ?_
    all_goals
      refine certain_exists fun M hM e he hec hd => ?_
      obtain ⟨hparent, hd⟩ := (W.conjunction _ _ e).mp hd
      have hequiv := hσ.certain ef ct M hM e he hparent
      rw [told_congr (hholds M e), ← told_sign] at hequiv
      have hparts := told_equiv hequiv
    · exact hparts.2.2.1 (hσ.certain otherchild true M hM e (hfree he).1 hd)
    · exact hparts.2.2.2 (hσ.certain otherchild false M hM e (hfree he).1 hd)
  | up =>
    refine updateDomain_sound hX (updateDomain_sound hX hσ ?_) ?_
    all_goals
      intro M hM e he hd
      obtain ⟨hchild, hd⟩ := (W.conjunction _ _ e).mp hd
      have hcertain := hσ.certain child ct M hM e (hfree he).2 hchild
    · have hotherside := hσ.certain otherchild true M hM e (hfree he).1 hd
      rw [told_congr (hholds M e), told_sign_apply]
      cases ct with
      | true => exact iff_of_true hcertain hotherside
      | false => exact fun h => hcertain (h.mpr hotherside)
    · have hotherside := hσ.certain otherchild false M hM e (hfree he).1 hd
      rw [told_not_sign, told_congr (hholds M e), told_sign_apply]
      cases ct with
      | true => exact fun h => hotherside (h.mp hcertain)
      | false => exact fun h => h (iff_of_false hcertain hotherside)

theorem visitEquiv_sound (hX : X.WellFormed V arity T initbounds) (hσ : X.Sound V arity sentences W σ)
    {ef : N} {sign : SIGN} {l r : Formula S P F D} {ct : Bool} (hf : X.formula ef = .equiv sign l r)
    {dir : FOPropDirection} {child : Option N} (hchild : ∀ c, child = some c → c ∈ X.subformulas ef) :
    X.Sound V arity sentences W (X.visitEquiv admissible ef sign dir ct child σ) := by
  rw [visitEquiv]
  split
  · rename_i left right hsub
    cases child with
    | some c => exact visitEquivChild_sound hX hσ hf hsub (hsub ▸ hchild c rfl)
    | none =>
      have hright : right ∈ [left, right] := List.mem_cons_of_mem _ (List.mem_singleton_self right)
      refine visitEquivChild_sound hX (visitEquivChild_sound hX ?_ hf hsub hright) hf hsub hright
      exact visitEquivChild_sound hX hσ hf hsub List.mem_cons_self
  · exact hσ

end Connectives

section Quantifiers

variable {qf sub : N} {sign : SIGN} {q : QUANT} {vars : List (Variable S)} {f : Formula S P F D} {ct : Bool}

theorem free_quant {v : Variable S} : v ∈ (Formula.quant sign q vars f).freeVars ↔ v ∈ f.freeVars ∧ v ∉ vars := by
  rw [Formula.freeVars, List.mem_filter]
  simp

theorem quant_child (hX : X.WellFormed V arity T initbounds) (hf : X.formula qf = .quant sign q vars f)
    (hsub : X.subformulas qf = [sub]) : X.formula sub = f := by
  have hparts := hX.subformulas qf
  rw [hf, hsub] at hparts
  exact (List.cons.inj hparts).1

theorem sorted_varies {e e' : Variable S → D} (he : Sorted T.base (Formula.quant sign q vars f).freeVars e)
    (h : Varies T.base vars e e') : Sorted T.base f.freeVars e' := fun v hv => by
  by_cases hmem : v ∈ vars
  · exact h.1 v hmem
  · rw [h.2 v hmem]
    exact he v (free_quant.mpr ⟨hv, hmem⟩)

theorem holds_varies {M : Structure S P F D} (hM : X.Models V arity T sentences M) {e : Variable S → D} :
    M.holds (.quant sign q vars f) e ↔ sign.apply (if q.isUniv
      then ∀ e', Varies T.base vars e e' → M.holds f e' else ∃ e', Varies T.base vars e e' ∧ M.holds f e') := by
  rw [holds_quant, hM.ext.varies]

theorem told_quant {M : Structure S P F D} (hM : X.Models V arity T sentences M) {e : Variable S → D} :
    told ct (M.holds (.quant sign q vars f) e) ↔ told (ct == decide (sign = .pos)) (if q.isUniv
      then ∀ e', Varies T.base vars e e' → M.holds f e' else ∃ e', Varies T.base vars e e' ∧ M.holds f e') := by
  rw [told_congr (holds_varies hM), ← told_sign]

theorem exists_varies (hvars : ∀ v ∈ vars, v ∈ f.freeVars ∨ ∃ d, T.base.sort v.sort d) {e : Variable S → D}
    (he : Sorted T.base f.freeVars e) : ∃ e', Varies T.base vars e e' ∧ ∀ v ∈ f.freeVars, e' v = e v := by
  have hvalue : ∀ v, ∃ d, (v ∈ vars → T.base.sort v.sort d) ∧ (v ∈ f.freeVars ∨ v ∉ vars → d = e v) := by
    intro v
    by_cases hfree : v ∈ f.freeVars
    · exact ⟨e v, fun _ => he v hfree, fun _ => rfl⟩
    · by_cases hmem : v ∈ vars
      · obtain ⟨d, hd⟩ := (hvars v hmem).resolve_left hfree
        exact ⟨d, fun _ => hd, fun h => absurd h (not_or.mpr ⟨hfree, not_not.mpr hmem⟩)⟩
      · exact ⟨e v, fun h => absurd h hmem, fun _ => rfl⟩
  choose e' hsorted hsame using hvalue
  exact ⟨e', ⟨hsorted, fun v hv => hsame v (Or.inr hv)⟩, fun v hv => hsame v (Or.inl hv)⟩

theorem quantDown_certain (hX : X.WellFormed V arity T initbounds) (hσ : X.Sound V arity sentences W σ)
    (hf : X.formula qf = .quant sign q vars f) (hsub : X.subformulas qf = [sub])
    (hct : ct = (decide (sign = .pos) == q.isUniv)) :
    X.Certain V arity sentences W sub (ct == decide (sign = .pos)) ((σ.domains qf).bound ct) := by
  intro M hM e he hd
  rw [quant_child hX hf hsub] at he ⊢
  have hparent := hσ.certain qf ct M hM e
  rw [hf, told_quant hM] at hparent
  have hinner := hparent (fun v hv => he v (free_quant.mp hv).1) hd
  have hb : (ct == decide (sign = .pos)) = q.isUniv := by
    rw [hct]
    cases decide (sign = .pos) <;> cases q <;> rfl
  obtain ⟨e', hvaries, hsame⟩ := exists_varies (hX.quantified qf sign q vars f hf) he
  refine (told_congr (agree.2.2 f _ _ hsame)).mp ?_
  rw [hb] at hinner ⊢
  cases q with
  | univ => exact hinner e' hvaries
  | exist => exact fun h => hinner ⟨e', hvaries, h⟩

theorem foldl_addToExists {d : K.Domain} {qvars : List (Variable S)} {e : Variable S → D}
    (h : W.meaning (qvars.foldl (addToExists K) d) e) : ∃ e', Varies T.base qvars e e' ∧ W.meaning d e' := by
  have hall : ∀ qvars d, qvars.foldl (addToExists K) d = addAllToExists K (fun _ _ => true) d qvars := by
    intro qvars
    induction qvars with
    | nil => exact fun d => rfl
    | cons v qvars ih => exact fun d => ih _
  rw [hall] at h
  exact addAllToExists_some W h

theorem image_fresh {n : ℕ} {v : Variable S} :
    image (vars.map fun var => (var, fresh n var)) v = if v ∈ vars then fresh n v else v := by
  induction vars with
  | nil => rfl
  | cons w vars ih =>
    by_cases hvw : v = w
    · subst hvw
      simp [image]
    · have hne : (v == w) = false := by simpa using hvw
      rw [image] at ih ⊢
      simp only [List.map_cons, List.lookup_cons, hne, List.mem_cons, hvw, false_or]
      exact ih

theorem fresh_not_mem {n : ℕ} {v : Variable S} (h : v.id < n) : v ∉ vars.map (fresh n) := by
  intro hmem
  obtain ⟨w, -, rfl⟩ := List.mem_map.mp hmem
  exact absurd h (by simp [fresh])

theorem exists_fresh (n : ℕ) {e e2 : Variable S → D} (he2 : Varies T.base vars e e2) :
    ∃ e', Varies T.base (vars.map (fresh n)) e e' ∧ ∀ v ∈ vars, e' (fresh n v) = e2 v := by
  have hvalue : ∀ v : Variable S, ∃ d, (∀ w ∈ vars, fresh n w = v → d = e2 w) ∧ (v ∉ vars.map (fresh n) → d = e v) := by
    intro v
    by_cases hmem : v ∈ vars.map (fresh n)
    · obtain ⟨w, hw, rfl⟩ := List.mem_map.mp hmem
      refine ⟨e2 w, fun w' _ heq => ?_, fun h => absurd hmem h⟩
      have hid := congrArg Variable.id heq
      have hsort := congrArg Variable.sort heq
      simp only [fresh] at hid hsort
      have hww : w' = w := by
        cases w
        cases w'
        simp_all
      rw [hww]
    · exact ⟨e v, fun w hw heq => absurd (heq ▸ List.mem_map_of_mem hw) hmem, fun _ => rfl⟩
  choose e' hnew hsame using hvalue
  refine ⟨e', ⟨fun v hv => ?_, hsame⟩, fun v hv => hnew _ v hv rfl⟩
  obtain ⟨w, hw, rfl⟩ := List.mem_map.mp hv
  rw [hnew _ w hw rfl]
  exact he2.1 w hw

theorem onlyOneLeft_certain (hX : X.WellFormed V arity T initbounds) (hσ : X.Sound V arity sentences W σ)
    (hf : X.formula qf = .quant sign q vars f) (hsub : X.subformulas qf = [sub])
    (hct : ct ≠ (decide (sign = .pos) == q.isUniv)) :
    X.Certain V arity sentences W sub (ct == decide (sign = .pos)) (X.onlyOneLeft admissible qf sub vars ct σ) := by
  intro M hM e he hd
  rw [onlyOneLeft, quant_child hX hf hsub] at hd
  rw [quant_child hX hf hsub] at he ⊢
  obtain ⟨e1, hvaries1, hd⟩ := foldl_addToExists hd
  have hsame1 : ∀ v ∈ f.freeVars, e1 v = e v := fun v hv => hvaries1.2 v fun hmem => by
    have hnot := (List.mem_filter.mp hmem).2
    simp [hv] at hnot
  have he1 : Sorted T.base f.freeVars e1 := fun v hv => (hsame1 v hv).symm ▸ he v hv
  refine (told_congr (agree.2.2 f _ _ hsame1)).mp ?_
  obtain ⟨hbound, huniv⟩ := (W.conjunction _ _ e1).mp hd
  have hparent := hσ.certain qf ct M hM e1
  have hopposite := hσ.certain qf (!ct) M hM
  rw [hf] at hparent hopposite
  have htold := hparent (fun v hv => he1 v (free_quant.mp hv).1) hbound
  have hinner := (told_quant hM).mp htold
  have hb : (ct == decide (sign = .pos)) = !q.isUniv := by
    revert hct
    cases ct <;> cases decide (sign = .pos) <;> cases q.isUniv <;> simp
  rw [hb] at hinner ⊢
  have hsome : ∃ e2, Varies T.base vars e1 e2 ∧ told (!q.isUniv) (M.holds f e2) := by
    cases q with
    | univ =>
      obtain ⟨e2, h⟩ := not_forall.mp hinner
      obtain ⟨hvaries, h⟩ := Classical.not_imp.mp h
      exact ⟨e2, hvaries, h⟩
    | exist => exact hinner
  obtain ⟨e2, hvaries2, h2⟩ := hsome
  have hid : ∀ v ∈ vars ++ f.freeVars, v.id < firstFree (vars ++ f.freeVars) := fun v hv => lt_firstFree hv
  obtain ⟨e', hvaries', hfresh⟩ := exists_fresh (firstFree (vars ++ f.freeVars)) hvaries2
  rcases (W.disjunction _ _ e').mp (addAllToForall_all W huniv e' hvaries') with h | h
  · -- the values are those of the one that is left
    have hequal := (foldl_conjunction.mp h).2
    have hall : e2 = e1 := by
      funext v
      by_cases hv : v ∈ vars
      · have heq := holds_equality.mp ((W.formuladomain _ e').mp (hequal _ (List.mem_map_of_mem hv)))
        rw [hfresh v hv, hvaries'.2 v (fresh_not_mem (hid v (List.mem_append_left _ hv)))] at heq
        exact heq.symm
      · exact hvaries2.2 v hv
    exact hall ▸ h2
  · have hg := (W.substitute _ _ e').mp h
    have hsame : ∀ v ∈ (Formula.quant sign q vars f).freeVars,
        e' (image (vars.map fun var => (var, fresh (firstFree (vars ++ f.freeVars)) var)) v) = e1 v := fun v hv => by
      obtain ⟨hfree, hmem⟩ := free_quant.mp hv
      rw [image_fresh, if_neg hmem]
      exact hvaries'.2 v (fresh_not_mem (hid v (List.mem_append_right _ hfree)))
    have hnot := hopposite _ (fun v hv => (hsame v hv).symm ▸ he1 v (free_quant.mp hv).1) hg
    have hagree : M.holds (.quant sign q vars f) _ ↔ M.holds (.quant sign q vars f) e1 := agree.2.2 _ _ _ hsame
    rw [told_congr hagree] at hnot
    cases ct with
    | true => exact absurd htold hnot
    | false => exact absurd hnot htold

theorem visitQuant_sound (hX : X.WellFormed V arity T initbounds) (hσ : X.Sound V arity sentences W σ)
    {existsOnlyOneLeft : Bool} (hf : X.formula qf = .quant sign q vars f) {dir : FOPropDirection} :
    X.Sound V arity sentences W (X.visitQuant admissible existsOnlyOneLeft qf sign q vars dir ct σ) := by
  unfold visitQuant
  split
  · rename_i sub hsub
    cases dir with
    | down =>
      dsimp only
      split_ifs with hct
      · exact updateDomain_sound hX hσ (onlyOneLeft_certain hX hσ hf hsub hct)
      · exact hσ
      · exact updateDomain_sound hX hσ (quantDown_certain hX hσ hf hsub (not_not.mp hct))
    | up =>
      refine updateDomain_sound hX hσ fun M hM e he hd => ?_
      rw [hf] at he ⊢
      have hbody : ∀ e', Varies T.base vars e e' → W.meaning ((σ.domains sub).bound ct) e' → told ct (M.holds f e') :=
        fun e' hvaries hd => by
          have hcertain := hσ.certain sub ct M hM e'
          rw [quant_child hX hf hsub] at hcertain
          exact hcertain (sorted_varies he hvaries) hd
      rw [told_congr (holds_varies hM), told_sign_apply]
      split_ifs at hd with hq
      · have hall := addAllToForall_all W hd
        rw [← hq]
        cases ct with
        | true => exact fun e' hvaries => hbody e' hvaries (hall e' hvaries)
        | false => exact fun ⟨e', hvaries, h⟩ => hbody e' hvaries (hall e' hvaries) h
      · obtain ⟨e', hvaries, hd⟩ := addAllToExists_some W hd
        have hcertain := hbody e' hvaries hd
        rw [Bool.eq_not.mpr (Ne.symm hq)]
        cases ct with
        | true => exact ⟨e', hvaries, hcertain⟩
        | false => exact fun h => hcertain (h e' hvaries)
  · exact hσ

end Quantifiers

section Atoms

variable [DecidableEq P] [DecidableEq F] {pf : N} {sign : SIGN} {symbol : PFSymbol S P F} {ct : Bool}

theorem inUniverse_map_iff {vars : List (Variable S)}
    (hsorts : vars.map Variable.sort = (List.range (arity symbol)).map (V.sort symbol)) {a : Variable S → D} :
    inUniverse V arity T.base symbol (vars.map a) ↔ Sorted T.base vars a := by
  have hsize : vars.length = arity symbol := by
    have hsize := congrArg List.length hsorts
    rwa [List.length_map, List.length_map, List.length_range] at hsize
  have hsort : ∀ {i : ℕ} {v}, vars[i]? = some v → v.sort = V.sort symbol i := fun {i v} hi => by
    have hsort := congrArg (fun l : List S => l[i]?) hsorts
    have hlt : i < arity symbol := hsize ▸ (List.getElem?_eq_some_iff.mp hi).1
    simpa only [List.getElem?_map, hi, List.getElem?_range hlt, Option.map_some, Option.some.injEq] using hsort
  constructor
  · intro hu v hv
    obtain ⟨i, hi⟩ := List.mem_iff_getElem?.mp hv
    rw [hsort hi]
    refine hu.2 i (a v) ?_
    rw [List.getElem?_map, hi]
    rfl
  · refine fun ha => ⟨(List.length_map a).trans hsize, fun i d hd => ?_⟩
    rw [List.getElem?_map] at hd
    obtain ⟨v, hv, rfl⟩ := Option.map_eq_some_iff.mp hd
    exact hsort hv ▸ ha v (List.mem_of_getElem? hv)

-- what the data of an atom is made of
structure Connects (X : Network N S P F D) (V : SortedVocabulary S P F) (arity : PFSymbol S P F → ℕ) (pf : N)
    (sign : SIGN) (symbol : PFSymbol S P F) (lcd : LeafConnectData N K) (connectvars leafvars : List (Variable S)) :
    Prop where
  builtin : X.builtin symbol = false
  connector : lcd.connector = X.connector symbol
  leaf : X.formula pf = .pred sign symbol (leafvars.map .var)
  formula : X.formula (X.connector symbol) = .pred .pos symbol (connectvars.map .var)
  nodup : connectvars.Nodup
  sorts : connectvars.map Variable.sort = (List.range (arity symbol)).map (V.sort symbol)
  length : leafvars.length = connectvars.length
  disjoint : ∀ v ∈ leafvars, v ∉ connectvars
  connectortoleaf : lcd.connectortoleaf = connectvars.zip leafvars
  equalities : ∃ d, connectVariables K (connectvars.zip leafvars) (d, []) = (lcd.equalities, lcd.leaftoconnector)

theorem leafconnectdata_connects (hX : X.WellFormed V arity T initbounds) {args : List (Term S P F D)}
    (hf : X.formula pf = .pred sign symbol args) {lcd : LeafConnectData N K}
    (h : X.leafconnectdata K pf = some lcd) :
    ∃ connectvars leafvars, Connects X V arity pf sign symbol lcd connectvars leafvars := by
  rw [leafconnectdata, hf] at h
  dsimp only at h
  split_ifs at h with hbuiltin
  obtain ⟨hsymbol, hconnector⟩ : X.builtin symbol = false ∧ pf ≠ X.connector symbol := by simpa using hbuiltin
  obtain ⟨connectvars, hformula, hnodup, hsorts⟩ := hX.connector symbol hsymbol
  obtain ⟨leafvars, rfl, hlength, hdisjoint⟩ := hX.leaf pf sign symbol args hf hsymbol hconnector
  rw [hformula, freeVars_map] at hdisjoint
  rw [hformula, atomVariables_map, atomVariables_map] at h
  have hsize : connectvars.length = arity symbol := by
    have hsize := congrArg List.length hsorts
    rwa [List.length_map, List.length_map, List.length_range] at hsize
  cases h
  exact ⟨connectvars, leafvars, hsymbol, rfl, hf, hformula, hnodup, hsorts, hlength.trans hsize.symm, hdisjoint, rfl,
    _, rfl⟩

theorem right_of_forall₂ {α β : Type} {R : α → β → Prop} {l : List α} {l' : List β} (h : List.Forall₂ R l l') :
    ∀ y ∈ l', ∃ x ∈ l, R x y := by
  induction h with
  | nil => exact nofun
  | cons hxy _ ih =>
    refine List.forall_mem_cons.mpr ⟨⟨_, List.mem_cons_self, hxy⟩, fun y hy => ?_⟩
    obtain ⟨x, hx, h⟩ := ih y hy
    exact ⟨x, List.mem_cons_of_mem _ hx, h⟩

theorem map_of_forall₂ {α β γ : Type} {f : α → γ} {g : β → γ} {l : List α} {l' : List β}
    (h : List.Forall₂ (fun x y => g y = f x) l l') : l'.map g = l.map f := by
  induction h with
  | nil => rfl
  | cons hxy _ ih => exact congrArg₂ List.cons hxy ih

variable {lcd : LeafConnectData N K} {connectvars leafvars : List (Variable S)}

theorem Connects.down_certain (h : Connects X V arity pf sign symbol lcd connectvars leafvars)
    (hσ : X.Sound V arity sentences W σ) : X.Certain V arity sentences W lcd.connector (ct == decide (sign = .pos))
      (K.substitute (K.conjunction ((σ.domains pf).bound ct) lcd.equalities) lcd.leaftoconnector) := by
  intro M hM a ha hd
  rw [h.connector, h.formula] at ha ⊢
  rw [freeVars_map] at ha
  rw [W.substitute, W.conjunction] at hd
  obtain ⟨d, hequalities⟩ := h.equalities
  obtain ⟨hmeans, -, hfrom⟩ := connectVariables_means W hequalities
  have hconnect := (hmeans _ hd.2).2
  -- the connector's variables are not replaced
  have hkeep : ∀ c ∈ connectvars, image lcd.leaftoconnector c = c := by
    intro c hc
    rw [image]
    cases hlookup : lcd.leaftoconnector.lookup c with
    | none => rfl
    | some w =>
      rcases hfrom c w hlookup with h' | h'
      · exact absurd h' (by simp)
      · exact absurd hc (h.disjoint c (List.of_mem_zip h').2)
  have hall : List.Forall₂ (fun c x => a (image lcd.leaftoconnector x) = a c ∧
      T.base.sort x.sort (a (image lcd.leaftoconnector x))) connectvars leafvars := by
    refine List.forall₂_iff_zip.mpr ⟨h.length.symm, fun {c x} hcx => ?_⟩
    obtain ⟨w, hlookup, hequal, hsort⟩ := hconnect (c, x) hcx
    have hw : w ∈ connectvars := by
      rcases hfrom x w hlookup with h' | h'
      · exact absurd h' (by simp)
      · exact (List.of_mem_zip h').1
    have hx : image lcd.leaftoconnector x = w := by
      rw [image, hlookup]
      rfl
    have hc := (List.of_mem_zip hcx).1
    rw [hkeep c hc, hkeep w hw] at hequal
    rw [hx, ← hequal]
    refine ⟨rfl, ?_⟩
    by_cases hsorts : x.sort = c.sort
    · exact hsorts ▸ ha c hc
    · have hchecked := hsort hsorts
      rwa [hkeep c hc] at hchecked
  have hleaf := hσ.certain pf ct M hM (fun v => a (image lcd.leaftoconnector v))
  rw [h.leaf, freeVars_map, told_congr (holds_map _), ← told_sign] at hleaf
  have htold := hleaf (fun x hx => (right_of_forall₂ hall x hx).elim fun _ h => h.2.2) hd.1
  rw [map_of_forall₂ (hall.imp fun _ _ h => h.1)] at htold
  exact (told_congr (holds_map a)).mpr htold

theorem Connects.map_image (h : Connects X V arity pf sign symbol lcd connectvars leafvars) (e : Variable S → D) :
    (connectvars.map fun v => e (image (connectvars.zip leafvars) v)) = leafvars.map e := by
  have hlookup : ∀ (cs xs : List (Variable S)), cs.Nodup → xs.length = cs.length →
      (cs.map fun v => e (image (cs.zip xs) v)) = xs.map e := by
    intro cs
    induction cs with
    | nil => exact fun xs _ hlength => (List.eq_nil_of_length_eq_zero hlength).symm ▸ rfl
    | cons c cs ih =>
      intro xs hnodup hlength
      cases xs with
      | nil => exact absurd hlength nofun
      | cons x xs =>
        obtain ⟨hc, hnodup⟩ := List.nodup_cons.mp hnodup
        have hhead : image ((c :: cs).zip (x :: xs)) c = x := by simp [image]
        have htail : ∀ v ∈ cs, image ((c :: cs).zip (x :: xs)) v = image (cs.zip xs) v := fun v hv => by
          have hne : (v == c) = false := by simpa using ne_of_mem_of_not_mem hv hc
          simp [image, List.lookup, hne]
        rw [List.map_cons, List.map_cons, hhead, ← ih xs hnodup (Nat.succ.inj hlength)]
        exact congrArg (e x :: ·) (List.map_congr_left fun v hv => congrArg e (htail v hv))
  exact hlookup connectvars leafvars h.nodup h.length

-- what goes up from a connector as true lies in the universe of the symbol
def Fits (X : Network N S P F D) (V : SortedVocabulary S P F) (arity : PFSymbol S P F → ℕ) (W : K.Means T)
    (p : FOPropagation N) (σ : TypedFOPropagator N K) : Prop :=
  p.direction = .up → p.ct = true → ∀ sign symbol vars, X.formula p.parent = .pred sign symbol (vars.map .var) →
    X.builtin symbol = false → ∀ e, Sorted T.base vars e →
      W.meaning (σ.domains (X.connector symbol)).ctdomain (fun v =>
        e (image ((atomVariables (X.formula (X.connector symbol))).zip vars) v)) →
      inUniverse V arity T.base symbol (vars.map e)

theorem visitPred_sound (hX : X.WellFormed V arity T initbounds) (hσ : X.Sound V arity sentences W σ)
    {args : List (Term S P F D)} (hf : X.formula pf = .pred sign symbol args) {dir : FOPropDirection}
    {child : Option N} (hfits : X.Fits V arity W ⟨pf, dir, ct, child⟩ σ) :
    X.Sound V arity sentences W (X.visitPred admissible pf sign dir ct σ) := by
  unfold visitPred
  split
  · exact hσ
  · rename_i lcd hlcd
    obtain ⟨connectvars, leafvars, h⟩ := leafconnectdata_connects hX hf hlcd
    cases dir with
    | down =>
      dsimp only
      split_ifs
      · exact hσ
      · exact updateDomain_sound hX hσ (h.down_certain hσ)
    | up =>
      dsimp only
      split_ifs
      · exact hσ
      · refine updateDomain_sound hX hσ fun M hM e he hd => ?_
        rw [h.leaf] at he ⊢
        rw [freeVars_map] at he
        rw [W.substitute, h.connectortoleaf, h.connector] at hd
        rw [told_congr (holds_map e), told_sign_apply]
        by_cases hu : inUniverse V arity T.base symbol (leafvars.map e)
        · have hconnector := hσ.certain (X.connector symbol) ct M hM _ (by
            rw [h.formula, freeVars_map]
            exact (inUniverse_map_iff h.sorts).mp (h.map_image e ▸ hu)) hd
          rw [h.formula, told_congr (holds_map _), h.map_image] at hconnector
          exact hconnector
        · cases ct with
          | true =>
            have hin := hfits rfl rfl sign symbol leafvars h.leaf h.builtin e he
            rw [h.formula, atomVariables_map] at hin
            exact absurd (hin hd) hu
          | false => exact fun hatom => hu (hM.ext.within symbol h.builtin _ hatom)

theorem visit_sound (hX : X.WellFormed V arity T initbounds) (hσ : X.Sound V arity sentences W σ)
    {existsOnlyOneLeft : Bool} {p : FOPropagation N} (hp : X.Scheduled p) (hfits : X.Fits V arity W p σ) :
    X.Sound V arity sentences W (X.visit admissible existsOnlyOneLeft p σ) := by
  unfold visit
  split
  · rename_i hf
    exact visitPred_sound hX hσ hf hfits
  · exact hσ
  · rename_i hf
    exact visitEquiv_sound hX hσ hf (hp (by rw [hf]; trivial))
  · rename_i hf
    exact visitBool_sound hX hσ hf (hp (by rw [hf]; trivial))
  · rename_i hf
    exact visitQuant_sound hX hσ hf
  · exact hσ

end Atoms

section Create

variable [DecidableEq P] [DecidableEq F] {n : N} {ct : Bool}

theorem unknownDomain_certain : X.Certain V arity sentences W n ct ((unknownDomain (X.formula n)).bound ct) :=
  fun M hM e he hd => by
    cases ct <;> exact absurd hd (W.falseDomain _ e)

theorem formulaDomain_certain (h : ∀ M, X.Models V arity T sentences M → ∀ e,
      Sorted T.base (X.formula n).freeVars e → (M.holds (X.formula n) e ↔ T.base.holds (X.formula n) e)) :
    X.Certain V arity sentences W n ct ((formulaDomain (X.formula n)).bound ct) := by
  intro M hM e he hd
  cases ct with
  | true => exact (h M hM e he).mpr ((W.formuladomain _ e).mp hd)
  | false => exact fun hn => (holds_negate _ e).mp ((W.formuladomain _ e).mp hd) ((h M hM e he).mp hn)

theorem connectorDomain_certain (hX : X.WellFormed V arity T initbounds) {symbol : PFSymbol S P F}
    (hbuiltin : X.builtin symbol = false) (hn : n = X.connector symbol) :
    X.Certain V arity sentences W n ct ((connectorDomain initbounds symbol (X.formula n)).bound ct) := by
  intro M hM e he hd
  obtain ⟨vars, hf, -, hsorts⟩ := hX.connector symbol hbuiltin
  rw [hn, hf] at hd he ⊢
  rw [freeVars_map] at he
  rw [told_congr (holds_map e)]
  have hu := (inUniverse_map_iff hsorts).mpr he
  have hct : T.ct symbol (vars.map e) → told true (M.atom symbol (vars.map e)) := hM.ext.ct symbol hbuiltin _ hu
  have hcf : T.cf symbol (vars.map e) → told false (M.atom symbol (vars.map e)) := hM.ext.cf symbol hbuiltin _ hu
  unfold connectorDomain at hd
  cases ct with
  | true =>
    cases hinit : initbounds symbol <;> rw [hinit] at hd
    · refine hct ((hX.twoValued symbol hinit _ hu).1.mpr ?_)
      exact (holds_map e).mp ((W.formuladomain _ e).mp hd)
    · exact hct ((W.ctDomain symbol _ e _ (values_map e)).mp hd)
    · exact hct ((W.ctDomain symbol _ e _ (values_map e)).mp hd)
    · exact absurd hd (W.falseDomain _ e)
    · exact absurd hd (W.falseDomain _ e)
  | false =>
    cases hinit : initbounds symbol <;> rw [hinit] at hd
    · refine hcf ((hX.twoValued symbol hinit _ hu).2.mpr ?_)
      exact fun hatom => (holds_negate _ e).mp ((W.formuladomain _ e).mp hd) ((holds_map e).mpr hatom)
    · exact hcf ((W.cfDomain symbol _ e _ (values_map e)).mp hd)
    · exact absurd hd (W.falseDomain _ e)
    · exact hcf ((W.cfDomain symbol _ e _ (values_map e)).mp hd)
    · exact absurd hd (W.falseDomain _ e)

theorem initialDomain_certain (hX : X.WellFormed V arity T initbounds) :
    X.Certain V arity sentences W n ct ((X.initialDomain sentences initbounds n).bound ct) := by
  unfold initialDomain
  dsimp only
  by_cases hsentence : n ∈ sentences
  · rw [if_pos hsentence]
    intro M hM e he hd
    cases ct with
    | true => exact hM.holds n hsentence e he
    | false => exact absurd hd (W.falseDomain _ e)
  · rw [if_neg hsentence]
    split
    · rename_i sign symbol args hf
      split_ifs with hbuiltin hupward hconnector
      · refine formulaDomain_certain fun M hM e he => ?_
        have hvalues := hM.ext.values (hX.atom n sign symbol args hf hbuiltin) e
        rw [hf]
        refine iff_of_eq (congrArg sign.apply (propext ?_))
        rw [applied, applied, hvalues]
        exact exists_congr fun ds => and_congr_right fun _ => hM.ext.agrees symbol hbuiltin ds
      · exact unknownDomain_certain
      · exact connectorDomain_certain hX (Bool.eq_false_iff.mpr hbuiltin) hconnector
      · exact unknownDomain_certain
    · rename_i sign conj hf
      refine formulaDomain_certain fun M hM e he => ?_
      rw [hf, holds_bool, holds_bool]
      simp
    · exact unknownDomain_certain

theorem initialPropagations_scheduled (hX : X.WellFormed V arity T initbounds) {p : FOPropagation N}
    (hp : p ∈ X.initialPropagations sentences n) : X.Scheduled p := by
  rcases List.mem_append.mp hp with hp | hp
  · split_ifs at hp
    · obtain rfl := List.mem_singleton.mp hp
      exact fun _ c hc => absurd hc nofun
    · exact absurd hp List.not_mem_nil
  · split at hp
    · rename_i sign symbol args hf
      split_ifs at hp
      · obtain ⟨parent, hparent, hp⟩ := List.mem_flatMap.mp hp
        have hchild := hX.upward n parent (Option.mem_toList.mp hparent)
        rcases List.mem_cons.mp hp with rfl | hp
        · exact fun hbranch c hc => Option.some.inj hc ▸ hchild hbranch
        · obtain rfl := List.mem_singleton.mp hp
          exact fun hbranch c hc => Option.some.inj hc ▸ hchild hbranch
      · have hbranch : ¬ Branch (X.formula n) := by
          rw [hf]
          exact id
        rcases List.mem_cons.mp hp with rfl | hp
        · exact fun h => absurd h hbranch
        · obtain rfl := List.mem_singleton.mp hp
          exact fun h => absurd h hbranch
    · exact absurd hp List.not_mem_nil

theorem create_sound (hX : X.WellFormed V arity T initbounds) {maxsteps : ℤ} {visited : List N}
    (h : X.create sentences initbounds maxsteps visited = some σ) : X.Sound V arity sentences W σ := by
  rw [create] at h
  split_ifs at h
  · obtain rfl := Option.some.inj h
    refine scheduleAll_sound ⟨fun n ct => initialDomain_certain hX, nofun⟩ fun p hp => ?_
    obtain ⟨n, -, hp⟩ := List.mem_flatMap.mp hp
    exact initialPropagations_scheduled hX hp

end Create

section Runs

variable [DecidableEq P] [DecidableEq F]

theorem step_sound (hX : X.WellFormed V arity T initbounds) (hσ : X.Sound V arity sentences W σ)
    {existsOnlyOneLeft : Bool} {p : FOPropagation N} {σ' : TypedFOPropagator N K} (hfits : X.Fits V arity W p σ)
    (h : X.Step admissible existsOnlyOneLeft p σ σ') : X.Sound V arity sentences W σ' := by
  cases h with
  | @next before after _ _ hnext =>
    have hp := hσ.scheduled p (hnext ▸ List.mem_append_right _ List.mem_cons_self)
    have hrest : X.Sound V arity sentences W { σ with scheduler := before ++ after } := by
      refine ⟨hσ.certain, fun q hq => hσ.scheduled q ?_⟩
      rw [hnext]
      rcases List.mem_append.mp hq with hq | hq
      · exact List.mem_append_left _ hq
      · exact List.mem_append_right _ (List.mem_cons_of_mem _ hq)
    exact visit_sound hX hrest hp hfits

end Runs

end Network

end Propagation
