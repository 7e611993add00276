import Mathlib
import DeclarativeLocalSearch.Theory.Clone
import DeclarativeLocalSearch.Theory.ThreeValued

set_option linter.unusedSectionVars false

namespace Propagation

open Theory Structure

variable {S P F D : Type}

-- a factory of the domains of formulas, each over some variables
structure FOPropDomainFactory (S P F D : Type) where
  Domain : Type
  vars : Domain → List (Variable S)
  trueDomain : List (Variable S) → Domain
  falseDomain : List (Variable S) → Domain
  formuladomain : Formula S P F D → Domain
  ctDomain : PFSymbol S P F → List (Term S P F D) → Domain
  cfDomain : PFSymbol S P F → List (Term S P F D) → Domain
  existsDomain : Domain → List (Variable S) → Domain
  forallDomain : Domain → List (Variable S) → Domain
  conjunction : Domain → Domain → Domain
  disjunction : Domain → Domain → Domain
  substitute : Domain → List (Variable S × Variable S) → Domain
  approxequals : Domain → Domain → Bool

structure ThreeValuedDomain (K : FOPropDomainFactory S P F D) where
  ctdomain : K.Domain
  cfdomain : K.Domain
  twovalued : Bool

def ThreeValuedDomain.bound {K : FOPropDomainFactory S P F D} (d : ThreeValuedDomain K) (ct : Bool) : K.Domain :=
  if ct then d.ctdomain else d.cfdomain

-- a domain that may not replace another one is not used
abbrev AdmissibleBoundChecker (K : FOPropDomainFactory S P F D) : Type := K.Domain → Option K.Domain → Bool

def image [DecidableEq S] (mvv : List (Variable S × Variable S)) (v : Variable S) : Variable S :=
  (mvv.lookup v).getD v

section Quantify

variable [DecidableEq S] (K : FOPropDomainFactory S P F D) (admissible : AdmissibleBoundChecker K)

def newVariable (d : K.Domain) (var : Variable S) : Variable S := fresh (firstFree (var :: K.vars d)) var

def addToExists (d : K.Domain) (var : Variable S) : K.Domain :=
  let v := newVariable K d var
  K.existsDomain (K.substitute d [(var, v)]) [v]

def addToForall (d : K.Domain) (var : Variable S) : K.Domain :=
  let v := newVariable K d var
  K.forallDomain (K.substitute d [(var, v)]) [v]

-- the variables one by one, or the false domain as soon as there is an inadmissible one
def addAllToExists (d : K.Domain) : List (Variable S) → K.Domain
  | [] => d
  | var :: qvars =>
    if admissible d none then addAllToExists (addToExists K d var) qvars
    else K.falseDomain ((K.vars d).filter (· ∉ var :: qvars))

def addAllToForall (d : K.Domain) : List (Variable S) → K.Domain
  | [] => d
  | var :: qvars =>
    if admissible d none then addAllToForall (addToForall K d var) qvars
    else K.falseDomain ((K.vars d).filter (· ∉ var :: qvars))

end Quantify

section Means

variable [DecidableEq S]

-- the assignments in a domain, over a structure with what is certain about it
structure FOPropDomainFactory.Means (K : FOPropDomainFactory S P F D) (T : ThreeValued S P F D) where
  meaning : K.Domain → (Variable S → D) → Prop
  agree : ∀ d e e', (∀ v ∈ K.vars d, e v = e' v) → (meaning d e ↔ meaning d e')
  trueDomain : ∀ vars e, meaning (K.trueDomain vars) e
  falseDomain : ∀ vars e, ¬ meaning (K.falseDomain vars) e
  formuladomain : ∀ f e, meaning (K.formuladomain f) e ↔ T.base.holds f e
  ctDomain : ∀ symbol args e ds, T.base.values args e = ds.map some →
    (meaning (K.ctDomain symbol args) e ↔ T.ct symbol ds)
  cfDomain : ∀ symbol args e ds, T.base.values args e = ds.map some →
    (meaning (K.cfDomain symbol args) e ↔ T.cf symbol ds)
  existsDomain : ∀ d vars e, meaning (K.existsDomain d vars) e ↔ ∃ e', Varies T.base vars e e' ∧ meaning d e'
  forallDomain : ∀ d vars e, meaning (K.forallDomain d vars) e ↔ ∀ e', Varies T.base vars e e' → meaning d e'
  conjunction : ∀ d d' e, meaning (K.conjunction d d') e ↔ meaning d e ∧ meaning d' e
  disjunction : ∀ d d' e, meaning (K.disjunction d d') e ↔ meaning d e ∨ meaning d' e
  substitute : ∀ d mvv e, meaning (K.substitute d mvv) e ↔ meaning d fun v => e (image mvv v)

variable {K : FOPropDomainFactory S P F D} {T : ThreeValued S P F D} (W : K.Means T)
  {admissible : AdmissibleBoundChecker K}

theorem newVariable_not_mem {d : K.Domain} {var v : Variable S} (hv : v ∈ var :: K.vars d) :
    newVariable K d var ≠ v := by
  intro h
  have hid : (newVariable K d var).id = v.id := congrArg Variable.id h
  have hlt := lt_firstFree hv
  simp only [newVariable, fresh] at hid
  omega

theorem substituted_iff (d : K.Domain) (var : Variable S) (e : Variable S → D) (c : D) :
    W.meaning (K.substitute d [(var, newVariable K d var)]) (Function.update e (newVariable K d var) c) ↔
      W.meaning d (Function.update e var c) := by
  rw [W.substitute]
  refine W.agree _ _ _ fun v hv => ?_
  by_cases hvar : v = var
  · subst hvar
    have himage : image [(v, newVariable K d v)] v = newVariable K d v := by
      simp [image]
    rw [himage, Function.update_self, Function.update_self]
  · have himage : image [(var, newVariable K d var)] v = v := by
      have hne : (v == var) = false := by simpa using hvar
      simp [image, List.lookup, hne]
    rw [himage, Function.update_of_ne (newVariable_not_mem (List.mem_cons_of_mem _ hv)).symm,
      Function.update_of_ne hvar]

theorem varies_singleton {v : Variable S} {e e' : Variable S → D} :
    Varies T.base [v] e e' ↔ ∃ c, T.base.sort v.sort c ∧ e' = Function.update e v c := by
  simp only [varies_cons, varies_nil]
  exact ⟨fun ⟨_, c, he, hc, h⟩ => ⟨c, hc, he ▸ h⟩, fun ⟨c, hc, h⟩ => ⟨e, c, rfl, hc, h⟩⟩

theorem addToExists_iff (d : K.Domain) (var : Variable S) (e : Variable S → D) :
    W.meaning (addToExists K d var) e ↔ ∃ c, T.base.sort var.sort c ∧ W.meaning d (Function.update e var c) := by
  rw [addToExists, W.existsDomain]
  simp only [varies_singleton]
  constructor
  · rintro ⟨_, ⟨c, hc, rfl⟩, h⟩
    exact ⟨c, hc, (substituted_iff W d var e c).mp h⟩
  · rintro ⟨c, hc, h⟩
    exact ⟨_, ⟨c, hc, rfl⟩, (substituted_iff W d var e c).mpr h⟩

theorem addToForall_iff (d : K.Domain) (var : Variable S) (e : Variable S → D) :
    W.meaning (addToForall K d var) e ↔ ∀ c, T.base.sort var.sort c → W.meaning d (Function.update e var c) := by
  rw [addToForall, W.forallDomain]
  simp only [varies_singleton]
  constructor
  · exact fun h c hc => (substituted_iff W d var e c).mp (h _ ⟨c, hc, rfl⟩)
  · rintro h _ ⟨c, hc, rfl⟩
    exact (substituted_iff W d var e c).mpr (h c hc)

theorem addAllToExists_some {d : K.Domain} {qvars : List (Variable S)} {e : Variable S → D}
    (h : W.meaning (addAllToExists K admissible d qvars) e) : ∃ e', Varies T.base qvars e e' ∧ W.meaning d e' := by
  induction qvars generalizing d with
  | nil => exact ⟨e, varies_nil.mpr rfl, h⟩
  | cons var qvars ih =>
    rw [addAllToExists] at h
    split_ifs at h
    · obtain ⟨e', hvaries, h⟩ := ih h
      obtain ⟨c, hc, h⟩ := (addToExists_iff W d var e').mp h
      exact ⟨_, varies_cons.mpr ⟨e', c, hvaries, hc, rfl⟩, h⟩
    · exact absurd h (W.falseDomain _ e)

theorem addAllToForall_all {d : K.Domain} {qvars : List (Variable S)} {e : Variable S → D}
    (h : W.meaning (addAllToForall K admissible d qvars) e) : ∀ e', Varies T.base qvars e e' → W.meaning d e' := by
  induction qvars generalizing d with
  | nil =>
    intro e' hvaries
    rw [varies_nil.mp hvaries]
    exact h
  | cons var qvars ih =>
    rw [addAllToForall] at h
    split_ifs at h
    · intro e' hvaries
      obtain ⟨e'', c, hrest, hc, rfl⟩ := varies_cons.mp hvaries
      exact (addToForall_iff W d var e'').mp (ih h e'' hrest) c hc
    · exact absurd h (W.falseDomain _ e)

end Means

section Assignments

variable [DecidableEq S]

-- a set of assignments that depends on some variables only
structure Assignments (S D : Type) where
  vars : List (Variable S)
  contains : (Variable S → D) → Prop
  agree : ∀ e e', (∀ v ∈ vars, e v = e' v) → (contains e ↔ contains e')

namespace Assignments

theorem varies_agree {I : Structure S P F D} {vars qvars : List (Variable S)} {e1 e2 e' : Variable S → D}
    (h : ∀ v ∈ vars.filter (· ∉ qvars), e1 v = e2 v) (he' : Varies I qvars e1 e') :
    ∃ e'', Varies I qvars e2 e'' ∧ ∀ v ∈ vars, e' v = e'' v := by
  refine ⟨fun v => if v ∈ qvars then e' v else e2 v, ⟨fun v hv => ?_, fun v hv => if_neg hv⟩, fun v hv => ?_⟩
  · dsimp only
    rw [if_pos hv]
    exact he'.1 v hv
  · dsimp only
    split_ifs with hq
    · rfl
    · rw [he'.2 v hq]
      exact h v (List.mem_filter.mpr ⟨hv, by simpa using hq⟩)

def quantified (I : Structure S P F D) (d : Assignments S D) (qvars : List (Variable S)) : Assignments S D where
  vars := d.vars.filter (· ∉ qvars)
  contains e := ∃ e', Varies I qvars e e' ∧ d.contains e'
  agree e1 e2 h := by
    constructor
    · rintro ⟨e', hvaries, hd⟩
      obtain ⟨e'', hvaries, hsame⟩ := varies_agree h hvaries
      exact ⟨e'', hvaries, (d.agree _ _ hsame).mp hd⟩
    · rintro ⟨e', hvaries, hd⟩
      obtain ⟨e'', hvaries, hsame⟩ := varies_agree (fun v hv => (h v hv).symm) hvaries
      exact ⟨e'', hvaries, (d.agree _ _ hsame).mp hd⟩

def complement (d : Assignments S D) : Assignments S D :=
  ⟨d.vars, fun e => ¬ d.contains e, fun e e' h => not_congr (d.agree e e' h)⟩

-- the atom of a table
def table (I : Structure S P F D) (args : List (Term S P F D)) (p : List D → Prop) : Assignments S D where
  vars := termsFreeVars args
  contains e := ∃ ds, I.values args e = ds.map some ∧ p ds
  agree e e' h := by
    have hvalues : I.values args e = I.values args e' := values_congr fun t ht =>
      Structure.agree.1 t e e' fun v hv => h v (mem_termsFreeVars.mpr ⟨t, ht, hv⟩)
    rw [hvalues]

def binary (op : Prop → Prop → Prop) (d d' : Assignments S D) : Assignments S D where
  vars := d.vars ++ d'.vars
  contains e := op (d.contains e) (d'.contains e)
  agree e e' h := by
    rw [d.agree e e' fun v hv => h v (List.mem_append_left _ hv),
      d'.agree e e' fun v hv => h v (List.mem_append_right _ hv)]

-- sets of assignments as domains; equal ones are not recognised
noncomputable def factory (T : ThreeValued S P F D) : FOPropDomainFactory S P F D where
  Domain := Assignments S D
  vars := Assignments.vars
  trueDomain vars := ⟨vars, fun _ => True, fun _ _ _ => Iff.rfl⟩
  falseDomain vars := ⟨vars, fun _ => False, fun _ _ _ => Iff.rfl⟩
  formuladomain f := ⟨f.freeVars, T.base.holds f, Structure.agree.2.2 f⟩
  ctDomain symbol args := table T.base args (T.ct symbol)
  cfDomain symbol args := table T.base args (T.cf symbol)
  existsDomain := quantified T.base
  forallDomain d qvars := complement (quantified T.base (complement d) qvars)
  conjunction := binary And
  disjunction := binary Or
  substitute d mvv := ⟨d.vars.map (image mvv), fun e => d.contains fun v => e (image mvv v), fun _ _ h =>
    d.agree _ _ fun _ hv => h _ (List.mem_map_of_mem hv)⟩
  approxequals _ _ := false

theorem table_iff {I : Structure S P F D} {args : List (Term S P F D)} {p : List D → Prop} {e : Variable S → D}
    {ds : List D} (hds : I.values args e = ds.map some) : (table I args p).contains e ↔ p ds := by
  refine ⟨fun ⟨ds', hds', h⟩ => ?_, fun h => ⟨ds, hds, h⟩⟩
  rw [List.map_injective_iff.mpr (Option.some_injective D) (hds.symm.trans hds')]
  exact h

noncomputable def means (T : ThreeValued S P F D) : (factory T).Means T where
  meaning := Assignments.contains
  agree := Assignments.agree
  trueDomain _ _ := trivial
  falseDomain _ _ := id
  formuladomain _ _ := Iff.rfl
  ctDomain _ _ _ _ := table_iff
  cfDomain _ _ _ _ := table_iff
  existsDomain _ _ _ := Iff.rfl
  forallDomain d vars e := by
    have hiff : (complement (quantified T.base (complement d) vars)).contains e ↔
        ¬ ∃ e', Varies T.base vars e e' ∧ ¬ d.contains e' := Iff.rfl
    refine hiff.trans ?_
    simp only [not_exists, not_and, not_not]
  conjunction _ _ _ := Iff.rfl
  disjunction _ _ _ := Iff.rfl
  substitute _ _ _ := Iff.rfl

end Assignments

end Assignments

end Propagation
