import Mathlib
import DeclarativeLocalSearch.LazyGrounding.HeadInstances

namespace LazyGrounding

open Grounding (Lit bodyHolds)

variable {Q D : Type} {arity : Q → ℕ}

-- the body holds for the instance of the rule with the head
def RuleGrounder.Instance (ν : ℕ → Prop) (rule : RuleGrounder arity D) (headinst : List D) : Prop :=
  ∃ σ, Matches rule.args headinst σ ∧ (rule.body σ).holds ν

def RuleGrounder.PlainAt (rule : RuleGrounder arity D) (headinst : List D) : Prop :=
  ∀ σ, Matches rule.args headinst σ → (rule.body σ).Plain

section Adds

variable {lit : Literal arity D} {d d' d'' : GroundDefinition (Literal arity D)} {T T' T'' : Translator}
  {P P' : (ℕ → Prop) → Prop}

-- the rule for the literal gets a body, and the others stay
structure Adds (lit : Literal arity D) (P : (ℕ → Prop) → Prop) (d : GroundDefinition (Literal arity D)) (T : Translator)
    (d' : GroundDefinition (Literal arity D)) (T' : Translator) : Prop where
  le : T.Le T'
  others : ∀ q : Literal arity D → Bool, q lit = false → d'.filter (fun r => q r.head) = d.filter fun r => q r.head
  added : ∀ q : Literal arity D → Bool, q lit = true → (∀ r ∈ d, q r.head = true → r.head = lit) →
    (d.filter fun r => q r.head).length ≤ 1 → ∃ r', d'.filter (fun r => q r.head) = [r'] ∧ r'.head = lit ∧
      ∀ ν : ℕ → Prop, ν trueLit.atom → T'.Meant ν → (r'.holds ν ↔ (∃ r ∈ d.filter fun r => q r.head, r.holds ν) ∨ P ν)

theorem Adds.trans (h : Adds lit P d T d' T') (h' : Adds lit P' d' T' d'' T'') :
    Adds lit (fun ν => P ν ∨ P' ν) d T d'' T'' where
  le := h.le.trans h'.le
  others q hq := (h'.others q hq).trans (h.others q hq)
  added q hq hold hone := by
    obtain ⟨r, hfilter, hhead, hr⟩ := h.added q hq hold hone
    have hold' : ∀ x ∈ d', q x.head = true → x.head = lit := by
      intro x hx hqx
      have hmem : x ∈ d'.filter fun r => q r.head := List.mem_filter.mpr ⟨hx, hqx⟩
      rw [hfilter, List.mem_singleton] at hmem
      rw [hmem, hhead]
    obtain ⟨r', hfilter', hhead', hr'⟩ := h'.added q hq hold' (by rw [hfilter, List.length_singleton])
    refine ⟨r', hfilter', hhead', fun ν hν hmeant => ?_⟩
    rw [hr' ν hν hmeant, hfilter]
    simp only [List.mem_singleton, exists_eq_left]
    rw [hr ν hν (hmeant.mono h'.le), or_assoc]

theorem Adds.congr (h : Adds lit P d T d' T') (hP : ∀ ν : ℕ → Prop, ν trueLit.atom → (P ν ↔ P' ν)) :
    Adds lit P' d T d' T' where
  le := h.le
  others := h.others
  added q hq hold hone := by
    obtain ⟨r', hfilter, hhead, hr⟩ := h.added q hq hold hone
    exact ⟨r', hfilter, hhead, fun ν hν hmeant => (hr ν hν hmeant).trans (or_congr_right (hP ν hν))⟩

variable [DecidableEq D] [DecidableEq Q]

theorem adds_addPCRule {body : List Lit} {conj recursive : Bool} :
    Adds lit (fun ν => bodyHolds ν body conj) d T (d.addPCRule lit body conj recursive T).1
      (d.addPCRule lit body conj recursive T).2 where
  le := GroundDefinition.addPCRule_le
  others _ hq := GroundDefinition.filter_addPCRule_of_not hq
  added _ hq hold hone := by
    obtain ⟨r', hfilter, hhead, hr⟩ := GroundDefinition.filter_addPCRule hq hold hone
    exact ⟨r', hfilter, hhead, fun ν _ hmeant => hr ν hmeant⟩

theorem adds_notifyHeadFired {r : DelayedRule arity D} (hsymbol : r.rule.symbol = lit.symbol)
    (hplain : r.rule.PlainAt lit.args.1) (hnew : lit.args.1 ∉ r.grounded) :
    Adds lit (fun ν => r.rule.Instance ν lit.args.1) d T (r.notifyHeadFired lit d T).2.1 (r.notifyHeadFired lit d T).2.2 := by
  have hlength : r.rule.args.length = lit.args.1.length := by rw [r.rule.args_length, hsymbol, lit.args.2]
  rw [DelayedRule.notifyHeadFired, if_neg hnew]
  dsimp only [RuleGrounder.groundForSetHeadInstance]
  by_cases hmatches : matchesHead r.rule.args lit.args.1 = true
  · rw [if_pos hmatches]
    have hset := matches_setContainers (σ := r.containers) hlength hmatches
    refine (adds_addPCRule.trans adds_addPCRule).congr fun ν hν => ?_
    have hbody := erase_holds hν (hplain _ hset)
    have hempty : ¬ bodyHolds ν [] false := by simp [bodyHolds]
    rw [or_iff_right hempty]
    constructor
    · exact fun h => ⟨_, hset, hbody.mp h⟩
    · rintro ⟨σ, hσ, hholds⟩
      rw [r.rule.body_congr σ _ fun v hv => hσ.congr hset hv] at hholds
      exact hbody.mpr hholds
  · rw [if_neg hmatches]
    refine adds_addPCRule.congr fun ν _ => iff_of_false (by simp [bodyHolds]) ?_
    rintro ⟨σ, hσ, -⟩
    exact hmatches hσ.matchesHead

end Adds

section Set

variable {α : Type} {l : List α} {i : ℕ} {x y : α}

theorem get_set (hi : l[i]? = some x) : (l.set i y)[i]? = some y := by
  rw [List.getElem?_set_self (List.getElem?_eq_some_iff.mp hi).1]

end Set

theorem Atom.ext' {a b : Atom arity D} (h : a.1 = b.1) (h' : a.2.1 = b.2.1) : a = b := by
  obtain ⟨symbol, args⟩ := a
  obtain ⟨symbol', args'⟩ := b
  obtain rfl : symbol = symbol' := h
  rw [Subtype.ext (show args.1 = args'.1 from h')]

variable [DecidableEq D] [DecidableEq Q]

namespace RuleManager

variable {m m' : RuleManager arity D} {i : ℕ} {lit : Literal arity D} {r r' : DelayedRule arity D}

theorem specificFire_eq (hi : m.rules[i]? = some r) : m.specificFire i lit = { m with
    rules := m.rules.set i (r.specificFire lit (m.tempdefs r.construction) m.translator).1
    tempdefs := Function.update m.tempdefs r.construction (r.specificFire lit (m.tempdefs r.construction) m.translator).2.1
    translator := (r.specificFire lit (m.tempdefs r.construction) m.translator).2.2 } := by
  rw [specificFire, hi]

-- what was made for an atom in a definition
def entries (m : RuleManager arity D) (c : ℕ) (a : Atom arity D) : List (PCGroundRule (Atom arity D)) :=
  (m.solver c).filter (fun r => r.head = a) ++
    ((m.tempdefs c).filter fun r => r.head.atom = a).map PCGroundRule.createAtom

end RuleManager

def DelayedRule.Fires (c : ℕ) (a : Atom arity D) (r : DelayedRule arity D) : Prop :=
  r.construction = c ∧ r.rule.symbol = a.1 ∧ a.2.1 ∈ r.grounded

-- one rule for every atom that fired; those that are still to change are made for one literal
structure Made (key : Atom arity D → Option (Literal arity D)) (m : RuleManager arity D) : Prop where
  already : ∀ r ∈ m.rules, ∀ lit ∈ r.alreadygroundedlits, lit.args.1 ∈ r.grounded
  none : ∀ c a, (¬ ∃ r ∈ m.rules, r.Fires c a) → m.entries c a = []
  one : ∀ c a, (∃ r ∈ m.rules, r.Fires c a) → ∃ r', m.entries c a = [r'] ∧
    ∀ ν : ℕ → Prop, ν trueLit.atom → m.translator.Meant ν →
      (r'.holds ν ↔ ∃ r ∈ m.rules, r.Fires c a ∧ r.rule.Instance ν a.2.1)
  temp : ∀ a lit, key a = some lit → ∀ c, ((m.solver c).filter fun r => r.head = a) = [] ∧
    ∀ r ∈ m.tempdefs c, r.head.atom = a → r.head = lit

-- the rules are fired for more tuples, and nothing else changes but what is made for them
structure Becomes (fired : ℕ → List D → Prop) (m m' : RuleManager arity D) : Prop where
  tuples : m'.symbol2knownlits = m.symbol2knownlits
  known : m'.alreadygroundedlits = m.alreadygroundedlits
  watched : m'.symbol2watchedrules = m.symbol2watchedrules
  length : m'.rules.length = m.rules.length
  rules : ∀ i r, m.rules[i]? = some r → ∃ r', m'.rules[i]? = some r' ∧ r'.rule = r.rule ∧
    r'.construction = r.construction ∧ ∀ t, t ∈ r'.grounded ↔ t ∈ r.grounded ∨ fired i t

omit [DecidableEq D] [DecidableEq Q] in
theorem Becomes.refl {m : RuleManager arity D} : Becomes (fun _ _ => False) m m where
  tuples := rfl
  known := rfl
  watched := rfl
  length := rfl
  rules _ r hr := ⟨r, hr, rfl, rfl, fun _ => (or_iff_left id).symm⟩

omit [DecidableEq D] [DecidableEq Q] in
theorem Becomes.trans {m m' m'' : RuleManager arity D} {fired fired' : ℕ → List D → Prop} (h : Becomes fired m m')
    (h' : Becomes fired' m' m'') : Becomes (fun i t => fired i t ∨ fired' i t) m m'' where
  tuples := h'.tuples.trans h.tuples
  known := h'.known.trans h.known
  watched := h'.watched.trans h.watched
  length := h'.length.trans h.length
  rules i r hr := by
    obtain ⟨r', hr', hrule, hconstruction, hgrounded⟩ := h.rules i r hr
    obtain ⟨r'', hr'', hrule', hconstruction', hgrounded'⟩ := h'.rules i r' hr'
    exact ⟨r'', hr'', hrule'.trans hrule, hconstruction'.trans hconstruction, fun t => by
      rw [hgrounded', hgrounded, or_assoc]⟩

omit [DecidableEq D] [DecidableEq Q] in
theorem Becomes.congr {m m' : RuleManager arity D} {fired fired' : ℕ → List D → Prop} (h : Becomes fired m m')
    (hfired : ∀ i t, fired i t ↔ fired' i t) : Becomes fired' m m' := by
  obtain rfl : fired = fired' := funext₂ fun i t => propext (hfired i t)
  exact h

omit [DecidableEq D] [DecidableEq Q] in
theorem Becomes.get {m m' : RuleManager arity D} {fired : ℕ → List D → Prop} (h : Becomes fired m m') {i : ℕ}
    {r' : DelayedRule arity D} (hr' : m'.rules[i]? = some r') : ∃ r, m.rules[i]? = some r ∧ r'.rule = r.rule ∧
      r'.construction = r.construction ∧ ∀ t, t ∈ r'.grounded ↔ t ∈ r.grounded ∨ fired i t := by
  have hr := List.getElem?_eq_getElem (h.length ▸ (List.getElem?_eq_some_iff.mp hr').1)
  obtain ⟨x, hx, hsame⟩ := h.rules i _ hr
  obtain rfl := Option.some.inj (hr'.symm.trans hx)
  exact ⟨_, hr, hsame⟩

omit [DecidableEq D] [DecidableEq Q] in
theorem Becomes.exists_fires {m m' : RuleManager arity D} {fired : ℕ → List D → Prop} (h : Becomes fired m m') {c : ℕ}
    {a : Atom arity D} {X : RuleGrounder arity D → Prop} : (∃ r ∈ m'.rules, r.Fires c a ∧ X r.rule) ↔
      (∃ r ∈ m.rules, r.Fires c a ∧ X r.rule) ∨
        ∃ i r, m.rules[i]? = some r ∧ r.construction = c ∧ r.rule.symbol = a.1 ∧ fired i a.2.1 ∧ X r.rule := by
  constructor
  · rintro ⟨r', hmem, ⟨hc, hsymbol, hargs⟩, hX⟩
    obtain ⟨i, hi⟩ := List.mem_iff_getElem?.mp hmem
    obtain ⟨r, hr, hrule, hconstruction, hgrounded⟩ := h.get hi
    rw [hrule] at hsymbol hX
    rw [hconstruction] at hc
    exact ((hgrounded _).mp hargs).imp (fun hold => ⟨r, List.mem_of_getElem? hr, ⟨hc, hsymbol, hold⟩, hX⟩)
      fun hfired => ⟨i, r, hr, hc, hsymbol, hfired, hX⟩
  · have hmem : ∀ i r, m.rules[i]? = some r → r.construction = c → r.rule.symbol = a.1 → X r.rule →
        (a.2.1 ∈ r.grounded ∨ fired i a.2.1) → ∃ r ∈ m'.rules, r.Fires c a ∧ X r.rule := by
      intro i r hr hc hsymbol hX hargs
      obtain ⟨r', hr', hrule, hconstruction, hgrounded⟩ := h.rules i r hr
      exact ⟨r', List.mem_of_getElem? hr', ⟨hconstruction.trans hc, hrule ▸ hsymbol, (hgrounded _).mpr hargs⟩, hrule ▸ hX⟩
    rintro (⟨r, hr, ⟨hc, hsymbol, hargs⟩, hX⟩ | ⟨i, r, hr, hc, hsymbol, hfired, hX⟩)
    · obtain ⟨i, hi⟩ := List.mem_iff_getElem?.mp hr
      exact hmem i r hi hc hsymbol hX (Or.inl hargs)
    · exact hmem i r hr hc hsymbol hX (Or.inr hfired)

section SpecificFire

variable {m : RuleManager arity D} {i : ℕ} {lit : Literal arity D} {r : DelayedRule arity D}

theorem specificFire_rule (halready : ∀ lit ∈ r.alreadygroundedlits, lit.args.1 ∈ r.grounded) :
    let r' := (r.specificFire lit (m.tempdefs r.construction) m.translator).1
    r'.rule = r.rule ∧ r'.construction = r.construction ∧ (∀ t, t ∈ r'.grounded ↔ t ∈ r.grounded ∨ t = lit.args.1) ∧
      ∀ lit ∈ r'.alreadygroundedlits, lit.args.1 ∈ r'.grounded := by
  unfold DelayedRule.specificFire DelayedRule.notifyHeadFired
  split_ifs with hmem hgrounded
  · exact ⟨rfl, rfl, fun t => ⟨Or.inl, fun h => h.elim id fun heq => heq ▸ halready lit hmem⟩, halready⟩
  · refine ⟨rfl, rfl, fun t => ⟨Or.inl, fun h => h.elim id fun heq => heq ▸ hgrounded⟩, fun lit' hlit' => ?_⟩
    exact (List.mem_cons.mp hlit').elim (fun heq => heq ▸ hgrounded) (halready lit')
  · refine ⟨rfl, rfl, fun t => List.mem_cons.trans or_comm, fun lit' hlit' => ?_⟩
    exact (List.mem_cons.mp hlit').elim (fun heq => heq ▸ List.mem_cons_self)
      fun hold => List.mem_cons_of_mem _ (halready lit' hold)

theorem specificFire_becomes (hi : m.rules[i]? = some r)
    (halready : ∀ lit ∈ r.alreadygroundedlits, lit.args.1 ∈ r.grounded) :
    Becomes (fun j t => j = i ∧ t = lit.args.1) m (m.specificFire i lit) := by
  obtain ⟨hrule, hconstruction, hgrounded, -⟩ := @specificFire_rule _ _ _ _ _ m lit _ halready
  rw [RuleManager.specificFire_eq hi]
  refine ⟨rfl, rfl, rfl, List.length_set, fun j x hj => ?_⟩
  by_cases hji : j = i
  · subst hji
    obtain rfl := Option.some.inj (hi.symm.trans hj)
    exact ⟨_, get_set hi, hrule, hconstruction, fun t => (hgrounded t).trans (by simp)⟩
  · exact ⟨x, (List.getElem?_set_ne (Ne.symm hji)).trans hj, rfl, rfl, fun t => by simp [hji]⟩

theorem DelayedRule.specificFire_of_grounded {d : GroundDefinition (Literal arity D)} {T : Translator}
    (h : lit.args.1 ∈ r.grounded) : (r.specificFire lit d T).2 = (d, T) := by
  unfold DelayedRule.specificFire DelayedRule.notifyHeadFired
  split_ifs <;> rfl

theorem DelayedRule.adds_specificFire {d : GroundDefinition (Literal arity D)} {T : Translator}
    (halready : ∀ lit ∈ r.alreadygroundedlits, lit.args.1 ∈ r.grounded) (hsymbol : r.rule.symbol = lit.symbol)
    (hplain : r.rule.PlainAt lit.args.1) (hnew : lit.args.1 ∉ r.grounded) :
    Adds lit (fun ν => r.rule.Instance ν lit.args.1) d T (r.specificFire lit d T).2.1 (r.specificFire lit d T).2.2 := by
  rw [DelayedRule.specificFire, if_neg fun h => hnew (halready lit h)]
  exact adds_notifyHeadFired (r := { r with alreadygroundedlits := lit :: r.alreadygroundedlits }) hsymbol hplain hnew

variable {key : Atom arity D → Option (Literal arity D)} {c : ℕ} {a : Atom arity D}

theorem specificFire_already (h : ∀ r ∈ m.rules, ∀ lit ∈ r.alreadygroundedlits, lit.args.1 ∈ r.grounded)
    (hi : m.rules[i]? = some r) :
    ∀ r ∈ (m.specificFire i lit).rules, ∀ lit ∈ r.alreadygroundedlits, lit.args.1 ∈ r.grounded := by
  rw [RuleManager.specificFire_eq hi]
  intro x hx
  obtain hx | rfl := List.mem_or_eq_of_mem_set hx
  · exact h x hx
  · exact (specificFire_rule (h r (List.mem_of_getElem? hi))).2.2.2

theorem specificFire_exists (hi : m.rules[i]? = some r)
    (halready : ∀ lit ∈ r.alreadygroundedlits, lit.args.1 ∈ r.grounded) (hsymbol : r.rule.symbol = lit.symbol)
    {X : RuleGrounder arity D → Prop} : (∃ r ∈ (m.specificFire i lit).rules, r.Fires c a ∧ X r.rule) ↔
      (∃ r ∈ m.rules, r.Fires c a ∧ X r.rule) ∨ c = r.construction ∧ a = lit.atom ∧ X r.rule := by
  rw [(specificFire_becomes hi halready).exists_fires]
  refine or_congr_right ⟨?_, ?_⟩
  · rintro ⟨j, x, hx, hc, ha, ⟨rfl, hargs⟩, hX⟩
    obtain rfl := Option.some.inj (hi.symm.trans hx)
    exact ⟨hc.symm, Atom.ext' (ha.symm.trans hsymbol) hargs, hX⟩
  · rintro ⟨rfl, rfl, hX⟩
    exact ⟨i, r, hi, rfl, hsymbol, ⟨rfl, rfl⟩, hX⟩

theorem RuleManager.entries_eq {m' : RuleManager arity D} (hsolver : m'.solver c = m.solver c)
    (htemp : (m'.tempdefs c).filter (fun r => r.head.atom = a) = (m.tempdefs c).filter fun r => r.head.atom = a) :
    m'.entries c a = m.entries c a := by
  rw [RuleManager.entries, RuleManager.entries, hsolver, htemp]

theorem Made.entries_length (hmade : Made key m) : (m.entries c a).length ≤ 1 := by
  by_cases h : ∃ r ∈ m.rules, r.Fires c a
  · obtain ⟨r', hr', -⟩ := hmade.one c a h
    rw [hr', List.length_singleton]
  · rw [hmade.none c a h]
    exact Nat.zero_le 1

theorem Made.entries_holds (hmade : Made key m) {ν : ℕ → Prop} (hν : ν trueLit.atom) (hmeant : m.translator.Meant ν) :
    (∃ r ∈ m.entries c a, r.holds ν) ↔ ∃ r ∈ m.rules, r.Fires c a ∧ r.rule.Instance ν a.2.1 := by
  by_cases h : ∃ r ∈ m.rules, r.Fires c a
  · obtain ⟨r', hr', hholds⟩ := hmade.one c a h
    simp only [hr', List.mem_singleton, exists_eq_left]
    exact hholds ν hν hmeant
  · rw [hmade.none c a h]
    refine iff_of_false (by simp) ?_
    rintro ⟨r, hr, hfires, -⟩
    exact h ⟨r, hr, hfires⟩

theorem specificFire_made (hmade : Made key m) (hi : m.rules[i]? = some r) (hsymbol : r.rule.symbol = lit.symbol)
    (hplain : r.rule.PlainAt lit.args.1) (hkey : lit.args.1 ∈ r.grounded ∨ key lit.atom = some lit) :
    Made key (m.specificFire i lit) := by
  have halready := hmade.already r (List.mem_of_getElem? hi)
  have hexists := fun c a (X : RuleGrounder arity D → Prop) =>
    specificFire_exists (c := c) (a := a) (X := X) hi halready hsymbol
  have heq := @RuleManager.specificFire_eq _ _ _ _ _ _ _ lit _ hi
  by_cases hgrounded : lit.args.1 ∈ r.grounded
  · have hold : ∀ c a (X : RuleGrounder arity D → Prop), (∃ r ∈ (m.specificFire i lit).rules, r.Fires c a ∧ X r.rule) ↔
        ∃ r ∈ m.rules, r.Fires c a ∧ X r.rule := by
      intro c a X
      refine (hexists c a X).trans (or_iff_left_of_imp ?_)
      rintro ⟨rfl, rfl, hX⟩
      exact ⟨r, List.mem_of_getElem? hi, ⟨rfl, hsymbol, hgrounded⟩, hX⟩
    have hsame := DelayedRule.specificFire_of_grounded (d := m.tempdefs r.construction) (T := m.translator) hgrounded
    have htemp : (m.specificFire i lit).tempdefs = m.tempdefs := by rw [heq, hsame, Function.update_eq_self]
    have htranslator : (m.specificFire i lit).translator = m.translator := by rw [heq, hsame]
    have hsolver : (m.specificFire i lit).solver = m.solver := by rw [heq]
    have hentries : ∀ c a, (m.specificFire i lit).entries c a = m.entries c a := fun c a =>
      RuleManager.entries_eq (by rw [hsolver]) (by rw [htemp])
    refine ⟨specificFire_already hmade.already hi, fun c a hnot => ?_, fun c a hfires => ?_, fun a lit' ha c => ?_⟩
    · rw [hentries]
      exact hmade.none c a fun h => hnot (by simpa using (hold c a fun _ => True).mpr (by simpa using h))
    · obtain ⟨r', hr', hholds⟩ := hmade.one c a (by simpa using (hold c a fun _ => True).mp (by simpa using hfires))
      refine ⟨r', (hentries c a).trans hr', fun ν hν hmeant => ?_⟩
      rw [hholds ν hν (htranslator ▸ hmeant), hold c a fun rule => rule.Instance ν a.2.1]
    · rw [hsolver, htemp]
      exact hmade.temp a lit' ha c
  · have hkey := hkey.resolve_left hgrounded
    obtain ⟨hsolve, honly⟩ := hmade.temp _ _ hkey r.construction
    obtain ⟨hle, hothers, hadded⟩ := DelayedRule.adds_specificFire (d := m.tempdefs r.construction) (T := m.translator)
      halready hsymbol hplain hgrounded
    have htranslator : m.translator.Le (m.specificFire i lit).translator := by
      rw [heq]
      exact hle
    have hsolver : (m.specificFire i lit).solver = m.solver := by rw [heq]
    have htemp : ∀ c a, ¬ (c = r.construction ∧ a = lit.atom) →
        ((m.specificFire i lit).tempdefs c).filter (fun r => r.head.atom = a) = (m.tempdefs c).filter fun r => r.head.atom = a := by
      intro c a hne
      rw [heq]
      by_cases hc : c = r.construction
      · subst hc
        dsimp only
        rw [Function.update_self]
        exact hothers (fun l => l.atom = a) (decide_eq_false fun h => hne ⟨rfl, h.symm⟩)
      · dsimp only
        rw [Function.update_of_ne hc]
    have hother : ∀ c a (X : RuleGrounder arity D → Prop), ¬ (c = r.construction ∧ a = lit.atom) →
        ((∃ r ∈ (m.specificFire i lit).rules, r.Fires c a ∧ X r.rule) ↔ ∃ r ∈ m.rules, r.Fires c a ∧ X r.rule) :=
      fun c a X hne => (hexists c a X).trans (or_iff_left fun h => hne ⟨h.1, h.2.1⟩)
    have hentries : m.entries r.construction lit.atom =
        ((m.tempdefs r.construction).filter fun r => r.head.atom = lit.atom).map PCGroundRule.createAtom := by
      rw [RuleManager.entries, hsolve, List.nil_append]
    obtain ⟨r', hfilter, hhead, hholds⟩ := hadded (fun l => l.atom = lit.atom) (decide_eq_true rfl)
      (fun x hx hq => honly x hx (of_decide_eq_true hq)) (by
        have hlength := hmade.entries_length (c := r.construction) (a := lit.atom)
        rwa [hentries, List.length_map] at hlength)
    have hnew : (m.specificFire i lit).entries r.construction lit.atom = [r'.createAtom] := by
      rw [RuleManager.entries, hsolver, hsolve, List.nil_append, heq]
      dsimp only
      rw [Function.update_self, hfilter, List.map_singleton]
    refine ⟨specificFire_already hmade.already hi, fun c a hnot => ?_, fun c a hfires => ?_, fun a lit' ha c => ?_⟩
    · have hne : ¬ (c = r.construction ∧ a = lit.atom) := fun h =>
        hnot (by simpa using (hexists c a fun _ => True).mpr (Or.inr ⟨h.1, h.2, trivial⟩))
      rw [RuleManager.entries_eq (by rw [hsolver]) (htemp c a hne)]
      exact hmade.none c a fun h => hnot (by simpa using (hother c a (fun _ => True) hne).mpr (by simpa using h))
    · by_cases hne : c = r.construction ∧ a = lit.atom
      · obtain ⟨rfl, rfl⟩ := hne
        refine ⟨_, hnew, fun ν hν hmeant => ?_⟩
        have hr' : r'.createAtom.holds ν ↔ r'.holds ν := Iff.rfl
        rw [hr', hholds ν hν (by rw [heq] at hmeant; exact hmeant), hexists r.construction lit.atom fun rule =>
          rule.Instance ν lit.atom.2.1, ← hmade.entries_holds hν (hmeant.mono htranslator), hentries]
        refine or_congr ?_ (by simp [Literal.atom])
        simp only [List.mem_map, exists_exists_and_eq_and]
        rfl
      · obtain ⟨x, hx, hxholds⟩ := hmade.one c a
          (by simpa using (hother c a (fun _ => True) hne).mp (by simpa using hfires))
        refine ⟨x, (RuleManager.entries_eq (by rw [hsolver]) (htemp c a hne)).trans hx, fun ν hν hmeant => ?_⟩
        rw [hxholds ν hν (hmeant.mono htranslator), hother c a (fun rule => rule.Instance ν a.2.1) hne]
    · rw [hsolver]
      refine ⟨(hmade.temp a lit' ha c).1, fun x hx hatom => ?_⟩
      have hmem : x ∈ ((m.specificFire i lit).tempdefs c).filter fun r => r.head.atom = a :=
        List.mem_filter.mpr ⟨hx, decide_eq_true hatom⟩
      by_cases hne : c = r.construction ∧ a = lit.atom
      · obtain ⟨rfl, rfl⟩ := hne
        rw [heq] at hmem
        dsimp only at hmem
        rw [Function.update_self, hfilter, List.mem_singleton] at hmem
        rw [hmem, hhead]
        exact Option.some.inj (hkey.symm.trans ha)
      · rw [htemp c a hne] at hmem
        exact (hmade.temp a lit' ha c).2 x (List.mem_filter.mp hmem).1 hatom

end SpecificFire

end LazyGrounding
