import DeclarativeLocalSearch.LazyGrounding.FiredRules

namespace LazyGrounding

variable {Q D : Type} {arity : Q → ℕ}

-- the values of the variables of the head are in their sorts
def RuleGrounder.InSorts (rule : RuleGrounder arity D) (σ : ℕ → Option D) : Prop :=
  ∀ v, .var v ∈ rule.args → ∃ d, σ v = some d ∧ rule.sort v d = true

structure RuleGrounder.Good (rule : RuleGrounder arity D) (headinst : List D) : Prop where
  sorted : ∀ σ, Matches rule.args headinst σ → rule.InSorts σ
  plain : rule.PlainAt headinst

set_option linter.unusedSectionVars false

variable [DecidableEq Q] [DecidableEq D] {m m' : RuleManager arity D} {key key' : Atom arity D → Option (Literal arity D)}
  {lit : Literal arity D} {i c c' : ℕ} {q : Q} {v : Bool}

-- the rule is not fired for the tuple of the literal or made for this literal
def Fireable (key : Atom arity D → Option (Literal arity D)) (m : RuleManager arity D) (op : ℕ × Literal arity D) : Prop :=
  ∃ r, m.rules[op.1]? = some r ∧ r.rule.symbol = op.2.symbol ∧ r.rule.PlainAt op.2.args.1 ∧
    (op.2.args.1 ∈ r.grounded ∨ key op.2.atom = some op.2)

def fireAll (ops : List (ℕ × Literal arity D)) (m : RuleManager arity D) : RuleManager arity D :=
  ops.foldl (fun m op => m.specificFire op.1 op.2) m

theorem Fireable.mono {fired : ℕ → List D → Prop} {op : ℕ × Literal arity D} (h : Fireable key m op)
    (hbecomes : Becomes fired m m') : Fireable key m' op := by
  obtain ⟨r, hr, hsymbol, hplain, hkey⟩ := h
  obtain ⟨r', hr', hrule, -, hgrounded⟩ := hbecomes.rules _ _ hr
  exact ⟨r', hr', hrule ▸ hsymbol, hrule ▸ hplain, hkey.imp_left fun h => (hgrounded _).mpr (Or.inl h)⟩

theorem fireAll_made {ops : List (ℕ × Literal arity D)} (hmade : Made key m) (hops : ∀ op ∈ ops, Fireable key m op) :
    Made key (fireAll ops m) ∧ Becomes (fun i t => ∃ op ∈ ops, op.1 = i ∧ op.2.args.1 = t) m (fireAll ops m) := by
  induction ops generalizing m with
  | nil => exact ⟨hmade, Becomes.refl.congr fun i t => by simp⟩
  | cons op ops ih =>
    obtain ⟨r, hr, hsymbol, hplain, hkey⟩ := hops op List.mem_cons_self
    have hstep := @specificFire_becomes _ _ _ _ _ _ _ op.2 _ hr (hmade.already r (List.mem_of_getElem? hr))
    obtain ⟨hmade', hbecomes⟩ := ih (specificFire_made hmade hr hsymbol hplain hkey)
      fun op hop => (hops op (List.mem_cons_of_mem _ hop)).mono hstep
    exact ⟨hmade', (hstep.trans hbecomes).congr fun i t => by simp [eq_comm]⟩

theorem Made.rekey (hmade : Made key m) (h : ∀ a lit, key' a = some lit → ∀ r ∈ m.rules, ∀ c, ¬ r.Fires c a) :
    Made key' m where
  already := hmade.already
  none := hmade.none
  one := hmade.one
  temp a lit ha c := by
    have hentries := hmade.none c a fun ⟨r, hr, hfires⟩ => h a lit ha r hr c hfires
    rw [RuleManager.entries, List.append_eq_nil_iff, List.map_eq_nil_iff] at hentries
    refine ⟨hentries.1, fun r hr hatom => ?_⟩
    exact absurd (decide_eq_true hatom) (List.filter_eq_nil_iff.mp hentries.2 r hr)

-- the atom was fired on one of the values
def RuleManager.Known (m : RuleManager arity D) (a : Atom arity D) : Prop := ∃ lit ∈ m.alreadygroundedlits, lit.atom = a

theorem RuleManager.known_iff {a : Atom arity D} :
    m.Known a ↔ ∃ v, (⟨a.1, a.2, v⟩ : Literal arity D) ∈ m.alreadygroundedlits := by
  constructor
  · rintro ⟨lit, hlit, rfl⟩
    exact ⟨lit.value, hlit⟩
  · exact fun ⟨v, hv⟩ => ⟨_, hv, rfl⟩

structure Invariant (key : Atom arity D → Option (Literal arity D)) (m : RuleManager arity D) : Prop where
  made : Made key m
  known : ∀ lit : Literal arity D, lit.args ∈ m.symbol2knownlits lit.symbol lit.value ↔ lit ∈ m.alreadygroundedlits
  watched : ∀ q v i, i ∈ m.symbol2watchedrules q v ↔ ∃ r, m.rules[i]? = some r ∧ r.rule.symbol = q
  grounded : ∀ r ∈ m.rules, ∀ a : Atom arity D, r.rule.symbol = a.1 → (a.2.1 ∈ r.grounded ↔ m.Known a)
  good : ∀ r ∈ m.rules, ∀ lit ∈ m.alreadygroundedlits, r.rule.symbol = lit.symbol → r.rule.Good lit.args.1

theorem Becomes.invariant {fired : ℕ → List D → Prop} (h : Becomes fired m m') (hmade : Made key m')
    (hknown : ∀ lit : Literal arity D, lit.args ∈ m.symbol2knownlits lit.symbol lit.value ↔ lit ∈ m.alreadygroundedlits)
    (hwatched : ∀ q v i, i ∈ m.symbol2watchedrules q v ↔ ∃ r, m.rules[i]? = some r ∧ r.rule.symbol = q)
    (hgrounded : ∀ i r, m.rules[i]? = some r → ∀ a : Atom arity D, r.rule.symbol = a.1 →
      (a.2.1 ∈ r.grounded ∨ fired i a.2.1 ↔ m.Known a))
    (hgood : ∀ r ∈ m.rules, ∀ lit ∈ m.alreadygroundedlits, r.rule.symbol = lit.symbol → r.rule.Good lit.args.1) :
    Invariant key m' where
  made := hmade
  known lit := by rw [h.tuples, h.known, hknown]
  watched q v i := by
    rw [h.watched, hwatched]
    constructor
    · rintro ⟨r, hr, hsymbol⟩
      obtain ⟨r', hr', hrule, -⟩ := h.rules i r hr
      exact ⟨r', hr', hrule ▸ hsymbol⟩
    · rintro ⟨r', hr', hsymbol⟩
      obtain ⟨r, hr, hrule, -⟩ := h.get hr'
      exact ⟨r, hr, hrule ▸ hsymbol⟩
  grounded r' hr' a hsymbol := by
    obtain ⟨i, hi⟩ := List.mem_iff_getElem?.mp hr'
    obtain ⟨r, hr, hrule, -, hfired⟩ := h.get hi
    rw [hfired, hgrounded i r hr a (hrule ▸ hsymbol), RuleManager.Known, RuleManager.Known, h.known]
  good r' hr' lit hlit hsymbol := by
    obtain ⟨i, hi⟩ := List.mem_iff_getElem?.mp hr'
    obtain ⟨r, hr, hrule, -⟩ := h.get hi
    rw [hrule] at hsymbol ⊢
    exact hgood r (List.mem_of_getElem? hr) lit (h.known ▸ hlit) hsymbol

section AddKnown

theorem addKnown_tuples (hknown : ∀ lit : Literal arity D, lit.args ∈ m.symbol2knownlits lit.symbol lit.value ↔
    lit ∈ m.alreadygroundedlits) {lit' : Literal arity D} :
    lit'.args ∈ (m.addKnown lit).symbol2knownlits lit'.symbol lit'.value ↔
      lit' ∈ m.alreadygroundedlits ∨ lit' = lit := by
  rw [RuleManager.addKnown]
  split
  · next hmem =>
    rw [hknown]
    exact (or_iff_left_of_imp fun heq => heq ▸ hmem).symm
  · obtain ⟨q, args, v⟩ := lit
    obtain ⟨q', args', v'⟩ := lit'
    rw [← hknown]
    dsimp only
    by_cases hq : q' = q
    · subst hq
      rw [Function.update_self]
      by_cases hv : v' = v
      · subst hv
        rw [Function.update_self, List.mem_append, List.mem_singleton]
        simp
      · rw [Function.update_of_ne hv]
        simp [hv]
    · rw [Function.update_of_ne hq]
      simp [hq]

theorem mem_addKnown {lit' : Literal arity D} :
    lit' ∈ (m.addKnown lit).alreadygroundedlits ↔ lit' ∈ m.alreadygroundedlits ∨ lit' = lit := by
  rw [RuleManager.addKnown]
  split
  · next hmem => exact (or_iff_left_of_imp fun heq => heq ▸ hmem).symm
  · exact List.mem_cons.trans or_comm

theorem known_addKnown {a : Atom arity D} : (m.addKnown lit).Known a ↔ m.Known a ∨ a = lit.atom := by
  simp only [RuleManager.Known, mem_addKnown, or_and_right, exists_or, exists_eq_left]
  exact or_congr_right eq_comm

theorem addKnown_rules : (m.addKnown lit).rules = m.rules := by
  rw [RuleManager.addKnown]
  split <;> rfl

theorem addKnown_watched : (m.addKnown lit).symbol2watchedrules = m.symbol2watchedrules := by
  rw [RuleManager.addKnown]
  split <;> rfl

theorem Made.addKnown (h : Made key m) : Made key (m.addKnown lit) := by
  rw [RuleManager.addKnown]
  split
  · exact h
  · exact ⟨h.already, h.none, h.one, h.temp⟩

end AddKnown

def RuleManager.Delayed (m : RuleManager arity D) (c : ℕ) (rule : RuleGrounder arity D) : Prop :=
  ∃ r ∈ m.rules, r.construction = c ∧ r.rule = rule

theorem Becomes.delayed {fired : ℕ → List D → Prop} {rule : RuleGrounder arity D}
    (h : Becomes fired m m') : m'.Delayed c rule ↔ m.Delayed c rule := by
  constructor
  · rintro ⟨r', hr', hc, hrule⟩
    obtain ⟨i, hi⟩ := List.mem_iff_getElem?.mp hr'
    obtain ⟨r, hr, hsame, hconstruction, -⟩ := h.get hi
    exact ⟨r, List.mem_of_getElem? hr, hconstruction ▸ hc, hsame ▸ hrule⟩
  · rintro ⟨r, hr, hc, hrule⟩
    obtain ⟨i, hi⟩ := List.mem_iff_getElem?.mp hr
    obtain ⟨r', hr', hsame, hconstruction, -⟩ := h.rules i r hi
    exact ⟨r', List.mem_of_getElem? hr', hconstruction.trans hc, hsame.trans hrule⟩

theorem fired_invariant (hinv : Invariant (fun _ => none) m)
    (hgood : ∀ r ∈ m.rules, r.rule.symbol = lit.symbol → r.rule.Good lit.args.1) :
    Invariant (fun _ => none) (m.fired lit) ∧ ∀ c rule, (m.fired lit).Delayed c rule ↔ m.Delayed c rule := by
  obtain ⟨key, hmade, hkey⟩ : ∃ key, Made key (m.addKnown lit) ∧ ∀ r ∈ m.rules, r.rule.symbol = lit.symbol →
      lit.args.1 ∈ r.grounded ∨ key lit.atom = some lit := by
    by_cases hknown : m.Known lit.atom
    · exact ⟨_, hinv.made.addKnown, fun r hr hsymbol => Or.inl ((hinv.grounded r hr lit.atom hsymbol).mpr hknown)⟩
    · refine ⟨fun a : Atom arity D => if a = lit.atom then some lit else none, (hinv.made.rekey ?_).addKnown, fun _ _ _ => Or.inr (if_pos rfl)⟩
      rintro a lit' ha r hr c ⟨-, hsymbol, hargs⟩
      obtain rfl : a = lit.atom := by
        by_contra hne
        rw [if_neg hne] at ha
        exact absurd ha nofun
      exact hknown ((hinv.grounded r hr lit.atom hsymbol).mp hargs)
  have hops : ∀ op ∈ ((m.addKnown lit).symbol2watchedrules lit.symbol lit.value).map fun index => (index, lit),
      Fireable key (m.addKnown lit) op := by
    rw [addKnown_watched]
    intro op hop
    obtain ⟨i, hi, rfl⟩ := List.mem_map.mp hop
    obtain ⟨r, hr, hsymbol⟩ := (hinv.watched _ _ i).mp hi
    have hmem := List.mem_of_getElem? hr
    exact ⟨r, (congrArg (·[i]?) addKnown_rules).trans hr, hsymbol, (hgood r hmem hsymbol).plain, hkey r hmem hsymbol⟩
  obtain ⟨hmade', hbecomes⟩ := fireAll_made hmade hops
  have hfired : m.fired lit =
      fireAll (((m.addKnown lit).symbol2watchedrules lit.symbol lit.value).map fun index => (index, lit)) (m.addKnown lit) := by
    rw [RuleManager.fired, fireAll, List.foldl_map]
  rw [hfired]
  refine ⟨hbecomes.invariant (hmade'.rekey nofun) (fun lit' => ?_) (fun q v i => ?_) (fun i r hr a hsymbol => ?_)
    fun r hr lit' hlit' hsymbol => ?_, fun c rule => ?_⟩
  · rw [addKnown_tuples hinv.known, mem_addKnown]
  · rw [addKnown_watched, addKnown_rules, hinv.watched]
  · rw [addKnown_rules] at hr
    rw [known_addKnown, hinv.grounded r (List.mem_of_getElem? hr) a hsymbol]
    refine or_congr_right ?_
    rw [addKnown_watched]
    simp only [List.mem_map, exists_exists_and_eq_and, hinv.watched]
    constructor
    · rintro ⟨j, ⟨x, hx, hlit⟩, rfl, hargs⟩
      obtain rfl := Option.some.inj (hr.symm.trans hx)
      exact Atom.ext' (hsymbol.symm.trans hlit) hargs.symm
    · rintro rfl
      exact ⟨i, ⟨r, hr, hsymbol⟩, rfl, rfl⟩
  · rw [addKnown_rules] at hr
    rcases mem_addKnown.mp hlit' with hold | rfl
    · exact hinv.good r hr lit' hold hsymbol
    · exact hgood r hr hsymbol
  · rw [hbecomes.delayed, RuleManager.Delayed, RuleManager.Delayed, addKnown_rules]

section Delay

variable {rule : RuleGrounder arity D}

theorem Becomes.watch {fired : ℕ → List D → Prop} (h : Becomes fired m m') :
    Becomes fired (m.watch i q v) (m'.watch i q v) where
  tuples := h.tuples
  known := h.known
  watched := by rw [RuleManager.watch, RuleManager.watch, h.watched]
  length := h.length
  rules := h.rules

theorem Made.watch (h : Made key m) : Made key (m.watch i q v) := ⟨h.already, h.none, h.one, h.temp⟩

theorem mem_watch {q' : Q} {v' : Bool} {j : ℕ} : j ∈ (m.watch i q v).symbol2watchedrules q' v' ↔
    j ∈ m.symbol2watchedrules q' v' ∨ q' = q ∧ v' = v ∧ j = i := by
  rw [RuleManager.watch]
  dsimp only
  by_cases hq : q' = q
  · subst hq
    rw [Function.update_self]
    by_cases hv : v' = v
    · subst hv
      rw [Function.update_self, List.mem_append, List.mem_singleton]
      simp
    · rw [Function.update_of_ne hv]
      simp [hv]
  · rw [Function.update_of_ne hq]
    simp [hq]

def RuleManager.push (construction : ℕ) (rule : RuleGrounder arity D) (m : RuleManager arity D) : RuleManager arity D :=
  { m with rules := m.rules ++ [⟨rule, construction, fun _ => none, [], []⟩] }

theorem exists_fires_push {a : Atom arity D} {X : RuleGrounder arity D → Prop} :
    (∃ r ∈ (m.push c rule).rules, r.Fires c' a ∧ X r.rule) ↔ ∃ r ∈ m.rules, r.Fires c' a ∧ X r.rule := by
  rw [RuleManager.push]
  simp only [List.mem_append, List.mem_singleton, or_and_right, exists_or, exists_eq_left]
  exact or_iff_left fun h => absurd h.1.2.2 List.not_mem_nil

theorem Made.push (h : Made key m) : Made key (m.push c rule) where
  already r hr := by
    rcases List.mem_append.mp hr with hr | hr
    · exact h.already r hr
    · rw [List.mem_singleton.mp hr]
      exact fun lit hlit => absurd hlit List.not_mem_nil
  none c' a hnot := h.none c' a fun hfires =>
    hnot (by simpa using (exists_fires_push (X := fun _ => True)).mpr (by simpa using hfires))
  one c' a hfires := by
    obtain ⟨r', hr', hholds⟩ := h.one c' a
      (by simpa using (exists_fires_push (X := fun _ => True)).mp (by simpa using hfires))
    exact ⟨r', hr', fun ν hν hmeant => (hholds ν hν hmeant).trans
      (exists_fires_push (X := fun rule => rule.Instance ν a.2.1)).symm⟩
  temp := h.temp

theorem get_push {j : ℕ} {r : DelayedRule arity D} : (m.push c rule).rules[j]? = some r ↔
    m.rules[j]? = some r ∨ j = m.rules.length ∧ r = ⟨rule, c, fun _ => none, [], []⟩ := by
  rw [RuleManager.push]
  rcases Nat.lt_trichotomy j m.rules.length with hlt | rfl | hgt
  · rw [List.getElem?_append_left hlt]
    simp [hlt.ne]
  · rw [List.getElem?_concat_length]
    simp [eq_comm]
  · rw [List.getElem?_eq_none (by simp; omega), List.getElem?_eq_none (by omega)]
    simp [hgt.ne']

theorem fireAllKnown_made (hmade : Made key m)
    (hops : ∀ args ∈ m.symbol2knownlits q v, Fireable key m (i, (⟨q, args, v⟩ : Literal arity D))) :
    Made key (m.fireAllKnown i q v) ∧
      Becomes (fun j t => j = i ∧ ∃ args ∈ m.symbol2knownlits q v, args.1 = t) m (m.fireAllKnown i q v) := by
  have heq : m.fireAllKnown i q v =
      fireAll ((m.symbol2knownlits q v).map fun args => (i, (⟨q, args, v⟩ : Literal arity D))) m := by
    rw [RuleManager.fireAllKnown, fireAll, List.foldl_map]
  obtain ⟨hmade', hbecomes⟩ := fireAll_made hmade (List.forall_mem_map.mpr hops)
  rw [heq]
  refine ⟨hmade', hbecomes.congr fun j t => ?_⟩
  simp only [List.mem_map, exists_exists_and_eq_and]
  constructor
  · rintro ⟨args, hargs, rfl, rfl⟩
    exact ⟨rfl, args, hargs, rfl⟩
  · rintro ⟨rfl, args, hargs, rfl⟩
    exact ⟨args, hargs, rfl, rfl⟩

-- the literals that are known for the head
structure Keyed (key : Atom arity D → Option (Literal arity D)) (q : Q) (m : RuleManager arity D) : Prop where
  pos : ∀ args ∈ m.symbol2knownlits q true, key ⟨q, args⟩ = some ⟨q, args, true⟩
  neg : ∀ args ∈ m.symbol2knownlits q false, args ∉ m.symbol2knownlits q true → key ⟨q, args⟩ = some ⟨q, args, false⟩

-- a new rule is fired for what is known, first for the atoms that are true
theorem delayRule_invariant (hinv : Invariant key m) (hkeyed : Keyed key rule.symbol m)
    (hgood : ∀ lit ∈ m.alreadygroundedlits, rule.symbol = lit.symbol → rule.Good lit.args.1) :
    Invariant key (m.delayRule c rule) ∧
      Becomes (fun i t => i = m.rules.length ∧ ∃ v, ∃ args ∈ m.symbol2knownlits rule.symbol v, args.1 = t)
        (((m.push c rule).watch m.rules.length rule.symbol true).watch m.rules.length rule.symbol false) (m.delayRule c rule) := by
  have hnew : (m.push c rule).rules[m.rules.length]? = some ⟨rule, c, fun _ => none, [], []⟩ :=
    get_push.mpr (Or.inr ⟨rfl, rfl⟩)
  have hplain : ∀ v, ∀ args ∈ m.symbol2knownlits rule.symbol v, rule.PlainAt args.1 := fun v args hargs =>
    (hgood ⟨rule.symbol, args, v⟩ ((hinv.known ⟨rule.symbol, args, v⟩).mp hargs) rfl).plain
  obtain ⟨hmade, hbecomes⟩ := fireAllKnown_made (i := m.rules.length) (v := true)
    ((@Made.push _ _ _ _ _ _ _ c rule hinv.made).watch (i := m.rules.length) (q := rule.symbol) (v := true))
    fun args hargs => ⟨_, hnew, rfl, hplain true args hargs, Or.inr (hkeyed.pos args hargs)⟩
  have hbecomes := hbecomes.watch (i := m.rules.length) (q := rule.symbol) (v := false)
  obtain ⟨r', hr', hrule, -, hgrounded⟩ := hbecomes.rules _ _ hnew
  obtain ⟨hmade', hbecomes'⟩ := fireAllKnown_made (i := m.rules.length) (v := false)
    (hmade.watch (i := m.rules.length) (q := rule.symbol) (v := false)) fun args hargs => by
      have hargs : args ∈ m.symbol2knownlits rule.symbol false := hbecomes.tuples ▸ hargs
      refine ⟨r', hr', by rw [hrule], hrule ▸ hplain false args hargs, ?_⟩
      by_cases hpos : args ∈ m.symbol2knownlits rule.symbol true
      · exact Or.inl ((hgrounded _).mpr (Or.inr ⟨rfl, args, hpos, rfl⟩))
      · exact Or.inr (hkeyed.neg args hargs hpos)
  have hdelay : m.delayRule c rule = ((((m.push c rule).watch m.rules.length rule.symbol true).fireAllKnown m.rules.length
      rule.symbol true).watch m.rules.length rule.symbol false).fireAllKnown m.rules.length rule.symbol false := rfl
  have hall := @Becomes.congr _ _ _ _ _ _ (fun i t =>
    i = m.rules.length ∧ ∃ v, ∃ args ∈ m.symbol2knownlits rule.symbol v, args.1 = t) (hbecomes.trans hbecomes') fun i t => by
      rw [hbecomes.tuples, ← and_or_left, Bool.exists_bool]
      exact and_congr_right fun _ => or_comm
  rw [hdelay]
  refine ⟨hall.invariant hmade' hinv.known (fun q v j => ?_) (fun j r hr a hsymbol => ?_) fun r hr lit hlit hsymbol => ?_, hall⟩
  · rw [mem_watch, mem_watch]
    refine ((or_congr_left (or_congr_left (hinv.watched q v j))).trans ?_)
    constructor
    · rintro ((⟨r, hr, hsymbol⟩ | ⟨rfl, -, rfl⟩) | ⟨rfl, -, rfl⟩)
      · exact ⟨r, get_push.mpr (Or.inl hr), hsymbol⟩
      · exact ⟨_, hnew, rfl⟩
      · exact ⟨_, hnew, rfl⟩
    · rintro ⟨r, hr, rfl⟩
      rcases get_push.mp hr with hr | ⟨rfl, rfl⟩
      · exact Or.inl (Or.inl ⟨r, hr, rfl⟩)
      · cases v
        · exact Or.inr ⟨rfl, rfl, rfl⟩
        · exact Or.inl (Or.inr ⟨rfl, rfl, rfl⟩)
  · rcases get_push.mp hr with hr | ⟨rfl, rfl⟩
    · have hne : j ≠ m.rules.length := (List.getElem?_eq_some_iff.mp hr).1.ne
      rw [or_iff_left fun h => hne h.1]
      exact hinv.grounded r (List.mem_of_getElem? hr) a hsymbol
    · obtain ⟨q, args⟩ := a
      obtain rfl : rule.symbol = q := hsymbol
      have hknown : m.Known ⟨rule.symbol, args⟩ ↔ ∃ v, args ∈ m.symbol2knownlits rule.symbol v := by
        rw [RuleManager.known_iff]
        exact exists_congr fun v => (hinv.known ⟨rule.symbol, args, v⟩).symm
      refine Iff.trans ?_ hknown.symm
      simp only [List.not_mem_nil, false_or, true_and]
      exact exists_congr fun v => ⟨fun ⟨args', hargs', heq⟩ => Subtype.ext heq ▸ hargs', fun hargs => ⟨args, hargs, rfl⟩⟩
  · obtain ⟨j, hj⟩ := List.mem_iff_getElem?.mp hr
    rcases get_push.mp hj with hr | ⟨rfl, rfl⟩
    · exact hinv.good r (List.mem_of_getElem? hr) lit hlit hsymbol
    · exact hgood lit hlit hsymbol

theorem Keyed.congr (h : Keyed key q m) (htuples : m'.symbol2knownlits = m.symbol2knownlits) : Keyed key q m' where
  pos := htuples ▸ h.pos
  neg := htuples ▸ h.neg

theorem Invariant.rekey (hinv : Invariant key m)
    (h : ∀ a lit, key' a = some lit → ∀ r ∈ m.rules, ∀ c, ¬ r.Fires c a) : Invariant key' m :=
  ⟨hinv.made.rekey h, hinv.known, hinv.watched, hinv.grounded, hinv.good⟩

theorem delayed_push {rule' : RuleGrounder arity D} :
    (m.push c rule).Delayed c' rule' ↔ m.Delayed c' rule' ∨ c' = c ∧ rule' = rule := by
  rw [RuleManager.push, RuleManager.Delayed, RuleManager.Delayed]
  simp only [List.mem_append, List.mem_singleton, or_and_right, exists_or, exists_eq_left, eq_comm]

theorem delay_invariant {rules : List (RuleGrounder arity D)} (hinv : Invariant key m)
    (hkeyed : ∀ rule ∈ rules, Keyed key rule.symbol m)
    (hgood : ∀ rule ∈ rules, ∀ lit ∈ m.alreadygroundedlits, rule.symbol = lit.symbol → rule.Good lit.args.1) :
    Invariant key (m.delay c rules) ∧
      ∀ c' rule, (m.delay c rules).Delayed c' rule ↔ m.Delayed c' rule ∨ c' = c ∧ rule ∈ rules := by
  induction rules generalizing m with
  | nil => exact ⟨hinv, fun c' rule => by simp [RuleManager.delay]⟩
  | cons rule rules ih =>
    obtain ⟨hinv', hbecomes⟩ := delayRule_invariant (c := c) hinv (hkeyed rule List.mem_cons_self) (hgood rule List.mem_cons_self)
    have hknown : (m.delayRule c rule).alreadygroundedlits = m.alreadygroundedlits := hbecomes.known
    obtain ⟨hrest, hdelayed⟩ := ih hinv' (fun rule hrule => (hkeyed rule (List.mem_cons_of_mem _ hrule)).congr hbecomes.tuples)
      (by rw [hknown]; exact fun rule hrule => hgood rule (List.mem_cons_of_mem _ hrule))
    refine ⟨hrest, fun c' rule' => (hdelayed c' rule').trans ?_⟩
    have hpush : (m.delayRule c rule).Delayed c' rule' ↔ (m.push c rule).Delayed c' rule' := hbecomes.delayed
    rw [hpush, delayed_push, or_assoc, ← and_or_left, List.mem_cons]

end Delay

theorem flush_entries {a : Atom arity D} : m.flush.entries c a = m.entries c a := by
  simp only [RuleManager.entries, RuleManager.flush, List.filter_append, List.filter_nil, List.map_nil, List.append_nil,
    List.filter_map]
  rfl

theorem Made.flush (h : Made (fun _ => .none) m) : Made (fun _ => .none) m.flush where
  already := h.already
  none c a hnot := flush_entries.trans (h.none c a hnot)
  one c a hfires := by
    obtain ⟨r', hr', hholds⟩ := h.one c a hfires
    exact ⟨r', flush_entries.trans hr', hholds⟩
  temp _ _ := nofun

theorem solver_flush {a : Atom arity D} : (m.flush.solver c).filter (fun r => r.head = a) = m.entries c a := by
  rw [← flush_entries, RuleManager.entries, RuleManager.flush, List.filter_nil, List.map_nil, List.append_nil]

section Runs

variable {definition : ℕ → List (RuleGrounder arity D)} {handed : List ℕ} {e : RuleEvent arity D}

-- a definition is handed over once, and another one does not define what is watched
def Allowed (handed : List ℕ) (m : RuleManager arity D) : RuleEvent arity D → Prop
  | .delay c delayable => c ∉ handed ∧ ∀ q, delayable q = true → m.canwatch c q = true
  | .fired _ => True
  | .flush => True

def handOver (handed : List ℕ) : RuleEvent arity D → List ℕ
  | .delay c _ => c :: handed
  | .fired _ => handed
  | .flush => handed

inductive Run (definition : ℕ → List (RuleGrounder arity D)) (meets : RuleManager arity D → RuleEvent arity D → Prop) :
    List ℕ → RuleManager arity D → Prop
  | start : Run definition meets [] RuleManager.start
  | step {handed : List ℕ} {m : RuleManager arity D} (e : RuleEvent arity D) : Run definition meets handed m → Allowed handed m e → meets m e →
      Run definition meets (handOver handed e) (m.handle definition e)

-- the tuples that match the head of a rule are values for its variables
def FitsSorts (definition : ℕ → List (RuleGrounder arity D)) (m : RuleManager arity D) : RuleEvent arity D → Prop
  | .delay c delayable => ∀ rule ∈ definition c, delayable rule.symbol = true → ∀ lit ∈ m.alreadygroundedlits,
      rule.symbol = lit.symbol → rule.Good lit.args.1
  | .fired lit => ∀ r ∈ m.rules, r.rule.symbol = lit.symbol → r.rule.Good lit.args.1
  | .flush => True

structure Reached (definition : ℕ → List (RuleGrounder arity D)) (handed : List ℕ) (m : RuleManager arity D) : Prop where
  invariant : Invariant (fun _ => none) m
  handed : ∀ c rule, m.Delayed c rule → c ∈ handed
  rules : ∀ c rule, m.Delayed c rule → ∀ rule', rule'.symbol = rule.symbol → (m.Delayed c rule' ↔ rule' ∈ definition c)

theorem reached_start : Reached definition [] (RuleManager.start : RuleManager arity D) where
  invariant := {
    made := {
      already := fun _ hr => absurd hr List.not_mem_nil
      none := fun _ _ _ => rfl
      one := fun _ _ ⟨_, hr, _⟩ => absurd hr List.not_mem_nil
      temp := fun _ _ => nofun }
    known := fun _ => iff_of_false List.not_mem_nil List.not_mem_nil
    watched := fun _ _ _ => iff_of_false List.not_mem_nil fun ⟨_, hr, _⟩ => absurd hr nofun
    grounded := fun _ hr => absurd hr List.not_mem_nil
    good := fun _ hr => absurd hr List.not_mem_nil }
  handed _ _ := fun ⟨_, hr, _⟩ => absurd hr List.not_mem_nil
  rules _ _ := fun ⟨_, hr, _⟩ => absurd hr List.not_mem_nil

-- no rule with the symbol is watched when its definition is handed over
theorem Reached.fresh (h : Reached definition handed m) (hc : c ∉ handed) (hcanwatch : m.canwatch c q = true) :
    ∀ r ∈ m.rules, r.rule.symbol ≠ q := by
  intro r hr hsymbol
  obtain ⟨i, hi⟩ := List.mem_iff_getElem?.mp hr
  have hwatched := (h.invariant.watched q true i).mpr ⟨r, hi, hsymbol⟩
  have hconstruction : m.rules[i]?.map (·.construction) == some c := by
    simp only [RuleManager.canwatch, List.all_cons, List.all_nil, Bool.and_eq_true, List.all_eq_true] at hcanwatch
    exact hcanwatch.1 i hwatched
  rw [hi, Option.map_some, beq_iff_eq, Option.some.injEq] at hconstruction
  exact hc (hconstruction ▸ h.handed _ _ ⟨r, hr, rfl, rfl⟩)

theorem reached_delay (h : Reached definition handed m) {delayable : Q → Bool} (hallowed : Allowed handed m (.delay c delayable))
    (hfits : FitsSorts definition m (.delay c delayable)) :
    Reached definition (c :: handed) (m.handle definition (.delay c delayable)) := by
  obtain ⟨hc, hcanwatch⟩ := hallowed
  have hfresh : ∀ q, delayable q = true → ∀ r ∈ m.rules, r.rule.symbol ≠ q := fun q hq => h.fresh hc (hcanwatch q hq)
  have hmem : ∀ {rule : RuleGrounder arity D}, rule ∈ (definition c).filter (fun rule => delayable rule.symbol) ↔
      rule ∈ definition c ∧ delayable rule.symbol = true := List.mem_filter
  let key : Atom arity D → Option (Literal arity D) := fun a =>
    if delayable a.1 then some ⟨a.1, a.2, a.2 ∈ m.symbol2knownlits a.1 true⟩ else none
  have hkey : Invariant key m := h.invariant.rekey fun a lit ha r hr c' hfires => by
    by_cases hq : delayable a.1 = true
    · exact hfresh a.1 hq r hr hfires.2.1
    · exact absurd ((if_neg hq).symm.trans ha) nofun
  obtain ⟨hinv, hdelayed⟩ := @delay_invariant _ _ _ _ _ _ _ c ((definition c).filter fun rule => delayable rule.symbol) hkey
    (fun rule hrule => ⟨fun args hargs => by simp [key, (hmem.mp hrule).2, hargs],
      fun args _ hargs => by simp [key, (hmem.mp hrule).2, hargs]⟩)
    (fun rule hrule => hfits rule (hmem.mp hrule).1 (hmem.mp hrule).2)
  refine ⟨hinv.rekey fun _ _ => nofun, fun c' rule hrule => ?_, fun c' rule hrule rule' hsymbol => ?_⟩
  · rcases (hdelayed c' rule).mp hrule with hrule | ⟨rfl, -⟩
    · exact List.mem_cons_of_mem _ (h.handed c' rule hrule)
    · exact List.mem_cons_self
  · rw [RuleManager.handle, hdelayed]
    rcases (hdelayed c' rule).mp hrule with hrule | ⟨rfl, hrule⟩
    · have hne : c' ≠ c := fun heq => hc (heq ▸ h.handed c' rule hrule)
      rw [or_iff_left fun hnew => hne hnew.1]
      exact h.rules c' rule hrule rule' hsymbol
    · have hold : ¬ m.Delayed c' rule' := fun hrule' => hc (h.handed c' rule' hrule')
      rw [or_iff_right hold, hmem, hsymbol]
      exact (and_iff_right rfl).trans (and_iff_left (hmem.mp hrule).2)

theorem reached_fired (h : Reached definition handed m) (hfits : FitsSorts definition m (.fired lit)) :
    Reached definition handed (m.handle definition (.fired lit)) := by
  obtain ⟨hinv, hdelayed⟩ := fired_invariant h.invariant hfits
  refine ⟨hinv, fun c rule hrule => h.handed c rule ((hdelayed c rule).mp hrule),
    fun c rule hrule rule' hsymbol => ?_⟩
  exact (hdelayed c rule').trans (h.rules c rule ((hdelayed c rule).mp hrule) rule' hsymbol)

theorem reached_flush (h : Reached definition handed m) : Reached definition handed (m.handle definition .flush) where
  invariant := ⟨h.invariant.made.flush, h.invariant.known, h.invariant.watched, h.invariant.grounded, h.invariant.good⟩
  handed := h.handed
  rules := h.rules

theorem Run.reached (h : Run definition (FitsSorts definition) handed m) : Reached definition handed m := by
  induction h with
  | start => exact reached_start
  | step e _ hallowed hfits ih =>
    cases e with
    | delay c delayable => exact reached_delay ih hallowed hfits
    | fired lit => exact reached_fired ih hfits
    | flush => exact reached_flush ih

-- one rule for every head that fired, with the instances of the rules of the definition whose variables are in their sorts
structure GroundsFired (definition : ℕ → List (RuleGrounder arity D)) (m : RuleManager arity D) : Prop where
  heads : ∀ c, ∀ r' ∈ m.flush.solver c, m.Known r'.head ∧ ∃ rule, m.Delayed c rule ∧ rule.symbol = r'.head.1
  one : ∀ c rule, m.Delayed c rule → ∀ a, m.Known a → rule.symbol = a.1 →
    ∃ r', (m.flush.solver c).filter (fun r => r.head = a) = [r'] ∧
      ∀ ν : ℕ → Prop, ν trueLit.atom → m.flush.translator.Meant ν → (r'.holds ν ↔ ∃ rule ∈ definition c, rule.symbol = a.1 ∧
        ∃ σ, Matches rule.args a.2.1 σ ∧ rule.InSorts σ ∧ (rule.body σ).holds ν)

theorem delayed_definitions (definition : ℕ → List (RuleGrounder arity D)) (handed : List ℕ) (m : RuleManager arity D)
    (hrun : Run definition (FitsSorts definition) handed m) : GroundsFired definition m := by
  obtain ⟨hinv, -, hrules⟩ := hrun.reached
  have hfires : ∀ c a r, r ∈ m.rules → (r.Fires c a ↔ r.construction = c ∧ r.rule.symbol = a.1 ∧ m.Known a) :=
    fun c a r hr => and_congr_right fun _ => and_congr_right fun hsymbol => hinv.grounded r hr a hsymbol
  refine ⟨fun c r' hr' => ?_, ?_⟩
  · have hmem : r' ∈ m.entries c r'.head := by
      rw [← solver_flush]
      exact List.mem_filter.mpr ⟨hr', decide_eq_true rfl⟩
    by_contra hnot
    refine List.not_mem_nil (hinv.made.none c r'.head ?_ ▸ hmem)
    rintro ⟨r, hr, hfired⟩
    obtain ⟨hc, hsymbol, hknown⟩ := (hfires c r'.head r hr).mp hfired
    exact hnot ⟨hknown, r.rule, ⟨r, hr, hc, rfl⟩, hsymbol⟩
  · rintro c - ⟨r, hr, rfl, rfl⟩ a hknown hsymbol
    obtain ⟨r', hr', hholds⟩ := hinv.made.one r.construction a ⟨r, hr, (hfires _ a r hr).mpr ⟨rfl, hsymbol, hknown⟩⟩
    refine ⟨r', solver_flush.trans hr', fun ν hν hmeant => (hholds ν hν hmeant).trans ?_⟩
    have hdefinition := hrules r.construction r.rule ⟨r, hr, rfl, rfl⟩
    constructor
    · rintro ⟨x, hx, hfired, σ, hσ, hbody⟩
      obtain ⟨hc, hxsymbol, -⟩ := (hfires _ a x hx).mp hfired
      obtain ⟨lit, hlit, rfl⟩ := hknown
      refine ⟨x.rule, (hdefinition x.rule (hxsymbol.trans hsymbol.symm)).mp ⟨x, hx, hc, rfl⟩, hxsymbol, σ, hσ, ?_, hbody⟩
      exact (hinv.good x hx lit hlit hxsymbol).sorted σ hσ
    · rintro ⟨rule, hrule, hrsymbol, σ, hσ, -, hbody⟩
      obtain ⟨x, hx, hc, rfl⟩ := (hdefinition rule (hrsymbol.trans hsymbol.symm)).mpr hrule
      exact ⟨x, hx, (hfires _ a x hx).mpr ⟨hc, hrsymbol, hknown⟩, σ, hσ, hbody⟩

end Runs

-- a rule p(x) ← q where x is of a sort with one of the elements
def narrowRule : RuleGrounder (fun _ : Unit => 1) Bool where
  symbol := ()
  args := [.var 0]
  args_length := rfl
  sort _ d := d
  body _ := ⟨[⟨true, 5⟩], true⟩
  body_congr _ _ _ := rfl

def narrowLit (d : Bool) : Literal (fun _ : Unit => 1) Bool := ⟨(), ⟨[d], rfl⟩, true⟩

def narrowRun (d : Bool) : RuleManager (fun _ : Unit => 1) Bool :=
  (RuleManager.start.handle (fun _ => [narrowRule]) (.delay 0 fun _ => true)).handle (fun _ => [narrowRule]) (.fired (narrowLit d))

theorem narrow_good : narrowRule.Good [true] where
  sorted σ hσ v hv := by
    obtain rfl : v = 0 := by simpa [narrowRule] using hv
    have hmatch : σ 0 = some true := by simpa [Matches, narrowRule, HeadArg.value] using hσ
    exact ⟨true, hmatch, rfl⟩
  plain _ _ := by
    constructor
    · exact fun _ h => absurd (List.mem_singleton.mp h) (by decide)
    · intro h
      cases h

theorem delayed_definitions_narrow : GroundsFired (fun _ => [narrowRule]) (narrowRun true) := by
  refine delayed_definitions _ [0] _ (.step (.fired (narrowLit true)) (.step (.delay 0 fun _ => true) .start ?_ ?_) trivial ?_)
  · exact ⟨List.not_mem_nil, fun _ _ => rfl⟩
  · exact fun _ _ _ lit hlit => absurd hlit List.not_mem_nil
  · intro r hr _
    obtain rfl : r = ⟨narrowRule, 0, fun _ => none, [], []⟩ := List.mem_singleton.mp hr
    exact narrow_good

-- the head fires for an element that is not in the sort of the variable
theorem narrow_not_groundsFired : ¬ ∀ (definition : ℕ → List (RuleGrounder (fun _ : Unit => 1) Bool)) (handed : List ℕ)
    (m : RuleManager (fun _ : Unit => 1) Bool), Run definition (fun _ _ => True) handed m → GroundsFired definition m := by
  intro h
  have hrun : Run (fun _ => [narrowRule]) (fun _ _ => True) [0] (narrowRun false) :=
    .step (.fired (narrowLit false)) (.step (.delay 0 fun _ => true) .start ⟨List.not_mem_nil, fun _ _ => rfl⟩ trivial) trivial trivial
  obtain ⟨r', hr', hholds⟩ := (h _ _ _ hrun).one 0 narrowRule ⟨_, List.mem_singleton_self _, rfl, rfl⟩ (narrowLit false).atom
    ⟨narrowLit false, List.mem_singleton_self _, rfl⟩ rfl
  have hmade : ((narrowRun false).flush.solver 0).filter (fun r => r.head = (narrowLit false).atom) =
    [⟨(narrowLit false).atom, true, [⟨true, 5⟩], true⟩] := rfl
  obtain rfl := List.singleton_inj.mp (hmade.symm.trans hr')
  obtain ⟨rule, hrule, -, σ, hσ, hsorts, -⟩ := (hholds (fun _ => True) trivial fun t ht => absurd ht List.not_mem_nil).mp
    (by simp [PCGroundRule.holds, Grounding.bodyHolds, Grounding.Lit.holds])
  obtain rfl := List.mem_singleton.mp hrule
  obtain ⟨d, hd, hsort⟩ := hsorts 0 (List.mem_singleton_self _)
  have hmatch : σ 0 = some false := by simpa [Matches, narrowRule, HeadArg.value, narrowLit, Literal.atom] using hσ
  obtain rfl := Option.some.inj (hmatch.symm.trans hd)
  cases hsort

end LazyGrounding
