import DeclarativeLocalSearch.LazyGrounding.LazyGroundingManager
import DeclarativeLocalSearch.LazyGrounding.NotifyFired

namespace LazyGrounding

open NaturalJoin

variable {Q D C : Type} {arity : Q → ℕ} {F : Q → Bool → List (List D)} {lit : Literal arity D}
  {s : WatchingSentence arity D C} {missing : (C → Option D) → Prop}

-- the sentence is grounded for joins only, and until it is done for all of them but the missing ones
structure Covers (F : Q → Bool → List (List D)) (missing : (C → Option D) → Prop)
    (s : WatchingSentence arity D C) : Prop where
  sound : ∀ τ ∈ s.sentence.grounded, s.delay.Join F τ
  complete : s.sentence.done = false → ∀ τ, s.delay.Join F τ → τ ∈ s.sentence.grounded ∨ missing τ

theorem Covers.mono {missing' : (C → Option D) → Prop} (h : Covers F missing s)
    (hmissing : ∀ τ, s.delay.Join F τ → missing τ → missing' τ) : Covers F missing' s :=
  ⟨h.sound, fun hdone τ hτ => (h.complete hdone τ hτ).imp_right (hmissing τ hτ)⟩

def WatchingSentence.Watches (s : WatchingSentence arity D C) (symbol : Q) (value : Bool) : Prop :=
  ∃ c ∈ s.delay.condition, c.symbol = symbol ∧ c.watchedvalue = value

def WatchingSentence.Uses (s : WatchingSentence arity D C) (lit : Literal arity D) (τ : C → Option D) : Prop :=
  s.delay.Uses lit.symbol lit.value lit.args.1 τ

section SpecificFire

variable [DecidableEq Q] [DecidableEq C] [DecidableEq D]

theorem specificFire_delay : (s.specificFire F lit).delay = s.delay := by
  unfold WatchingSentence.specificFire
  split_ifs <;> rfl

theorem specificFire_of_mem (h : lit ∈ s.alreadygroundedlits) : s.specificFire F lit = s := if_pos h

theorem mem_specificFire {l : Literal arity D} :
    l ∈ (s.specificFire F lit).alreadygroundedlits ↔ l = lit ∨ l ∈ s.alreadygroundedlits := by
  by_cases h : lit ∈ s.alreadygroundedlits
  · rw [specificFire_of_mem h]
    exact ⟨Or.inr, fun hl => hl.elim (fun heq => heq ▸ h) id⟩
  · rw [WatchingSentence.specificFire, if_neg h]
    exact List.mem_cons

theorem specificFire_done (h : (s.specificFire F lit).sentence.done = false) : s.sentence.done = false := by
  refine eq_false_of_ne_true fun hdone => ?_
  unfold WatchingSentence.specificFire at h
  split_ifs at h <;> exact absurd (hdone.symm.trans h) nofun

theorem specificFire_twice : (s.specificFire F lit).specificFire F lit = s.specificFire F lit :=
  specificFire_of_mem (mem_specificFire.mpr (Or.inl rfl))

theorem specificFire_covers (hlength : ∀ q v, ∀ t ∈ F q v, t.length = arity q)
    (hfired : lit.args.1 ∈ F lit.symbol lit.value) (hwatches : s.Watches lit.symbol lit.value)
    (hnew : lit ∉ s.alreadygroundedlits) (h : Covers F missing s) :
    Covers F (fun τ => missing τ ∧ ¬ s.Uses lit τ) (s.specificFire F lit) := by
  have hvalue : ∀ c ∈ s.delay.condition, c.symbol = lit.symbol → c.watchedvalue = lit.value := by
    obtain ⟨c', hc', hsymbol', hvalue'⟩ := hwatches
    exact fun c hc hsymbol => (s.delay.one_value c hc c' hc' (hsymbol.trans hsymbol'.symm)).trans hvalue'
  have hgrounds := notifyFired_grounds s.groundersdone (s := s.sentence) hlength hfired hvalue
  rw [WatchingSentence.specificFire, if_neg hnew]
  by_cases hdone : s.sentence.done = true
  · refine ⟨fun τ hτ => h.sound τ (by simpa [hdone] using hτ), fun hnot => ?_⟩
    simp [hdone] at hnot
  · simp only [hdone, Bool.false_eq_true, if_false]
    refine ⟨fun τ hτ => ?_, fun hr τ hτ => ?_⟩
    · exact (hgrounds.sound τ hτ).elim (h.sound τ) And.left
    · rcases h.complete (eq_false_of_ne_true hdone) τ hτ with hmem | hmissing
      · exact Or.inl (hgrounds.kept τ hmem)
      · exact or_iff_not_imp_right.mpr fun hnot =>
          hgrounds.complete hr τ ⟨hτ, not_not.mp fun huses => hnot ⟨hmissing, huses⟩⟩

end SpecificFire

namespace LazyGroundingManager

variable {m m' : LazyGroundingManager arity D C}

theorem getFiredLits_length (symbol : Q) (value : Bool) :
    ∀ t ∈ m.getFiredLits symbol value, t.length = arity symbol := by
  intro t ht
  obtain ⟨args, -, rfl⟩ := List.mem_map.mp ht
  exact args.2

theorem mem_getFiredLits {symbol : Q} {value : Bool} {args : ElementTuple arity D symbol} :
    args.1 ∈ m.getFiredLits symbol value ↔ args ∈ m.symbol2knownlits symbol value :=
  List.mem_map_of_injective Subtype.val_injective

-- which literals are known, and that every sentence is grounded for their joins and watches for more
structure Invariant (known : Literal arity D → Prop) (m : LazyGroundingManager arity D C) : Prop where
  known : ∀ l, l ∈ m.alreadygroundedlits ↔ known l
  tuples : ∀ l, l.args ∈ m.symbol2knownlits l.symbol l.value ↔ l ∈ m.alreadygroundedlits
  covers : ∀ (i : ℕ) s, m.sentences[i]? = some s → Covers m.getFiredLits (fun _ => False) s
  firedlits : ∀ (i : ℕ) s, m.sentences[i]? = some s → ∀ l ∈ s.alreadygroundedlits, l ∈ m.alreadygroundedlits
  watching : ∀ (i : ℕ) s, m.sentences[i]? = some s → s.sentence.done = false →
    ∀ symbol value, s.Watches symbol value → i ∈ m.symbol2watchedsentences symbol value
  watched : ∀ symbol value, ∀ i ∈ m.symbol2watchedsentences symbol value,
    ∃ s, m.sentences[i]? = some s ∧ s.Watches symbol value

theorem isDone_eq_false {i : ℕ} (hs : m.sentences[i]? = some s) : m.isDone i = s.sentence.done := by
  rw [isDone, hs, Option.any_some]

theorem mem_setWatched [DecidableEq Q] {symbol symbol' : Q} {value value' : Bool} {indices : List ℕ} {i : ℕ} :
    i ∈ (m.setWatched symbol value indices).symbol2watchedsentences symbol' value' ↔
      if symbol' = symbol ∧ value' = value then i ∈ indices else i ∈ m.symbol2watchedsentences symbol' value' := by
  rcases eq_or_ne symbol' symbol with rfl | hsymbol
  · rcases eq_or_ne value' value with rfl | hvalue
    · simp [setWatched]
    · simp [setWatched, hvalue]
  · simp [setWatched, hsymbol]

section AddKnown

variable [DecidableEq Q] [DecidableEq D]

theorem addKnown_tuples (h : ∀ l, l.args ∈ m.symbol2knownlits l.symbol l.value ↔ l ∈ m.alreadygroundedlits)
    (l : Literal arity D) : l.args ∈ (m.addKnown lit).symbol2knownlits l.symbol l.value ↔
      l ∈ (m.addKnown lit).alreadygroundedlits := by
  unfold addKnown
  split_ifs with hmem
  · exact h l
  · obtain ⟨symbol, args, value⟩ := lit
    obtain ⟨symbol', args', value'⟩ := l
    rcases eq_or_ne symbol' symbol with rfl | hsymbol
    · rcases eq_or_ne value' value with rfl | hvalue
      · simp [or_comm, ← h ⟨symbol', args', value'⟩]
      · simpa [hvalue] using h ⟨symbol', args', value'⟩
    · simpa [hsymbol] using h ⟨symbol', args', value'⟩

theorem mem_addKnown {l : Literal arity D} :
    l ∈ (m.addKnown lit).alreadygroundedlits ↔ l = lit ∨ l ∈ m.alreadygroundedlits := by
  unfold addKnown
  split_ifs with h
  · exact ⟨Or.inr, fun hl => hl.elim (fun heq => heq ▸ h) id⟩
  · exact List.mem_cons

theorem addKnown_sentences : (m.addKnown lit).sentences = m.sentences := by
  unfold addKnown
  split_ifs <;> rfl

theorem addKnown_watched : (m.addKnown lit).symbol2watchedsentences = m.symbol2watchedsentences := by
  unfold addKnown
  split_ifs <;> rfl

theorem mem_addKnown_fired (h : ∀ l, l.args ∈ m.symbol2knownlits l.symbol l.value ↔ l ∈ m.alreadygroundedlits)
    {symbol : Q} {value : Bool} {t : List D} (ht : t ∈ (m.addKnown lit).getFiredLits symbol value) :
    t ∈ m.getFiredLits symbol value ∨ symbol = lit.symbol ∧ value = lit.value ∧ t = lit.args.1 := by
  obtain ⟨args, hargs, rfl⟩ := List.mem_map.mp ht
  rcases mem_addKnown.mp ((addKnown_tuples h ⟨symbol, args, value⟩).mp hargs) with heq | hmem
  · exact Or.inr (heq ▸ ⟨rfl, rfl, rfl⟩)
  · exact Or.inl (mem_getFiredLits.mpr ((h ⟨symbol, args, value⟩).mpr hmem))

theorem getFiredLits_addKnown (h : ∀ l, l.args ∈ m.symbol2knownlits l.symbol l.value ↔ l ∈ m.alreadygroundedlits)
    {symbol : Q} {value : Bool} {t : List D} (ht : t ∈ m.getFiredLits symbol value) :
    t ∈ (m.addKnown lit).getFiredLits symbol value := by
  obtain ⟨args, hargs, rfl⟩ := List.mem_map.mp ht
  refine mem_getFiredLits.mpr ((addKnown_tuples h ⟨symbol, args, value⟩).mpr (mem_addKnown.mpr (Or.inr ?_)))
  exact (h ⟨symbol, args, value⟩).mp hargs

-- a new literal leaves out only the joins that use it
theorem Invariant.covers_addKnown {known : Literal arity D → Prop} (h : m.Invariant known) {i : ℕ}
    (hs : m.sentences[i]? = some s) : Covers (m.addKnown lit).getFiredLits
      (fun τ => s.Watches lit.symbol lit.value ∧ s.Uses lit τ) s where
  sound := fun τ hτ => ((h.covers i s hs).sound τ hτ).mono fun _ _ _ => getFiredLits_addKnown h.tuples
  complete := by
    intro hdone τ hτ
    by_contra hnot
    rw [not_or, not_and] at hnot
    refine hnot.1 (((h.covers i s hs).complete hdone τ ?_).resolve_right id)
    obtain ⟨hextends, hdomain, hmatched⟩ := join_iff.mp hτ
    refine join_iff.mpr ⟨hextends, hdomain, fun a ha => ?_⟩
    obtain ⟨t, ht, hcontains, hmatch⟩ := hmatched a ha
    rcases mem_addKnown_fired h.tuples ht with hold | ⟨hsymbol, hvalue, rfl⟩
    · exact ⟨t, hold, hcontains, hmatch⟩
    · exact absurd ⟨a, ha, hsymbol, hvalue, hmatch⟩ (hnot.2 ⟨a, ha, hsymbol, hvalue⟩)

end AddKnown

variable [DecidableEq Q] [DecidableEq C] [DecidableEq D]

theorem fireWatching_spec (watching : List ℕ) : ∀ m : LazyGroundingManager arity D C,
    (fireWatching lit watching m).2.symbol2knownlits = m.symbol2knownlits ∧
    (fireWatching lit watching m).2.alreadygroundedlits = m.alreadygroundedlits ∧
    (fireWatching lit watching m).2.symbol2watchedsentences = m.symbol2watchedsentences ∧
    (∀ i, (fireWatching lit watching m).2.sentences[i]? =
      if i ∈ watching then m.sentences[i]?.map (·.specificFire m.getFiredLits lit) else m.sentences[i]?) ∧
    ∀ i, i ∈ (fireWatching lit watching m).1 ↔
      i ∈ watching ∧ (fireWatching lit watching m).2.isDone i = false := by
  induction watching with
  | nil => exact fun m => ⟨rfl, rfl, rfl, fun i => by simp [fireWatching], fun i => by simp [fireWatching]⟩
  | cons index watching ih =>
    intro m
    obtain ⟨hknown, halready, hwatched, hsentences, hrest⟩ := ih (m.specificFire index lit)
    have hafter : ∀ i, (m.specificFire index lit).sentences[i]? =
        if i = index then m.sentences[i]?.map (·.specificFire m.getFiredLits lit) else m.sentences[i]? := by
      intro i
      split_ifs with h
      · exact h ▸ List.getElem?_modify_eq ..
      · exact List.getElem?_modify_ne _ _ (Ne.symm h)
    have hall : ∀ i, (fireWatching lit (index :: watching) m).2.sentences[i]? =
        if i ∈ index :: watching then m.sentences[i]?.map (·.specificFire m.getFiredLits lit)
        else m.sentences[i]? := by
      intro i
      have hsame : (m.specificFire index lit).getFiredLits = m.getFiredLits := rfl
      rw [fireWatching]
      refine (hsentences i).trans ?_
      rw [hafter, hsame]
      rcases eq_or_ne i index with rfl | hi
      · by_cases hmem : i ∈ watching
        · simp [hmem, specificFire_twice, Function.comp_def]
        · simp [hmem]
      · simp [hi]
    refine ⟨hknown, halready, hwatched, hall, fun i => ?_⟩
    have hdone : (m.specificFire index lit).isDone index = (fireWatching lit (index :: watching) m).2.isDone index := by
      rw [isDone, isDone, hafter, hall, if_pos rfl, if_pos List.mem_cons_self]
    have hmem : i ∈ (fireWatching lit (index :: watching) m).1 ↔
        i ∈ watching ∧ (fireWatching lit (index :: watching) m).2.isDone i = false ∨
          i = index ∧ (fireWatching lit (index :: watching) m).2.isDone index = false := by
      rw [← hdone, fireWatching]
      split_ifs with h
      · simpa [h] using hrest i
      · rw [List.mem_cons, hrest i, or_comm]
        simp [h]
    rw [hmem, List.mem_cons]
    constructor
    · rintro (⟨hi, h⟩ | ⟨rfl, h⟩)
      · exact ⟨Or.inr hi, h⟩
      · exact ⟨Or.inl rfl, h⟩
    · rintro ⟨rfl | hi, h⟩
      · exact Or.inr ⟨rfl, h⟩
      · exact Or.inl ⟨hi, h⟩

theorem Invariant.fired_step {known : Literal arity D → Prop} (h : m.Invariant known) :
    (m.fired lit).Invariant fun l => l = lit ∨ known l := by
  have hlit : lit ∈ (m.addKnown lit).alreadygroundedlits := mem_addKnown.mpr (Or.inl rfl)
  have hmem : lit.args.1 ∈ (m.addKnown lit).getFiredLits lit.symbol lit.value :=
    mem_getFiredLits.mpr ((addKnown_tuples h.tuples lit).mpr hlit)
  obtain ⟨hknown, halready, hwatched, hsentences, hrest⟩ := @fireWatching_spec _ _ _ _ lit _ _ _
    ((m.addKnown lit).symbol2watchedsentences lit.symbol lit.value) (m.addKnown lit)
  rw [LazyGroundingManager.fired]
  generalize fireWatching lit ((m.addKnown lit).symbol2watchedsentences lit.symbol lit.value) (m.addKnown lit) = r
    at hknown halready hwatched hsentences hrest
  obtain ⟨watching, m'⟩ := r
  rw [addKnown_watched] at hwatched hsentences hrest
  rw [addKnown_sentences] at hsentences
  have hF : m'.getFiredLits = (m.addKnown lit).getFiredLits := by
    funext symbol value
    rw [getFiredLits, getFiredLits, hknown]
  -- a sentence after the step is one of before, fired where it watches the literal
  have hbefore : ∀ (i : ℕ) s', m'.sentences[i]? = some s' → ∃ s, m.sentences[i]? = some s ∧ s'.delay = s.delay ∧
      Covers (m.addKnown lit).getFiredLits (fun _ => False) s' ∧
      (∀ l ∈ s'.alreadygroundedlits, l = lit ∨ l ∈ s.alreadygroundedlits) ∧
      (s'.sentence.done = false → s.sentence.done = false) := by
    intro i s' hs'
    have hs'' := (hsentences i).symm.trans hs'
    split_ifs at hs'' with hi
    · obtain ⟨s, hs, rfl⟩ := Option.map_eq_some_iff.mp hs''
      obtain ⟨s₀, hs₀, hwatches⟩ := h.watched lit.symbol lit.value i hi
      obtain rfl := Option.some.inj (hs₀.symm.trans hs)
      refine ⟨s₀, hs, specificFire_delay, ?_, fun l hl => mem_specificFire.mp hl, specificFire_done⟩
      by_cases hnew : lit ∈ s₀.alreadygroundedlits
      · have hsame : m.addKnown lit = m := if_pos (h.firedlits i s₀ hs lit hnew)
        rw [specificFire_of_mem hnew, hsame]
        exact h.covers i s₀ hs
      · exact (specificFire_covers getFiredLits_length hmem hwatches hnew (h.covers_addKnown hs)).mono
          fun τ _ hmissing => hmissing.2 hmissing.1.2
    · refine ⟨s', hs'', rfl, ?_, fun l hl => Or.inr hl, id⟩
      have hcovers := @Invariant.covers_addKnown _ _ _ _ lit _ _ _ _ _ h _ hs''
      refine ⟨hcovers.sound, fun hdone τ hτ => (hcovers.complete hdone τ hτ).imp_right fun hmissing => hi ?_⟩
      exact h.watching i s' hs'' hdone lit.symbol lit.value hmissing.1
  have hwatches : ∀ {s s' : WatchingSentence arity D C} {symbol value}, s'.delay = s.delay →
      (s'.Watches symbol value ↔ s.Watches symbol value) := by
    intro s s' symbol value hdelay
    rw [WatchingSentence.Watches, hdelay, WatchingSentence.Watches]
  refine ⟨fun l => ?_, fun l => ?_, fun i s' hs' => ?_, fun i s' hs' l hl => ?_, fun i s' hs' hdone symbol value hw => ?_,
    fun symbol value i hi => ?_⟩
  · exact (iff_of_eq (congrArg (l ∈ ·) halready)).trans (mem_addKnown.trans (or_congr_right (h.known l)))
  · change l.args ∈ m'.symbol2knownlits l.symbol l.value ↔ l ∈ m'.alreadygroundedlits
    rw [hknown, halready]
    exact addKnown_tuples h.tuples l
  · change Covers m'.getFiredLits _ s'
    rw [hF]
    exact (hbefore i s' hs').choose_spec.2.2.1
  · obtain ⟨s, hs, -, -, hlits, -⟩ := hbefore i s' hs'
    change l ∈ m'.alreadygroundedlits
    rw [halready]
    exact mem_addKnown.mpr ((hlits l hl).imp_right fun hold => h.firedlits i s hs l hold)
  · obtain ⟨s, hs, hdelay, -, -, hdone'⟩ := hbefore i s' hs'
    have hold : i ∈ m.symbol2watchedsentences symbol value :=
      h.watching i s hs (hdone' hdone) symbol value ((hwatches hdelay).mp hw)
    refine mem_setWatched.mpr ?_
    split_ifs with heq
    · obtain ⟨rfl, rfl⟩ := heq
      exact (hrest i).mpr ⟨hold, (isDone_eq_false hs').trans hdone⟩
    · exact hwatched ▸ hold
  · have hold : i ∈ m.symbol2watchedsentences symbol value := by
      have hi' := mem_setWatched.mp hi
      split_ifs at hi' with heq
      · obtain ⟨rfl, rfl⟩ := heq
        exact ((hrest i).mp hi').1
      · exact hwatched ▸ hi'
    obtain ⟨s, hs, hw⟩ := h.watched symbol value i hold
    obtain ⟨s', hs'⟩ : ∃ s', m'.sentences[i]? = some s' := by
      rw [hsentences i, hs]
      split_ifs <;> exact ⟨_, rfl⟩
    obtain ⟨s₀, hs₀, hdelay, -⟩ := hbefore i s' hs'
    obtain rfl := Option.some.inj (hs₀.symm.trans hs)
    exact ⟨s', hs', (hwatches hdelay).mpr hw⟩

end LazyGroundingManager

end LazyGrounding
