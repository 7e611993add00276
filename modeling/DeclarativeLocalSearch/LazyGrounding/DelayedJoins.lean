import Mathlib
import DeclarativeLocalSearch.LazyGrounding.FiredJoins

namespace LazyGrounding

open NaturalJoin

variable {Q D C : Type} {arity : Q → ℕ} {lit : Literal arity D}

namespace LazyGroundingManager

variable {m m' : LazyGroundingManager arity D C}

-- what the sentence at an index was fired for, and the conjuncts it watches by now
structure Delaying (index : ℕ) (d : Delay arity D C) (fired : Literal arity D → Prop)
    (watching : ContainerAtom arity D C → Prop) (m m' : LazyGroundingManager arity D C) : Prop where
  tuples : m'.symbol2knownlits = m.symbol2knownlits
  known : m'.alreadygroundedlits = m.alreadygroundedlits
  others : ∀ i, i ≠ index → m'.sentences[i]? = m.sentences[i]?
  watched : ∀ symbol value i, i ∈ m'.symbol2watchedsentences symbol value ↔
    i ∈ m.symbol2watchedsentences symbol value ∨
      i = index ∧ ∃ c, watching c ∧ c.symbol = symbol ∧ c.watchedvalue = value
  sentence : ∃ s, m'.sentences[index]? = some s ∧ s.delay = d ∧
    Covers m.getFiredLits (fun τ => ∀ l ∈ s.alreadygroundedlits, ¬ s.Uses l τ) s ∧
    (∀ l ∈ s.alreadygroundedlits, l ∈ m.alreadygroundedlits) ∧ ∀ l, fired l → l ∈ s.alreadygroundedlits

variable {index : ℕ} {d : Delay arity D C} {fired : Literal arity D → Prop}
  {watching : ContainerAtom arity D C → Prop} {c : ContainerAtom arity D C}

theorem Delaying.getFiredLits (h : Delaying index d fired watching m m') : m'.getFiredLits = m.getFiredLits := by
  funext symbol value
  rw [LazyGroundingManager.getFiredLits, LazyGroundingManager.getFiredLits, h.tuples]

theorem Delaying.congr {fired' : Literal arity D → Prop} {watching' : ContainerAtom arity D C → Prop}
    (h : Delaying index d fired watching m m') (hfired : ∀ l, fired l ↔ fired' l)
    (hwatching : ∀ c, watching c ↔ watching' c) : Delaying index d fired' watching' m m' := by
  obtain rfl : fired = fired' := funext fun l => propext (hfired l)
  obtain rfl : watching = watching' := funext fun c => propext (hwatching c)
  exact h

section Delaying

theorem Delaying.watch [DecidableEq Q] (h : Delaying index d fired watching m m') :
    Delaying index d fired (fun c' => watching c' ∨ c' = c) m (m'.watch index c) where
  tuples := h.tuples
  known := h.known
  others := h.others
  watched := by
    intro symbol value i
    rw [LazyGroundingManager.watch, mem_setWatched]
    have hold := h.watched symbol value i
    constructor
    · intro hi
      split_ifs at hi with heq
      · obtain ⟨rfl, rfl⟩ := heq
        rcases List.mem_append.mp hi with hmem | hnew
        · exact (hold.mp hmem).imp_right fun ⟨hindex, c', hc', heq⟩ => ⟨hindex, c', Or.inl hc', heq⟩
        · exact Or.inr ⟨List.mem_singleton.mp hnew, c, Or.inr rfl, rfl, rfl⟩
      · exact (hold.mp hi).imp_right fun ⟨hindex, c', hc', heq⟩ => ⟨hindex, c', Or.inl hc', heq⟩
    · intro hi
      have hcases : i ∈ m'.symbol2watchedsentences symbol value ∨
          i = index ∧ symbol = c.symbol ∧ value = c.watchedvalue := by
        rcases hi with hmem | ⟨hindex, c', hc' | rfl, rfl, rfl⟩
        · exact Or.inl (hold.mpr (Or.inl hmem))
        · exact Or.inl (hold.mpr (Or.inr ⟨hindex, c', hc', rfl, rfl⟩))
        · exact Or.inr ⟨hindex, rfl, rfl⟩
      split_ifs with heq
      · obtain ⟨rfl, rfl⟩ := heq
        exact List.mem_append.mpr (hcases.imp_right fun h => List.mem_singleton.mpr h.1)
      · exact hcases.resolve_right fun h => heq h.2
  sentence := h.sentence

variable [DecidableEq Q] [DecidableEq C] [DecidableEq D]

theorem Delaying.specificFire (h : Delaying index d fired watching m m') (hlit : lit ∈ m.alreadygroundedlits)
    (htuple : lit.args.1 ∈ m.getFiredLits lit.symbol lit.value)
    (hwatches : ∃ c ∈ d.condition, c.symbol = lit.symbol ∧ c.watchedvalue = lit.value) :
    Delaying index d (fun l => fired l ∨ l = lit) watching m (m'.specificFire index lit) where
  tuples := h.tuples
  known := h.known
  others := fun i hi => (List.getElem?_modify_ne _ _ (Ne.symm hi)).trans (h.others i hi)
  watched := h.watched
  sentence := by
    obtain ⟨s, hs, rfl, hcovers, hknown, hfired⟩ := h.sentence
    refine ⟨s.specificFire m'.getFiredLits lit, ?_, specificFire_delay, ?_, fun l hl => ?_, fun l hl => ?_⟩
    · rw [LazyGroundingManager.specificFire, List.getElem?_modify_eq, hs, Option.map_eq_map, Option.map_some]
    · rw [h.getFiredLits]
      by_cases hmem : lit ∈ s.alreadygroundedlits
      · rw [specificFire_of_mem hmem]
        exact hcovers
      · refine (specificFire_covers getFiredLits_length htuple hwatches hmem hcovers).mono fun τ _ hmissing l hl => ?_
        rw [WatchingSentence.Uses, specificFire_delay]
        rcases mem_specificFire.mp hl with rfl | hold
        · exact hmissing.2
        · exact hmissing.1 l hold
    · rcases mem_specificFire.mp hl with rfl | hold
      · exact hlit
      · exact hknown l hold
    · exact mem_specificFire.mpr (hl.symm.imp_right fun hold => hfired l hold)

theorem Delaying.fireAllKnown
    (htuples : ∀ l, l.args ∈ m.symbol2knownlits l.symbol l.value ↔ l ∈ m.alreadygroundedlits)
    (hc : c ∈ d.condition) (h : Delaying index d fired watching m m') :
    Delaying index d (fun l => fired l ∨ l ∈ m.alreadygroundedlits ∧ l.symbol = c.symbol ∧ l.value = c.watchedvalue)
      watching m (m'.fireAllKnown index c) := by
  have hfold : ∀ (tuples : List (ElementTuple arity D c.symbol)) (fired : Literal arity D → Prop) m',
      (∀ args ∈ tuples, args ∈ m.symbol2knownlits c.symbol c.watchedvalue) → Delaying index d fired watching m m' →
      Delaying index d (fun l => fired l ∨ ∃ args ∈ tuples, l = ⟨c.symbol, args, c.watchedvalue⟩) watching m
        (tuples.foldl (fun m args => m.specificFire index ⟨c.symbol, args, c.watchedvalue⟩) m') := by
    intro tuples
    induction tuples with
    | nil => exact fun fired m' _ h => h.congr (fun l => by simp) fun _ => Iff.rfl
    | cons args tuples ih =>
      intro fired m' hsub h
      have hargs := hsub args List.mem_cons_self
      have hfirst := (@Delaying.specificFire _ _ _ _ ⟨c.symbol, args, c.watchedvalue⟩ _ _ _ _ _ _ _ _ _ h) ((htuples _).mp hargs)
        (mem_getFiredLits.mpr hargs) ⟨c, hc, rfl, rfl⟩
      refine (ih _ _ (fun a ha => hsub a (List.mem_cons_of_mem _ ha)) hfirst).congr (fun l => ?_) fun _ => Iff.rfl
      rw [List.exists_mem_cons_iff, or_assoc]
  rw [LazyGroundingManager.fireAllKnown, h.tuples]
  refine (hfold _ fired m' (fun _ ha => ha) h).congr (fun l => or_congr_right ?_) fun _ => Iff.rfl
  constructor
  · rintro ⟨args, hargs, rfl⟩
    exact ⟨(htuples _).mp hargs, rfl, rfl⟩
  · rintro ⟨hl, hsymbol, hvalue⟩
    obtain ⟨symbol, args, value⟩ := l
    obtain ⟨rfl, rfl⟩ : symbol = c.symbol ∧ value = c.watchedvalue := ⟨hsymbol, hvalue⟩
    exact ⟨args, (htuples _).mpr hl, rfl⟩

theorem Delaying.fireConjuncts
    (htuples : ∀ l, l.args ∈ m.symbol2knownlits l.symbol l.value ↔ l ∈ m.alreadygroundedlits)
    {conjuncts : List (ContainerAtom arity D C)} (hsub : ∀ c ∈ conjuncts, c ∈ d.condition)
    (h : Delaying index d fired watching m m') :
    Delaying index d
      (fun l => fired l ∨ l ∈ m.alreadygroundedlits ∧ ∃ c ∈ conjuncts, l.symbol = c.symbol ∧ l.value = c.watchedvalue)
      watching m (conjuncts.foldl (fun m conjunct => m.fireAllKnown index conjunct) m') := by
  induction conjuncts generalizing fired m' with
  | nil => exact h.congr (fun l => by simp) fun _ => Iff.rfl
  | cons c conjuncts ih =>
    have hfirst := h.fireAllKnown htuples (hsub c List.mem_cons_self)
    refine (ih (fun c' hc' => hsub c' (List.mem_cons_of_mem _ hc')) hfirst).congr (fun l => ?_) fun _ => Iff.rfl
    rw [List.exists_mem_cons_iff, and_or_left, or_assoc]

theorem Delaying.watchConjuncts
    (htuples : ∀ l, l.args ∈ m.symbol2knownlits l.symbol l.value ↔ l ∈ m.alreadygroundedlits)
    {conjuncts : List (ContainerAtom arity D C)} (hne : conjuncts ≠ []) (h : Delaying index d fired watching m m') :
    Delaying index d
      (fun l => fired l ∨ l ∈ m.alreadygroundedlits ∧ ∃ c ∈ d.condition, l.symbol = c.symbol ∧ l.value = c.watchedvalue)
      (fun c => watching c ∨ c ∈ conjuncts) m
      (conjuncts.foldl (fun m conjunct =>
        d.condition.foldl (fun m conjunct => m.fireAllKnown index conjunct) (m.watch index conjunct)) m') := by
  induction conjuncts generalizing fired watching m' with
  | nil => exact absurd rfl hne
  | cons c conjuncts ih =>
    have hfirst := (h.watch (c := c)).fireConjuncts htuples fun _ hc => hc
    rw [List.foldl_cons]
    rcases eq_or_ne conjuncts [] with rfl | hrest
    · exact hfirst.congr (fun _ => Iff.rfl) fun c' => by rw [List.mem_singleton]
    · refine (ih hrest hfirst).congr (fun l => ?_) fun c' => ?_
      · rw [or_assoc, or_self]
      · rw [List.mem_cons, or_assoc]

theorem Invariant.delay_step {known : Literal arity D → Prop} (h : m.Invariant known)
    (groundersdone : List (C → Option D) → Bool) (containers : C → Option D) :
    (m.delay d groundersdone containers).Invariant known := by
  let s₀ : WatchingSentence arity D C := ⟨d, groundersdone, ⟨false, containers, []⟩, []⟩
  let m₀ : LazyGroundingManager arity D C := { m with sentences := m.sentences ++ [s₀] }
  have hstart : Delaying m.sentences.length d (fun _ => False) (fun _ => False) m₀ m₀ :=
    ⟨rfl, rfl, fun _ _ => rfl, fun symbol value i => by simp, s₀, List.getElem?_concat_length, rfl,
      ⟨nofun, fun _ _ _ => Or.inr nofun⟩, nofun, fun _ => False.elim⟩
  have hm' := hstart.watchConjuncts (m := m₀) h.tuples d.nonempty
  change Delaying _ d _ _ m₀ (m.delay d groundersdone containers) at hm'
  generalize m.delay d groundersdone containers = m' at hm' ⊢
  obtain ⟨s, hs, hdelay, hcovers, hknown, hfired⟩ := hm'.sentence
  have hold : ∀ (i : ℕ) s', m'.sentences[i]? = some s' → m.sentences[i]? = some s' ∨ i = m.sentences.length ∧ s' = s := by
    intro i s' hs'
    rcases eq_or_ne i m.sentences.length with rfl | hi
    · exact Or.inr ⟨rfl, Option.some.inj (hs'.symm.trans hs)⟩
    · have hsame := (hm'.others i hi).symm.trans hs'
      rcases lt_or_gt_of_ne hi with hlt | hgt
      · exact Or.inl ((List.getElem?_append_left hlt).symm.trans hsame)
      · exact absurd hsame (by simp [m₀, List.getElem?_append_right hgt.le, Nat.sub_ne_zero_of_lt hgt])
  have hkept : ∀ (i : ℕ) s', m.sentences[i]? = some s' → m'.sentences[i]? = some s' := by
    intro i s' hs'
    have hlt : i < m.sentences.length := (List.getElem?_eq_some_iff.mp hs').1
    exact (hm'.others i hlt.ne).trans ((List.getElem?_append_left hlt).trans hs')
  refine ⟨fun l => ?_, fun l => ?_, fun i s' hs' => ?_, fun i s' hs' l hl => ?_, fun i s' hs' hdone symbol value hw => ?_,
    fun symbol value i hi => ?_⟩
  · rw [hm'.known]
    exact h.known l
  · rw [hm'.tuples, hm'.known]
    exact h.tuples l
  · rw [hm'.getFiredLits]
    rcases hold i s' hs' with hbefore | ⟨-, rfl⟩
    · exact h.covers i s' hbefore
    · -- a join uses a fired tuple, and its literal was fired for the sentence
      refine hcovers.mono fun τ hτ hmissing => ?_
      obtain ⟨c, hc, t, ht, huses⟩ := hτ.uses
      obtain ⟨args, hargs, rfl⟩ := List.mem_map.mp ht
      refine hmissing ⟨c.symbol, args, c.watchedvalue⟩ (hfired _ (Or.inr ⟨?_, c, hdelay ▸ hc, rfl, rfl⟩)) huses
      exact (h.tuples ⟨c.symbol, args, c.watchedvalue⟩).mp hargs
  · rw [hm'.known]
    rcases hold i s' hs' with hbefore | ⟨-, rfl⟩
    · exact h.firedlits i s' hbefore l hl
    · exact hknown l hl
  · rw [hm'.watched]
    rcases hold i s' hs' with hbefore | ⟨hindex, rfl⟩
    · exact Or.inl (h.watching i s' hbefore hdone symbol value hw)
    · obtain ⟨c, hc, heq⟩ := hw
      exact Or.inr ⟨hindex, c, Or.inr (hdelay ▸ hc), heq⟩
  · rcases (hm'.watched symbol value i).mp hi with hmem | ⟨rfl, c, hc, heq⟩
    · obtain ⟨s', hs', hw⟩ := h.watched symbol value i hmem
      exact ⟨s', hkept i s' hs', hw⟩
    · exact ⟨s, hs, c, hdelay ▸ hc.resolve_left id, heq⟩

end Delaying

theorem foldl_delays {β : Type} {step : LazyGroundingManager arity D C → β → LazyGroundingManager arity D C}
    (hstep : ∀ m b, (step m b).sentences.map (·.delay) = m.sentences.map (·.delay)) (l : List β)
    (m : LazyGroundingManager arity D C) :
    (l.foldl step m).sentences.map (·.delay) = m.sentences.map (·.delay) := by
  induction l generalizing m with
  | nil => rfl
  | cons b l ih => exact (ih _).trans (hstep m b)

section HandleAll

variable [DecidableEq Q] [DecidableEq C] [DecidableEq D]

theorem Invariant.handle_step {known : Literal arity D → Prop} (h : m.Invariant known) (event : Event arity D C) :
    (m.handle event).Invariant fun l => known l ∨ event = .fired l := by
  cases event with
  | fired lit =>
    have hfired := @Invariant.fired_step _ _ _ _ lit _ _ _ _ _ h
    refine { hfired with known := fun l => (hfired.known l).trans ?_ }
    rw [Event.fired.injEq, or_comm, eq_comm]
  | delay d groundersdone containers =>
    have hdelay := h.delay_step (d := d) groundersdone containers
    exact { hdelay with known := fun l => (hdelay.known l).trans (by simp) }

theorem handleAll_invariant (events : List (Event arity D C)) :
    (handleAll events).Invariant fun l => .fired l ∈ events := by
  have hfold : ∀ (events : List (Event arity D C)) (known : Literal arity D → Prop) m, m.Invariant known →
      (events.foldl handle m).Invariant fun l => known l ∨ .fired l ∈ events := by
    intro events
    induction events with
    | nil => exact fun known m h => { h with known := fun l => (h.known l).trans (by simp) }
    | cons event events ih =>
      intro known m h
      have hrest := ih _ _ (h.handle_step event)
      refine { hrest with known := fun l => (hrest.known l).trans ?_ }
      rw [List.mem_cons, or_assoc, eq_comm (a := event)]
  have hstart : Invariant (fun _ => False) (⟨fun _ _ => [], [], [], fun _ _ => []⟩ : LazyGroundingManager arity D C) :=
    ⟨by simp, by simp, by simp, by simp, by simp, by simp⟩
  have hall := hfold events _ _ hstart
  exact { hall with known := fun l => (hall.known l).trans (by simp) }

theorem specificFire_delays (index : ℕ) :
    (m.specificFire index lit).sentences.map (·.delay) = m.sentences.map (·.delay) := by
  refine List.ext_getElem? fun i => ?_
  rw [specificFire, List.getElem?_map, List.getElem?_map, List.getElem?_modify]
  split_ifs <;> simp [specificFire_delay, Function.comp_def]

theorem fireWatching_delays (watching : List ℕ) (m : LazyGroundingManager arity D C) :
    (fireWatching lit watching m).2.sentences.map (·.delay) = m.sentences.map (·.delay) := by
  induction watching generalizing m with
  | nil => rfl
  | cons index watching ih => exact (ih _).trans (specificFire_delays index)

theorem fired_delays : (m.fired lit).sentences.map (·.delay) = m.sentences.map (·.delay) :=
  (fireWatching_delays _ _).trans (congrArg _ addKnown_sentences)

theorem delay_delays {d : Delay arity D C} (groundersdone : List (C → Option D) → Bool) (containers : C → Option D) :
    (m.delay d groundersdone containers).sentences.map (·.delay) = m.sentences.map (·.delay) ++ [d] := by
  have hfire : ∀ (m : LazyGroundingManager arity D C) (index : ℕ) (c : ContainerAtom arity D C),
      (m.fireAllKnown index c).sentences.map (·.delay) = m.sentences.map (·.delay) :=
    fun m index c => foldl_delays (fun m args => specificFire_delays index) _ m
  rw [LazyGroundingManager.delay]
  refine (foldl_delays (fun m' c => ?_) d.condition _).trans List.map_append
  exact foldl_delays (fun m' c => hfire m' _ c) d.condition _

end HandleAll

end LazyGroundingManager

def Event.delayed : Event arity D C → Option (Delay arity D C)
  | .fired _ => none
  | .delay d _ _ => some d

-- every conjunct has a fired tuple that lies in its tables, and these agree on the containers
def Delay.IsJoin (d : Delay arity D C) (fired : Literal arity D → Prop) (τ : C → Option D) : Prop :=
  (∀ c, (τ c).isSome ↔ ∃ a ∈ d.condition, c ∈ a.args) ∧
    ∀ a ∈ d.condition, ∃ lit, fired lit ∧ lit.symbol = a.symbol ∧ lit.value = a.watchedvalue ∧
      a.Contains lit.args.1 ∧ a.args.map τ = lit.args.1.map some

namespace LazyGroundingManager

variable {m : LazyGroundingManager arity D C}

theorem Invariant.join_iff {known : Literal arity D → Prop} (h : m.Invariant known) {d : Delay arity D C}
    {τ : C → Option D} : d.Join m.getFiredLits τ ↔ d.IsJoin known τ := by
  have hmem : ∀ symbol value t, t ∈ m.getFiredLits symbol value ↔
      ∃ lit, known lit ∧ lit.symbol = symbol ∧ lit.value = value ∧ lit.args.1 = t := by
    intro symbol value t
    constructor
    · intro ht
      obtain ⟨args, hargs, rfl⟩ := List.mem_map.mp ht
      exact ⟨⟨symbol, args, value⟩, (h.known _).mp ((h.tuples ⟨symbol, args, value⟩).mp hargs), rfl, rfl, rfl⟩
    · rintro ⟨lit, hlit, rfl, rfl, rfl⟩
      exact mem_getFiredLits.mpr ((h.tuples lit).mpr ((h.known lit).mpr hlit))
  rw [LazyGrounding.join_iff, Delay.IsJoin]
  refine (and_iff_right (show Extends (fun _ => none) τ from fun _ _ => nofun)).trans ?_
  refine and_congr_right fun _ => forall₂_congr fun a _ => ?_
  constructor
  · rintro ⟨t, ht, hcontains, hmatch⟩
    obtain ⟨lit, hlit, hsymbol, hvalue, rfl⟩ := (hmem _ _ t).mp ht
    exact ⟨lit, hlit, hsymbol, hvalue, hcontains, hmatch⟩
  · rintro ⟨lit, hlit, hsymbol, hvalue, hcontains, hmatch⟩
    exact ⟨lit.args.1, (hmem _ _ _).mpr ⟨lit, hlit, hsymbol, hvalue, rfl⟩, hcontains, hmatch⟩

variable [DecidableEq Q] [DecidableEq C] [DecidableEq D]

theorem handleAll_delays (events : List (Event arity D C)) :
    (handleAll events).sentences.map (·.delay) = events.filterMap Event.delayed := by
  have hfold : ∀ (events : List (Event arity D C)) (m : LazyGroundingManager arity D C),
      (events.foldl handle m).sentences.map (·.delay) =
        m.sentences.map (·.delay) ++ events.filterMap Event.delayed := by
    intro events
    induction events with
    | nil => exact fun m => (List.append_nil _).symm
    | cons event events ih =>
      intro m
      refine (ih _).trans ?_
      cases event with
      | fired lit => exact congrArg (· ++ _) fired_delays
      | delay d groundersdone containers =>
        refine (congrArg (· ++ _) (delay_delays groundersdone containers)).trans ?_
        rw [List.append_assoc]
        rfl
  exact hfold events _

-- after every event a delayed sentence that is not done is grounded for the joins of the fired tuples
theorem handleAll_grounds_joins (events : List (Event arity D C)) :
    (handleAll events).sentences.map (·.delay) = events.filterMap Event.delayed ∧
      ∀ s ∈ (handleAll events).sentences, s.sentence.done = false →
        ∀ τ, τ ∈ s.sentence.grounded ↔ s.delay.IsJoin (fun lit => .fired lit ∈ events) τ := by
  refine ⟨handleAll_delays events, fun s hs hdone τ => ?_⟩
  have h := handleAll_invariant events
  obtain ⟨i, hi⟩ := List.mem_iff_getElem?.mp hs
  have hcovers := h.covers i s hi
  rw [← h.join_iff]
  exact ⟨hcovers.sound τ, fun hτ => (hcovers.complete hdone τ hτ).resolve_right id⟩

local instance nodes_neZero : NeZero 3 := ⟨by decide⟩

-- the paths of length two, with one edge fired before the delay and one after it
def pathDelay : Delay (fun _ : Unit => 2) (Fin 3) (Fin 3) where
  condition := [⟨(), [fun _ => true, fun _ => true], [0, 1], true, rfl, rfl⟩,
    ⟨(), [fun _ => true, fun _ => true], [1, 2], true, rfl, rfl⟩]
  nonempty := by decide
  one_value := by simp

def pathEvents : List (Event (fun _ : Unit => 2) (Fin 3) (Fin 3)) :=
  [.fired ⟨(), ⟨[0, 1], rfl⟩, true⟩, .delay pathDelay (fun _ => false) (fun _ => none),
    .fired ⟨(), ⟨[1, 2], rfl⟩, true⟩]

theorem handleAll_grounds_path :
    ∃ s ∈ (handleAll pathEvents).sentences, some ∈ s.sentence.grounded := by
  have hmap : (handleAll pathEvents).sentences.map (·.delay) = [pathDelay] := (handleAll_grounds_joins pathEvents).1
  obtain ⟨s, hs, hdelay⟩ := List.mem_map.mp (hmap ▸ List.mem_singleton_self pathDelay)
  have hdone : ∀ s ∈ (handleAll pathEvents).sentences, s.sentence.done = false := by decide
  refine ⟨s, hs, ((handleAll_grounds_joins pathEvents).2 s hs (hdone s hs) some).mpr ?_⟩
  rw [hdelay]
  refine ⟨by decide, ?_⟩
  simp only [pathDelay, List.forall_mem_cons, List.not_mem_nil, false_implies, implies_true, and_true]
  refine ⟨⟨⟨(), ⟨[0, 1], rfl⟩, true⟩, ?_⟩, ⟨(), ⟨[1, 2], rfl⟩, true⟩, ?_⟩ <;>
    simp [pathEvents, ContainerAtom.Contains]

end LazyGroundingManager

end LazyGrounding
