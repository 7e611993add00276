import DeclarativeLocalSearch.LazyGrounding.RecursiveFire
import Mathlib.Data.Option.Basic

namespace LazyGrounding

open NaturalJoin

variable {Q D C : Type} {arity : Q → ℕ} {firedLits : Q → Bool → List (List D)} {delay : Delay arity D C}
  {symbol : Q} {value : Bool} {tuple : List D} {τ : C → Option D}

-- the instantiations of the containers of a delay with a fired tuple for every conjunct
def Delay.Join (delay : Delay arity D C) (firedLits : Q → Bool → List (List D)) (τ : C → Option D) : Prop :=
  Completes (fun _ => none) (delay.condition.map fun c => c.relation (firedLits c.symbol c.watchedvalue)) τ

def Delay.Uses (delay : Delay arity D C) (symbol : Q) (value : Bool) (tuple : List D) (τ : C → Option D) : Prop :=
  ∃ c ∈ delay.condition, c.symbol = symbol ∧ c.watchedvalue = value ∧ c.args.map τ = tuple.map some

theorem Delay.Join.matched (h : delay.Join firedLits τ) {c : ContainerAtom arity D C} (hc : c ∈ delay.condition) :
    ∃ t ∈ firedLits c.symbol c.watchedvalue, c.Contains t ∧ c.args.map τ = t.map some := by
  obtain ⟨t, ⟨ht, hcontains⟩, hmatch⟩ := Completes.matched h _ (List.mem_map_of_mem hc)
  exact ⟨t, ht, hcontains, hmatch⟩

theorem Delay.Join.uses (h : delay.Join firedLits τ) :
    ∃ c ∈ delay.condition, ∃ t ∈ firedLits c.symbol c.watchedvalue, delay.Uses c.symbol c.watchedvalue t τ := by
  obtain ⟨c, hc⟩ := List.exists_mem_of_ne_nil _ delay.nonempty
  obtain ⟨t, ht, -, hmatch⟩ := h.matched hc
  exact ⟨c, hc, t, ht, c, hc, rfl, rfl, hmatch⟩

theorem join_iff : delay.Join firedLits τ ↔
    Extends (fun _ => none) τ ∧ (∀ c, (τ c).isSome ↔ ∃ a ∈ delay.condition, c ∈ a.args) ∧
      ∀ a ∈ delay.condition, ∃ t ∈ firedLits a.symbol a.watchedvalue, a.Contains t ∧ a.args.map τ = t.map some := by
  constructor
  · intro h
    exact ⟨h.extending, fun c => by simpa [ContainerAtom.relation] using h.domain c, fun a ha => h.matched ha⟩
  · rintro ⟨hextends, hdomain, hmatched⟩
    refine ⟨hextends, fun c => by simpa [ContainerAtom.relation] using hdomain c, fun r hr => ?_⟩
    obtain ⟨c, hc, rfl⟩ := List.mem_map.mp hr
    obtain ⟨t, ht, hcontains, hmatch⟩ := hmatched c hc
    exact ⟨t, ⟨ht, hcontains⟩, hmatch⟩

theorem Delay.Join.mono {firedLits' : Q → Bool → List (List D)} (h : delay.Join firedLits τ)
    (hsub : ∀ q v, ∀ t ∈ firedLits q v, t ∈ firedLits' q v) : delay.Join firedLits' τ := by
  obtain ⟨hextends, hdomain, hmatched⟩ := join_iff.mp h
  exact join_iff.mpr ⟨hextends, hdomain, fun a ha => (hmatched a ha).imp fun t ht => ⟨hsub _ _ t ht.1, ht.2⟩⟩

theorem completes_relationsFrom {firedindex : ℕ} :
    Completes (fun _ => none) (relationsFrom firedLits firedindex tuple delay.condition 0) τ ↔
      Extends (fun _ => none) τ ∧ (∀ c, (τ c).isSome ↔ ∃ a ∈ delay.condition, c ∈ a.args) ∧
        ∀ a i, delay.condition[i]? = some a → ∃ t ∈ tuplesAt firedLits firedindex tuple a i,
          a.Contains t ∧ a.args.map τ = t.map some := by
  have hnames : ∀ c, (∃ r ∈ relationsFrom firedLits firedindex tuple delay.condition 0, c ∈ r.names) ↔
      ∃ a ∈ delay.condition, c ∈ a.args := by
    intro c
    constructor
    · rintro ⟨r, hr, hc⟩
      obtain ⟨⟨a, i⟩, ha, rfl⟩ := List.mem_map.mp hr
      exact ⟨a, List.fst_mem_of_mem_zipIdx ha, hc⟩
    · rintro ⟨a, ha, hc⟩
      obtain ⟨i, hi⟩ := List.mem_iff_getElem?.mp ha
      exact ⟨_, List.mem_map_of_mem (List.mk_mem_zipIdx_iff_getElem?.mpr hi), hc⟩
  constructor
  · intro h
    refine ⟨h.extending, fun c => by rw [h.domain, hnames]; simp, fun a i ha => ?_⟩
    obtain ⟨t, ⟨ht, hcontains⟩, hmatch⟩ := h.matched _ (List.mem_map_of_mem (List.mk_mem_zipIdx_iff_getElem?.mpr ha))
    exact ⟨t, ht, hcontains, hmatch⟩
  · rintro ⟨hextends, hdomain, hmatched⟩
    refine ⟨hextends, fun c => by rw [hdomain, hnames]; simp, fun r hr => ?_⟩
    obtain ⟨⟨a, i⟩, ha, rfl⟩ := List.mem_map.mp hr
    obtain ⟨t, ht, hcontains, hmatch⟩ := hmatched a i (List.mk_mem_zipIdx_iff_getElem?.mp ha)
    exact ⟨t, ⟨ht, hcontains⟩, hmatch⟩

theorem completes_at {firedindex : ℕ} {c : ContainerAtom arity D C} (hc : delay.condition[firedindex]? = some c)
    (ht : tuple ∈ firedLits c.symbol c.watchedvalue) :
    Completes (fun _ => none) (relationsFrom firedLits firedindex tuple delay.condition 0) τ ↔
      delay.Join firedLits τ ∧ c.args.map τ = tuple.map some := by
  rw [completes_relationsFrom, join_iff]
  constructor
  · rintro ⟨hextends, hdomain, hmatched⟩
    refine ⟨⟨hextends, hdomain, fun a ha => ?_⟩, ?_⟩
    · obtain ⟨i, hi⟩ := List.mem_iff_getElem?.mp ha
      obtain ⟨t, hta, hrest⟩ := hmatched a i hi
      unfold tuplesAt at hta
      split_ifs at hta with hindex
      · obtain rfl := List.mem_singleton.mp hta
        subst hindex
        obtain rfl := Option.some.inj (hc.symm.trans hi)
        exact ⟨t, ht, hrest⟩
      · exact ⟨t, hta, hrest⟩
    · obtain ⟨t, hta, -, hmatch⟩ := hmatched c firedindex hc
      rw [tuplesAt, if_pos rfl, List.mem_singleton] at hta
      rw [hmatch, hta]
  · rintro ⟨⟨hextends, hdomain, hmatched⟩, hmatch⟩
    refine ⟨hextends, hdomain, fun a i ha => ?_⟩
    obtain ⟨t, hta, hcontains, hmatch'⟩ := hmatched a (List.mem_of_getElem? ha)
    unfold tuplesAt
    split_ifs with hindex
    · subst hindex
      obtain rfl := Option.some.inj (hc.symm.trans ha)
      have heq : t = tuple := List.map_injective_iff.mpr (Option.some_injective D) (hmatch'.symm.trans hmatch)
      exact ⟨tuple, List.mem_singleton_self tuple, heq ▸ hcontains, hmatch⟩
    · exact ⟨t, hta, hcontains, hmatch'⟩

-- what a step of a delayed sentence grounds
structure GroundsSentence (target : (C → Option D) → Prop) (s r : DelayedSentence C D) : Prop where
  sound : ∀ τ ∈ r.grounded, τ ∈ s.grounded ∨ target τ
  kept : ∀ τ ∈ s.grounded, τ ∈ r.grounded
  done : s.done = true → r.done = true
  complete : r.done = false → ∀ τ, target τ → τ ∈ r.grounded

theorem GroundsSentence.refl {s : DelayedSentence C D} : GroundsSentence (fun _ => False) s s :=
  ⟨fun _ hτ => Or.inl hτ, fun _ hτ => hτ, id, fun _ _ => False.elim⟩

theorem GroundsSentence.trans {P P' : (C → Option D) → Prop} {s m r : DelayedSentence C D}
    (h : GroundsSentence P s m) (h' : GroundsSentence P' m r) : GroundsSentence (fun τ => P τ ∨ P' τ) s r where
  sound := fun τ hτ => (h'.sound τ hτ).elim (fun hmem => (h.sound τ hmem).imp_right Or.inl) fun hP => Or.inr (Or.inr hP)
  kept := fun τ hτ => h'.kept τ (h.kept τ hτ)
  done := fun hs => h'.done (h.done hs)
  complete := fun hr τ hτ => by
    have hm : m.done = false := eq_false_of_ne_true fun hm => absurd ((h'.done hm).symm.trans hr) nofun
    exact hτ.elim (fun hP => h'.kept τ (h.complete hm τ hP)) fun hP => h'.complete hr τ hP

theorem GroundsSentence.congr {P P' : (C → Option D) → Prop} {s r : DelayedSentence C D}
    (h : GroundsSentence P s r) (hP : ∀ τ, P τ ↔ P' τ) : GroundsSentence P' s r := by
  obtain rfl : P = P' := funext fun τ => propext (hP τ)
  exact h

section NotifyFired

variable [DecidableEq C] [DecidableEq D] (groundersdone : List (C → Option D) → Bool) {s : DelayedSentence C D}

theorem fireAt_grounds (hlength : ∀ q v, ∀ t ∈ firedLits q v, t.length = arity q) {firedindex : ℕ}
    {c : ContainerAtom arity D C} (hc : delay.condition[firedindex]? = some c)
    (ht : tuple ∈ firedLits c.symbol c.watchedvalue) :
    GroundsSentence (fun τ => delay.Join firedLits τ ∧ c.args.map τ = tuple.map some) s
      (s.fireAt groundersdone firedLits delay tuple firedindex) := by
  have hlengthAt : ∀ a i, (a, i) ∈ delay.condition.zipIdx 0 →
      ∀ t ∈ tuplesAt firedLits firedindex tuple a i, t.length = arity a.symbol := by
    intro a i ha t hta
    unfold tuplesAt at hta
    split_ifs at hta with hindex
    · obtain rfl := List.mem_singleton.mp hta
      subst hindex
      obtain rfl := Option.some.inj (hc.symm.trans (List.mk_mem_zipIdx_iff_getElem?.mp ha))
      exact hlength _ _ t ht
    · exact hlength _ _ t hta
  have hgrounds := @recursiveFire_grounds _ _ _ _ _ _ groundersdone firedLits firedindex tuple _ 0 ⟨s, []⟩ nofun hlengthAt
  have hvalue : FireInformation.value (⟨s, []⟩ : FireInformation C D) = fun _ => none := by
    funext c
    exact if_neg List.not_mem_nil
  rw [hvalue] at hgrounds
  refine ⟨fun τ hτ => (hgrounds.sound τ hτ).imp_right (completes_at hc ht).mp, hgrounds.kept, fun hdone => ?_,
    fun hr τ hτ => hgrounds.complete hr τ ((completes_at hc ht).mpr hτ)⟩
  obtain ⟨a, condition, heq⟩ := List.exists_cons_of_ne_nil delay.nonempty
  rw [DelayedSentence.fireAt, heq, FireInformation.recursiveFire, if_pos hdone]
  exact hdone

theorem fireAll_grounds (hlength : ∀ q v, ∀ t ∈ firedLits q v, t.length = arity q) {indices : List ℕ}
    (hindices : ∀ i ∈ indices, ∃ c, delay.condition[i]? = some c ∧ tuple ∈ firedLits c.symbol c.watchedvalue) :
    GroundsSentence (fun τ => delay.Join firedLits τ ∧
        ∃ i ∈ indices, ∃ c, delay.condition[i]? = some c ∧ c.args.map τ = tuple.map some) s
      (indices.foldl (fun sentence index => sentence.fireAt groundersdone firedLits delay tuple index) s) := by
  induction indices generalizing s with
  | nil => exact GroundsSentence.refl.congr fun τ => iff_of_false id fun h => by simpa using h.2
  | cons index indices ih =>
    obtain ⟨c, hc, ht⟩ := hindices index List.mem_cons_self
    have hfirst := fireAt_grounds groundersdone hlength (s := s) hc ht
    have hrest := ih (s := s.fireAt groundersdone firedLits delay tuple index)
      fun i hi => hindices i (List.mem_cons_of_mem _ hi)
    refine (hfirst.trans hrest).congr fun τ => ?_
    rw [← and_or_left, List.exists_mem_cons_iff]
    simp only [hc, Option.some.injEq, exists_eq_left']

theorem notifyFired_grounds [DecidableEq Q] (hlength : ∀ q v, ∀ t ∈ firedLits q v, t.length = arity q)
    (ht : tuple ∈ firedLits symbol value)
    (hvalue : ∀ c ∈ delay.condition, c.symbol = symbol → c.watchedvalue = value) :
    GroundsSentence (fun τ => delay.Join firedLits τ ∧ delay.Uses symbol value tuple τ) s
      (s.notifyFired groundersdone firedLits delay symbol tuple) := by
  have hindices : ∀ i, i ∈ delay.matchedindices symbol ↔ ∃ c, delay.condition[i]? = some c ∧ c.symbol = symbol := by
    intro i
    unfold Delay.matchedindices
    constructor
    · intro hi
      obtain ⟨⟨c, j⟩, hc, rfl⟩ := List.mem_map.mp hi
      obtain ⟨hmem, hsymbol⟩ := List.mem_filter.mp hc
      exact ⟨c, List.mk_mem_zipIdx_iff_getElem?.mp hmem, of_decide_eq_true hsymbol⟩
    · rintro ⟨c, hc, hsymbol⟩
      exact List.mem_map.mpr ⟨(c, i), List.mem_filter.mpr ⟨List.mk_mem_zipIdx_iff_getElem?.mpr hc,
        decide_eq_true hsymbol⟩, rfl⟩
  unfold DelayedSentence.notifyFired
  split_ifs with hempty
  · -- there is no join while a conjunct has no tuple
    obtain ⟨c, hc, hnone⟩ := hempty
    refine GroundsSentence.refl.congr fun τ => iff_of_false id fun h => ?_
    obtain ⟨t, hmem, -⟩ := h.1.matched hc
    rw [hnone] at hmem
    exact List.not_mem_nil hmem
  · refine (fireAll_grounds groundersdone hlength fun i hi => ?_).congr fun τ => and_congr_right fun _ => ?_
    · obtain ⟨c, hc, hsymbol⟩ := (hindices i).mp hi
      refine ⟨c, hc, ?_⟩
      rw [hvalue c (List.mem_of_getElem? hc) hsymbol, hsymbol]
      exact ht
    · constructor
      · rintro ⟨i, hi, c, hc, hmatch⟩
        obtain ⟨c', hc', hsymbol⟩ := (hindices i).mp hi
        obtain rfl := Option.some.inj (hc.symm.trans hc')
        have hmem := List.mem_of_getElem? hc
        exact ⟨c, hmem, hsymbol, hvalue c hmem hsymbol, hmatch⟩
      · rintro ⟨c, hc, hsymbol, -, hmatch⟩
        obtain ⟨i, hi⟩ := List.mem_iff_getElem?.mp hc
        exact ⟨i, (hindices i).mpr ⟨c, hi, hsymbol⟩, c, hi, hmatch⟩

end NotifyFired

end LazyGrounding
