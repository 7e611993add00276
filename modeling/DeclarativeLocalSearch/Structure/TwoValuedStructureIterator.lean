import DeclarativeLocalSearch.Foundation.Odometer
import DeclarativeLocalSearch.Structure.TwoValuedSteps

set_option linter.unusedSectionVars false

namespace TwoValued

variable {P F D : Type} [DecidableEq P] [DecidableEq F] [DecidableEq D]

section Digits

variable (voc : Vocabulary P F D) (o : Interpretation P F D)

def Choice.wheel (c : Choice P F D) : Odometer.Wheel := fun n => n < c.width voc o

def wheels (cs : List (Choice P F D)) : List Odometer.Wheel := cs.map fun c => c.wheel voc o

-- the structure in which every choice has the value of its digit
def assign : List (Choice P F D) → List ℕ → Interpretation P F D → Interpretation P F D
  | c :: cs, n :: ns, s => assign cs ns (c.after voc o (n + 1) s)
  | _, _, s => s

-- every iterator has come to its digit
def AtDigits : List (Choice P F D) → List ℕ → List (TwoValuedSymbolIterator P F D) → Prop
  | [], [], [] => True
  | c :: cs, n :: ns, it :: stack => c.At voc o (n + 1) it ∧ AtDigits cs ns stack
  | _, _, _ => False

def AtStart (cs : List (Choice P F D)) (stack : List (TwoValuedSymbolIterator P F D)) : Prop :=
  List.Forall₂ (fun c it => c.At voc o 0 it) cs stack

-- choices that can be made one after the other in the structure
structure Choosable (cs : List (Choice P F D)) (s : Interpretation P F D) : Prop where
  nodup : cs.Nodup
  opened : ∀ c ∈ cs, c.Open voc o
  pending : ∀ c ∈ cs, c.Pending voc o s
  positive : ∀ c ∈ cs, 0 < c.width voc o

variable {voc o} {s : Interpretation P F D} {c c' : Choice P F D} {cs : List (Choice P F D)} {k n : ℕ} {ns ms : List ℕ}
  {it : TwoValuedSymbolIterator P F D} {stack : List (TwoValuedSymbolIterator P F D)}

theorem after_zero : c.after voc o 0 s = s := by
  cases c <;> rfl

theorem after_atom_changes {p : P} {t : List D} {a : Atom P F D} :
    ((Choice.atom p t).after voc o k s).value a = s.value a ∨ a = .pred p t := by
  cases k with
  | zero => exact Or.inl rfl
  | succ k =>
    by_cases heq : a = .pred p t
    · exact Or.inr heq
    · exact Or.inl (set_other heq)

theorem Choice.Pending.after (h : c'.Pending voc o s) (hne : c' ≠ c) : c'.Pending voc o (c.after voc o k s) := by
  have hkeeps : ∀ a, (∀ p t, c = .atom p t → a ≠ .pred p t) → (∀ f d e, c = .input f d → a ≠ .graph f d e) →
      (c.after voc o k s).value a = s.value a := by
    intro a hatom hinput
    cases c with
    | atom p t => exact after_atom_changes.resolve_right (hatom p t rfl)
    | input f d =>
      exact after_input_changes.resolve_right fun ⟨e, _, heq, _⟩ => hinput f d e rfl heq
  cases c' with
  | atom p t =>
    refine (hkeeps (.pred p t) (fun p' t' heq hatom => ?_) fun f d e _ hgraph => absurd hgraph nofun).trans h
    obtain ⟨rfl, rfl⟩ := Atom.pred.inj hatom
    exact hne heq.symm
  | input f d =>
    intro e he
    refine (hkeeps (.graph f d e) (fun p t _ hatom => absurd hatom nofun) fun f' d' e' heq hgraph => ?_).trans (h e he)
    obtain ⟨rfl, rfl, -⟩ := Atom.graph.inj hgraph
    exact hne heq.symm

theorem Choosable.tail (h : Choosable voc o (c :: cs) s) (k : ℕ) : Choosable voc o cs (c.after voc o k s) where
  nodup := (List.nodup_cons.mp h.nodup).2
  opened c' hc' := h.opened c' (List.mem_cons_of_mem _ hc')
  pending c' hc' := (h.pending c' (List.mem_cons_of_mem _ hc')).after
    fun heq => (List.nodup_cons.mp h.nodup).1 (heq ▸ hc')
  positive c' hc' := h.positive c' (List.mem_cons_of_mem _ hc')

theorem wheel_iff : c.wheel voc o n = true ↔ n < c.width voc o := decide_eq_true_iff

theorem wheels_finite : ∀ w ∈ wheels voc o cs, w.Finite := by
  intro w hw
  obtain ⟨c, -, rfl⟩ := List.mem_map.mp hw
  exact ⟨c.width voc o, decide_eq_false (Nat.lt_irrefl _)⟩

theorem wheels_closed : ∀ w ∈ wheels voc o cs, w.Closed := by
  intro w hw
  obtain ⟨c, -, rfl⟩ := List.mem_map.mp hw
  exact fun n hn => wheel_iff.mpr (Nat.lt_of_succ_lt (wheel_iff.mp hn))

theorem Choosable.wheels_zero (h : Choosable voc o cs s) : ∀ w ∈ wheels voc o cs, w 0 = true := by
  intro w hw
  obtain ⟨c, hc, rfl⟩ := List.mem_map.mp hw
  exact wheel_iff.mpr (h.positive c hc)

end Digits

namespace TwoValuedStructureIterator

variable {voc : Vocabulary P F D} {o s : Interpretation P F D} {c : Choice P F D} {cs : List (Choice P F D)}
  {ns ms : List ℕ} {stack : List (TwoValuedSymbolIterator P F D)}

theorem doNexts_start (h : Choosable voc o cs s) (hstack : AtStart voc o cs stack) :
    ∃ stack', doNexts voc stack s = some (stack', assign voc o cs (Odometer.start (wheels voc o cs)) s) ∧
      AtDigits voc o cs (Odometer.start (wheels voc o cs)) stack' := by
  induction hstack generalizing s with
  | nil => exact ⟨[], rfl, trivial⟩
  | @cons c it cs stack hat _ ih =>
    obtain ⟨it', hnext, hat'⟩ := hat.doNext (h.positive c List.mem_cons_self) (h.pending c List.mem_cons_self)
    obtain ⟨stack', hrest, hdigits⟩ := ih (h.tail 1)
    rw [after_zero] at hnext
    refine ⟨it' :: stack', ?_, hat', hdigits⟩
    rw [doNexts, hnext]
    exact congrArg (fun r => r.bind fun p => some (it' :: p.1, p.2)) hrest

theorem backtrack_turn (h : Choosable voc o cs s) (hat : AtDigits voc o cs ns stack)
    (hvalid : Odometer.Valid (wheels voc o cs) ns) :
    (∀ ms, Odometer.Turn (wheels voc o cs) ns ms →
      ∃ position stack' s' rest, backtrack voc stack (assign voc o cs ns s) = (some position, stack', s') ∧
        doNexts voc (stack'.drop position) s' = some (rest, assign voc o cs ms s) ∧
        AtDigits voc o cs ms (stack'.take position ++ rest)) ∧
    ∀ ms, Odometer.turn (wheels voc o cs) ns = (ms, true) →
      ∃ stack', backtrack voc stack (assign voc o cs ns s) = (none, stack', s) ∧ AtStart voc o cs stack' := by
  induction cs generalizing ns stack s with
  | nil =>
    cases hvalid
    cases stack with
    | nil =>
      exact ⟨fun ms hturn => absurd (congrArg Prod.snd hturn) Bool.noConfusion,
        fun ms _ => ⟨[], rfl, List.Forall₂.nil⟩⟩
    | cons it stack => exact absurd hat id
  | cons c cs ih =>
    cases hvalid with
    | @cons _ n _ ns hn hvalid =>
      cases stack with
      | nil => exact absurd hat id
      | cons it stack =>
        obtain ⟨hit, hstack⟩ := hat
        have htail := h.tail (n + 1)
        obtain ⟨hturned, hcarried⟩ := ih htail hstack hvalid
        have hwidth : n + 1 ≤ c.width voc o := wheel_iff.mp hn
        have hpending := h.pending c List.mem_cons_self
        refine ⟨fun ms hturn => ?_, fun ms hcarry => ?_⟩
        · rcases Odometer.turn_cons hturn with ⟨ms', hinner, rfl⟩ | ⟨ms', hcarry, hnext, rfl⟩
          · obtain ⟨position, stack', s', rest, hback, hforth, hdigits⟩ := hturned ms' hinner
            refine ⟨position + 1, it :: stack', s', rest, ?_, hforth, hit, hdigits⟩
            rw [backtrack, assign, hback]
          · obtain ⟨stack', hback, hstart⟩ := hcarried ms' hcarry
            have hlt : n + 1 < c.width voc o := wheel_iff.mp hnext
            have hmore : it.isFinished = false :=
              eq_false_of_ne_true (mt (hit.isFinished hwidth).mp (Nat.ne_of_lt hlt))
            obtain ⟨it', hdo, hit'⟩ := hit.doNext hlt hpending
            obtain ⟨rest, hrest, hdigits⟩ := doNexts_start (h.tail (n + 2)) hstart
            obtain ⟨rfl, -⟩ := Odometer.carry_start hvalid hcarry
            refine ⟨0, it :: stack', c.after voc o (n + 1) s, it' :: rest, ?_, ?_, hit', hdigits⟩
            · rw [backtrack, assign, hback]
              simp [hmore]
            · rw [List.drop_zero, doNexts, hdo]
              exact congrArg (fun r => r.bind fun p => some (it' :: p.1, p.2)) hrest
        · obtain ⟨ms', hinner, hlast, rfl⟩ := Odometer.carry_cons hcarry
          obtain ⟨stack', hback, hstart⟩ := hcarried ms' hinner
          have hend : n + 1 = c.width voc o := by
            have hge : ¬ n + 1 < c.width voc o := fun hlt =>
              Bool.false_ne_true (hlast.symm.trans (wheel_iff.mpr hlt))
            omega
          have hdone : it.isFinished = true := (hit.isFinished hwidth).mpr hend
          rw [hend] at hit
          obtain ⟨it', hundo, hit'⟩ := hit.undo hpending (h.opened c List.mem_cons_self)
          refine ⟨it' :: stack', ?_, List.Forall₂.cons hit' hstart⟩
          rw [backtrack, assign, hback, hend]
          simp [hdone, hundo]

theorem all_turns {last : List ℕ} (h : Choosable voc o cs s) (hturns : Odometer.Turns (wheels voc o cs) ns last)
    (hlast : Odometer.turn (wheels voc o cs) last = (Odometer.start (wheels voc o cs), true))
    (hvalid : Odometer.Valid (wheels voc o cs) ns) (hat : AtDigits voc o cs ns stack) :
    ∃ later : List (List ℕ), (ns :: later).Pairwise (· < ·) ∧
      (∀ ks, ks ∈ ns :: later ↔ Odometer.Turns (wheels voc o cs) ns ks) ∧
      ∀ fuel, later.length < fuel → ∀ position stack' s',
        backtrack voc stack (assign voc o cs ns s) = (position, stack', s') →
          all voc fuel ⟨s', stack', position⟩ = some (later.map fun ms => clean voc (assign voc o cs ms s)) := by
  induction hturns using Relation.ReflTransGen.head_induction_on generalizing stack with
  | refl =>
    refine ⟨[], List.pairwise_singleton _ _, fun ks => ?_, fun fuel hfuel position stack' s' hback => ?_⟩
    · refine ⟨fun hks => List.mem_singleton.mp hks ▸ Relation.ReflTransGen.refl, fun hks => ?_⟩
      rcases Relation.ReflTransGen.cases_head hks with rfl | ⟨ms, hms, -⟩
      · exact List.mem_singleton.mpr rfl
      · exact absurd (congrArg Prod.snd (hlast.symm.trans hms)) Bool.noConfusion
    · obtain ⟨stack'', hnone, -⟩ := (backtrack_turn h hat hvalid).2 _ hlast
      obtain ⟨rfl, -, -⟩ := Prod.mk.inj (hback.symm.trans hnone)
      obtain ⟨fuel, rfl⟩ := Nat.exists_eq_add_of_lt hfuel
      rfl
  | @head ns ms hturn hturns ih =>
    obtain ⟨position, stack₁, s₁, rest, hback₁, hforth, hat'⟩ := (backtrack_turn h hat hvalid).1 ms hturn
    have hvalid' : Odometer.Valid (wheels voc o cs) ms := by
      have := Odometer.turn_valid hvalid h.wheels_zero
      rwa [hturn] at this
    obtain ⟨later, hsorted, hmem, hall⟩ := ih hvalid' hat'
    refine ⟨ms :: later, List.pairwise_cons.mpr ⟨fun ks hks => ?_, hsorted⟩, fun ks => ?_,
      fun fuel hfuel position' stack' s' hback => ?_⟩
    · exact lt_of_lt_of_le (Odometer.turn_lt hturn) (Odometer.turns_le ((hmem ks).mp hks))
    · rw [List.mem_cons, hmem]
      constructor
      · rintro (rfl | hks)
        · exact Relation.ReflTransGen.refl
        · exact Relation.ReflTransGen.head hturn hks
      · intro hks
        rcases Relation.ReflTransGen.cases_head hks with rfl | ⟨x, hx, hxks⟩
        · exact Or.inl rfl
        · obtain rfl : x = ms := congrArg Prod.fst (Eq.symm hx |>.trans hturn)
          exact Or.inr hxks
    · obtain ⟨rfl, heq⟩ := Prod.mk.inj (hback.symm.trans hback₁)
      obtain ⟨rfl, rfl⟩ := Prod.mk.inj heq
      cases fuel with
      | zero => exact absurd hfuel (Nat.not_lt_zero _)
      | succ fuel =>
        rcases hback₂ : backtrack voc (stack'.take position ++ rest) (assign voc o cs ms s) with ⟨p₂, stack₂, s₂⟩
        have hrest := hall fuel (Nat.lt_of_succ_lt_succ hfuel) p₂ stack₂ s₂ hback₂
        have hnext : next voc ⟨s', stack', some position⟩ =
            some (some (clean voc (assign voc o cs ms s)), ⟨s₂, stack₂, p₂⟩) := by
          simp only [next, hforth, hback₂, Option.bind_eq_bind, Option.bind_some]
        rw [all, hnext]
        simp only [isFinished, Option.isNone_some, Bool.false_eq_true, if_false, Option.bind_eq_bind,
          Option.bind_some, hrest]
        rfl

theorem settled_of_finite {ws : List Odometer.Wheel} (hf : ∀ w ∈ ws, w.Finite) (ns : List ℕ) :
    Odometer.Settled ws ns := by
  induction ws generalizing ns with
  | nil => trivial
  | cons w ws ih =>
    have hrest := (List.forall_mem_cons.mp hf).2
    cases ns with
    | nil => trivial
    | cons n ns => exact ⟨Or.inr hrest, ih hrest ns⟩

theorem all_start (h : Choosable voc o cs s) (hstack : AtStart voc o cs stack) :
    ∃ digits : List (List ℕ), digits.Pairwise (· < ·) ∧
      (∀ ns, ns ∈ digits ↔ Odometer.Valid (wheels voc o cs) ns) ∧
      ∀ fuel, digits.length < fuel →
        all voc fuel ⟨s, stack, some 0⟩ = some (digits.map fun ns => clean voc (assign voc o cs ns s)) := by
  have hclosed : ∀ w ∈ wheels voc o cs, w.Closed := wheels_closed
  have hfinite : ∀ w ∈ wheels voc o cs, w.Finite := wheels_finite
  have hvalid := Odometer.start_valid h.wheels_zero
  obtain ⟨last, hturns, hlast⟩ := Odometer.finite_carries hclosed h.wheels_zero hfinite hvalid
  obtain ⟨stack', hforth, hat⟩ := doNexts_start h hstack
  obtain ⟨later, hsorted, hmem, hall⟩ := all_turns h hturns hlast hvalid hat
  refine ⟨Odometer.start (wheels voc o cs) :: later, hsorted, fun ns => ?_, fun fuel hfuel => ?_⟩
  · rw [hmem, Odometer.turns_start_iff hclosed h.wheels_zero]
    exact and_iff_left (settled_of_finite hfinite ns)
  · cases fuel with
    | zero => exact absurd hfuel (Nat.not_lt_zero _)
    | succ fuel =>
      rcases hback : backtrack voc stack' (assign voc o cs (Odometer.start (wheels voc o cs)) s) with ⟨p, stack₂, s₂⟩
      have hrest := hall fuel (Nat.lt_of_succ_lt_succ hfuel) p stack₂ s₂ hback
      have hnext : next voc ⟨s, stack, some 0⟩ =
          some (some (clean voc (assign voc o cs (Odometer.start (wheels voc o cs)) s)), ⟨s₂, stack₂, p⟩) := by
        simp only [next, List.drop_zero, hforth, hback, List.take_zero, List.nil_append, Option.bind_eq_bind,
          Option.bind_some]
      rw [all, hnext]
      simp only [isFinished, Option.isNone_some, Bool.false_eq_true, if_false, Option.bind_eq_bind,
        Option.bind_some, hrest]
      rfl

end TwoValuedStructureIterator

end TwoValued
