import DeclarativeLocalSearch.Foundation.LexLeader
import DeclarativeLocalSearch.Grounding.TseitinMeaning

namespace SymmetryBreaking

open Grounding (Lit)

-- the clauses of a ground theory, and the first number that is not an atom
structure GroundTheory where
  clauses : List (List Lit)
  next : ℕ

namespace GroundTheory

def add (cl : List Lit) (gt : GroundTheory) : GroundTheory := { gt with clauses := gt.clauses ++ [cl] }

def createNewUninterpretedNumber (gt : GroundTheory) : Lit × GroundTheory :=
  (⟨true, gt.next⟩, { gt with next := gt.next + 1 })

end GroundTheory

section Clauses

variable (full : Bool)

-- the clauses that the shortest encoding leaves out
def GroundTheory.addFull (cl : List Lit) (gt : GroundTheory) : GroundTheory := if full then gt.add cl else gt

-- the Tseitin says that the literals so far are equal to their images; there is none before the first
def GroundTheory.addNext (prevTseitin : Option Lit) (lit symLit nextLit nextSymLit : Lit) (gt : GroundTheory) :
    Lit × GroundTheory :=
  let (tseitin, gt) := gt.createNewUninterpretedNumber
  let gt := prevTseitin.elim gt fun prevTseitin => gt.addFull full [-tseitin, prevTseitin]
  let gt := gt.addFull full [-tseitin, lit, -symLit]
  let gt := gt.add (tseitin :: (prevTseitin.toList.map (- ·) ++ [-lit]))
  let gt := gt.add (tseitin :: (prevTseitin.toList.map (- ·) ++ [symLit]))
  (tseitin, gt.add [-tseitin, -nextLit, nextSymLit])

def addChain (prevTseitin : Option Lit) (lit symLit : Lit) : List Lit → List Lit → GroundTheory → GroundTheory
  | nextLit :: literals, nextSymLit :: symLiterals, gt =>
    let (tseitin, gt) := gt.addNext full prevTseitin lit symLit nextLit nextSymLit
    addChain tseitin nextLit nextSymLit literals symLiterals gt
  | _, _, gt => gt

def addSymBreaking : List Lit → List Lit → GroundTheory → GroundTheory
  | lit :: literals, symLit :: symLiterals, gt =>
    addChain full none lit symLit literals symLiterals (gt.add [-lit, symLit])
  | _, _, gt => gt

end Clauses

def addSymBreakingClausesToGroundTheory : List Lit → List Lit → GroundTheory → GroundTheory := addSymBreaking true

def addSymBreakingClausesToGroundTheoryShortest : List Lit → List Lit → GroundTheory → GroundTheory :=
  addSymBreaking false

section UsefulAtoms

variable (groundSym : ℕ → ℕ)

-- no result when the image does not come back to the atom
def markCycle (last : ℕ) : ℕ → ℕ → List ℕ → Option (List ℕ)
  | 0, _, _ => none
  | n + 1, sym, useful => if sym = last then some useful else markCycle last n (groundSym sym) (sym :: useful)

-- the atoms from the last one on
def markUseful (n : ℕ) : List ℕ → Option (List ℕ)
  | [] => some []
  | last :: later => do
    let useful ← markUseful n later
    if last ∈ useful then some useful else markCycle groundSym last n (groundSym last) useful

def getUsefulAtoms (n : ℕ) (groundOrder : List ℕ) : Option (List ℕ × List ℕ) := do
  let useful ← markUseful groundSym n groundOrder
  let orig := groundOrder.filter (· ∈ useful)
  some (orig, orig.map groundSym)

end UsefulAtoms

section GroundSymmetry

variable {Q E : Type}

-- the interpretation of a symbol, as far as it is asked for
structure SymbolInterpretation (E : Type) where
  approxTwoValued : Bool
  pt : List (List E)
  isUnknown : List E → Bool

structure Symmetry (Q E : Type) where
  argpositions : List (Q × List ℕ)
  image : E → Option E

def Symmetry.transformToSymmetric (s : Symmetry Q E) (tuple : List E) (positions : List ℕ) : List E × Bool :=
  positions.foldl (fun (tuple, hasChanged) i =>
    match tuple[i]? >>= s.image with
    | some e => (tuple.set i e, true)
    | none => (tuple, hasChanged)) (tuple, false)

-- a map that has no image for an atom gives 0
def Symmetry.getGroundSymmetry (s : Symmetry Q E) (struc : Q → SymbolInterpretation E)
    (translateReduced : Q → List E → ℕ) : (ℕ → ℕ) × List ℕ :=
  s.argpositions.foldl (fun ground symbarg =>
    let inter := struc symbarg.1
    if inter.approxTwoValued then ground
    else inter.pt.foldl (fun (groundSym, groundOrder) eltup =>
      let (symtup, hasChanged) := s.transformToSymmetric eltup symbarg.2
      if ! inter.isUnknown eltup || ! hasChanged then (groundSym, groundOrder)
      else
        let groundtup := translateReduced symbarg.1 eltup
        (Function.update groundSym groundtup (translateReduced symbarg.1 symtup), groundOrder ++ [groundtup])) ground)
    (fun _ => 0, [])

def Symmetry.addBreakingClauses (s : Symmetry Q E) (n : ℕ) (struc : Q → SymbolInterpretation E)
    (translateReduced : Q → List E → ℕ) (nbModelsEquivalent : Bool) (gt : GroundTheory) : Option GroundTheory := do
  let (groundSym, groundOrder) := s.getGroundSymmetry struc translateReduced
  let (lits, symLits) ← getUsefulAtoms groundSym n groundOrder
  let lits := lits.map fun atom => (⟨true, atom⟩ : Lit)
  let symLits := symLits.map fun atom => (⟨true, atom⟩ : Lit)
  some (if nbModelsEquivalent then addSymBreakingClausesToGroundTheory lits symLits gt
    else addSymBreakingClausesToGroundTheoryShortest lits symLits gt)

end GroundSymmetry

end SymmetryBreaking

namespace SymmetryBreaking

open Grounding (Lit clauseHolds)
open LexLeader (cons_le_cons)

variable {full : Bool} {ν ν' : ℕ → Bool} {gt : GroundTheory} {cl : List Lit} {l lit symLit nextLit nextSymLit : Lit}
  {prevTseitin : Option Lit} {literals symLiterals : List Lit}

def value (ν : ℕ → Bool) (l : Lit) : Bool := l.positive == ν l.atom

@[simp] theorem value_neg : value ν (-l) = ! value ν l := by
  obtain ⟨positive, atom⟩ := l
  cases positive <;> simp [value, Neg.neg]

@[simp] theorem value_pos {a : ℕ} : value ν ⟨true, a⟩ = ν a := by
  simp [value]

theorem holds_iff_value : l.holds (fun a => ν a = true) ↔ value ν l = true := by
  obtain ⟨positive, atom⟩ := l
  cases positive <;> simp [value, Lit.holds]

@[simp] theorem atom_neg : (-l).atom = l.atom := rfl

theorem value_congr (h : ν l.atom = ν' l.atom) : value ν l = value ν' l := by
  rw [value, value, h]

namespace GroundTheory

def Holds (ν : ℕ → Bool) (gt : GroundTheory) : Prop := ∀ cl ∈ gt.clauses, clauseHolds (fun a => ν a = true) cl

-- the clauses are about atoms that have a number
def Below (gt : GroundTheory) : Prop := ∀ cl ∈ gt.clauses, ∀ l ∈ cl, l.atom < gt.next

@[simp] theorem holds_add : (gt.add cl).Holds ν ↔ gt.Holds ν ∧ ∃ l ∈ cl, value ν l = true := by
  simp only [Holds, add, List.mem_append, List.mem_singleton, or_imp, forall_and, forall_eq, clauseHolds, holds_iff_value]

@[simp] theorem holds_addFull :
    (gt.addFull full cl).Holds ν ↔ gt.Holds ν ∧ (full = true → ∃ l ∈ cl, value ν l = true) := by
  cases full <;> simp [addFull]

@[simp] theorem holds_next {n : ℕ} : GroundTheory.Holds ν { gt with next := n } ↔ gt.Holds ν := Iff.rfl

@[simp] theorem next_add : (gt.add cl).next = gt.next := rfl

@[simp] theorem next_addFull : (gt.addFull full cl).next = gt.next := by
  cases full <;> rfl

theorem Below.add (h : gt.Below) (hcl : ∀ l ∈ cl, l.atom < gt.next) : (gt.add cl).Below := by
  intro cl' hcl' l hl
  rcases List.mem_append.mp hcl' with hcl' | hcl'
  · exact h cl' hcl' l hl
  · exact hcl l (List.mem_singleton.mp hcl' ▸ hl)

theorem Below.addFull (h : gt.Below) (hcl : ∀ l ∈ cl, l.atom < gt.next) : (gt.addFull full cl).Below := by
  cases full with
  | false => exact h
  | true => exact h.add hcl

theorem Below.holds_congr (h : gt.Below) (hν : ∀ a < gt.next, ν a = ν' a) : gt.Holds ν ↔ gt.Holds ν' := by
  refine forall₂_congr fun cl hcl => exists_congr fun l => and_congr_right fun hl => ?_
  rw [holds_iff_value, holds_iff_value, value_congr (hν l.atom (h cl hcl l hl))]

end GroundTheory

open GroundTheory

-- the literals before are equal to their images
def Equal (ν : ℕ → Bool) (prevTseitin : Option Lit) : Prop := ∀ prev ∈ prevTseitin, value ν prev = true

section AddNext

variable (full prevTseitin lit symLit nextLit nextSymLit gt)

@[simp] theorem addNext_fst : (gt.addNext full prevTseitin lit symLit nextLit nextSymLit).1 = ⟨true, gt.next⟩ := rfl

@[simp] theorem addNext_next : (gt.addNext full prevTseitin lit symLit nextLit nextSymLit).2.next = gt.next + 1 := by
  cases prevTseitin with
  | none => exact next_addFull
  | some prev => exact next_addFull.trans next_addFull

variable {full prevTseitin lit symLit nextLit nextSymLit gt}

theorem holds_addNext : (gt.addNext full prevTseitin lit symLit nextLit nextSymLit).2.Holds ν ↔ gt.Holds ν ∧
    (full = true → ν gt.next = true → Equal ν prevTseitin ∧ (value ν symLit = true → value ν lit = true)) ∧
    (Equal ν prevTseitin → value ν lit = true ∨ value ν symLit = false → ν gt.next = true) ∧
    (ν gt.next = true → value ν nextLit = true → value ν nextSymLit = true) := by
  cases prevTseitin with
  | none =>
    simp only [addNext, createNewUninterpretedNumber, Equal, Option.elim, Option.toList_none, List.map_nil, List.nil_append,
      holds_add, holds_addFull, holds_next, List.mem_cons, List.not_mem_nil, or_false, exists_eq_or_imp, exists_eq_left,
      value_neg, value_pos, Option.mem_def, reduceCtorEq]
    cases ν gt.next <;> cases value ν lit <;> cases value ν symLit <;> cases value ν nextLit <;> simp [and_assoc]
  | some prev =>
    simp only [addNext, createNewUninterpretedNumber, Equal, Option.elim, Option.toList_some, List.map_cons, List.map_nil,
      List.cons_append, List.nil_append, holds_add, holds_addFull, holds_next, List.mem_cons, List.not_mem_nil, or_false,
      exists_eq_or_imp, exists_eq_left, value_neg, value_pos, Option.mem_def, Option.some.injEq, forall_eq']
    cases ν gt.next <;> cases value ν lit <;> cases value ν symLit <;> cases value ν prev <;> cases value ν nextLit <;> simp [and_assoc]

theorem below_addNext (h : gt.Below) (hprev : ∀ prev ∈ prevTseitin, prev.atom < gt.next) (hlit : lit.atom < gt.next)
    (hsym : symLit.atom < gt.next) (hnext : nextLit.atom < gt.next) (hnextSym : nextSymLit.atom < gt.next) :
    (gt.addNext full prevTseitin lit symLit nextLit nextSymLit).2.Below := by
  have hstart : GroundTheory.Below { gt with next := gt.next + 1 } := fun cl hcl l hl => Nat.lt_succ_of_lt (h cl hcl l hl)
  cases prevTseitin with
  | none =>
    refine (((hstart.addFull ?_).add ?_).add ?_).add ?_ <;> simp <;> omega
  | some prev =>
    have hprev := hprev prev rfl
    refine ((((hstart.addFull ?_).addFull ?_).add ?_).add ?_).add ?_ <;> simp <;> omega

end AddNext

theorem equal_some {a : ℕ} : Equal ν (some ⟨true, a⟩) ↔ ν a = true := by
  simp [Equal]

section Sound

theorem addChain_sound (hlength : literals.length = symLiterals.length)
    (h : (addChain full prevTseitin lit symLit literals symLiterals gt).Holds ν) :
    gt.Holds ν ∧ (Equal ν prevTseitin → value ν lit = value ν symLit →
      literals.map (value ν) ≤ symLiterals.map (value ν)) := by
  induction literals generalizing symLiterals prevTseitin lit symLit gt with
  | nil =>
    obtain rfl := List.eq_nil_of_length_eq_zero hlength.symm
    exact ⟨h, fun _ _ => le_refl _⟩
  | cons nextLit literals ih =>
    obtain ⟨nextSymLit, symLiterals, rfl⟩ := List.exists_cons_of_length_eq_add_one hlength.symm
    obtain ⟨hgt, hrest⟩ := ih (Nat.succ.inj hlength) h
    obtain ⟨hgt, -, hnew, hnext⟩ := holds_addNext.mp hgt
    refine ⟨hgt, fun hequal heq => ?_⟩
    have htseitin : ν gt.next = true := hnew hequal (by cases hvalue : value ν symLit <;> simp [heq, hvalue])
    rw [List.map_cons, List.map_cons, cons_le_cons]
    exact ⟨hnext htseitin, hrest (equal_some.mpr htseitin)⟩

theorem addSymBreaking_sound (hlength : literals.length = symLiterals.length)
    (h : (addSymBreaking full literals symLiterals gt).Holds ν) :
    gt.Holds ν ∧ literals.map (value ν) ≤ symLiterals.map (value ν) := by
  cases literals with
  | nil =>
    obtain rfl := List.eq_nil_of_length_eq_zero hlength.symm
    exact ⟨h, le_refl _⟩
  | cons lit literals =>
    obtain ⟨symLit, symLiterals, rfl⟩ := List.exists_cons_of_length_eq_add_one hlength.symm
    obtain ⟨hgt, hrest⟩ := addChain_sound (Nat.succ.inj hlength) h
    obtain ⟨hgt, hfirst⟩ := holds_add.mp hgt
    refine ⟨hgt, ?_⟩
    rw [List.map_cons, List.map_cons, cons_le_cons]
    exact ⟨fun hl => by simpa [hl] using hfirst, hrest nofun⟩

end Sound

section Complete

theorem map_value_congr {ls : List Lit} (h : ∀ l ∈ ls, ν l.atom = ν' l.atom) : ls.map (value ν) = ls.map (value ν') :=
  List.map_congr_left fun l hl => value_congr (h l hl)

theorem addChain_complete (hlength : literals.length = symLiterals.length) (hgt : gt.Holds ν) (hbelow : gt.Below)
    (hprev : ∀ prev ∈ prevTseitin, prev.atom < gt.next) (hlits : ∀ l ∈ lit :: literals, l.atom < gt.next)
    (hsyms : ∀ l ∈ symLit :: symLiterals, l.atom < gt.next)
    (h : Equal ν prevTseitin → (lit :: literals).map (value ν) ≤ (symLit :: symLiterals).map (value ν)) :
    ∃ ν', (∀ a < gt.next, ν' a = ν a) ∧ (addChain full prevTseitin lit symLit literals symLiterals gt).Holds ν' := by
  induction literals generalizing symLiterals prevTseitin lit symLit gt ν with
  | nil => exact ⟨ν, fun _ _ => rfl, hgt⟩
  | cons nextLit literals ih =>
    obtain ⟨nextSymLit, symLiterals, rfl⟩ := List.exists_cons_of_length_eq_add_one hlength.symm
    obtain ⟨hlit, hlits⟩ := List.forall_mem_cons.mp hlits
    obtain ⟨hsym, hsyms⟩ := List.forall_mem_cons.mp hsyms
    obtain ⟨hnext, -⟩ := List.forall_mem_cons.mp hlits
    obtain ⟨hnextSym, -⟩ := List.forall_mem_cons.mp hsyms
    have hlex := fun hequal => cons_le_cons.mp (h hequal)
    classical
    let ν1 := Function.update ν gt.next (decide (Equal ν prevTseitin ∧ value ν lit = value ν symLit))
    have hold : ∀ a < gt.next, ν1 a = ν a := fun a ha => Function.update_of_ne ha.ne _ ν
    have hnew : ν1 gt.next = true ↔ Equal ν prevTseitin ∧ value ν lit = value ν symLit := by
      simp only [ν1, Function.update_self, decide_eq_true_iff]
    have hequal : Equal ν1 prevTseitin ↔ Equal ν prevTseitin :=
      forall₂_congr fun prev hmem => by rw [value_congr (hold _ (hprev prev hmem))]
    have hrest : ν1 gt.next = true →
        (nextLit :: literals).map (value ν1) ≤ (nextSymLit :: symLiterals).map (value ν1) := by
      intro ht
      rw [map_value_congr fun l hl => hold _ (hlits l hl), map_value_congr fun l hl => hold _ (hsyms l hl)]
      exact (hlex (hnew.mp ht).1).2 (hnew.mp ht).2
    have hstep : (gt.addNext full prevTseitin lit symLit nextLit nextSymLit).2.Holds ν1 := by
      rw [holds_addNext, hequal, hnew, value_congr (hold _ hlit), value_congr (hold _ hsym), hbelow.holds_congr hold]
      refine ⟨hgt, fun _ ht => ⟨ht.1, fun hs => ht.2.trans hs⟩, fun he hor => ⟨he, ?_⟩, fun ht => ?_⟩
      · have himp := (hlex he).1
        cases hl : value ν lit <;> cases hs : value ν symLit <;> simp_all
      · exact (cons_le_cons.mp (hrest (hnew.mpr ht))).1
    have hnumber := addNext_next full gt lit symLit nextLit nextSymLit prevTseitin
    have hlt : ∀ a < gt.next + 1, a < (gt.addNext full prevTseitin lit symLit nextLit nextSymLit).2.next :=
      fun a ha => ha.trans_eq hnumber.symm
    obtain ⟨ν', hagree, hholds⟩ := ih (Nat.succ.inj hlength) hstep (below_addNext hbelow hprev hlit hsym hnext hnextSym)
      (fun prev hmem => hlt _ (Option.some.inj hmem ▸ Nat.lt_succ_self _)) (fun l hl => hlt _ (Nat.lt_succ_of_lt (hlits l hl)))
      (fun l hl => hlt _ (Nat.lt_succ_of_lt (hsyms l hl))) fun he => hrest (equal_some.mp he)
    exact ⟨ν', fun a ha => (hagree a (hlt a (Nat.lt_succ_of_lt ha))).trans (hold a ha), hholds⟩

theorem addSymBreaking_complete (hlength : literals.length = symLiterals.length) (hgt : gt.Holds ν) (hbelow : gt.Below)
    (hlits : ∀ l ∈ literals, l.atom < gt.next) (hsyms : ∀ l ∈ symLiterals, l.atom < gt.next)
    (h : literals.map (value ν) ≤ symLiterals.map (value ν)) :
    ∃ ν', (∀ a < gt.next, ν' a = ν a) ∧ (addSymBreaking full literals symLiterals gt).Holds ν' := by
  cases literals with
  | nil => exact ⟨ν, fun _ _ => rfl, hgt⟩
  | cons lit literals =>
    obtain ⟨symLit, symLiterals, rfl⟩ := List.exists_cons_of_length_eq_add_one hlength.symm
    have hfirst : value ν lit = true → value ν symLit = true := (cons_le_cons.mp h).1
    refine addChain_complete (Nat.succ.inj hlength) (holds_add.mpr ⟨hgt, ?_⟩)
      (hbelow.add ?_) nofun hlits hsyms fun _ => h
    · cases hl : value ν lit <;> simp_all
    · simp only [List.mem_cons, List.not_mem_nil, or_false, forall_eq_or_imp, forall_eq]
      exact ⟨hlits lit List.mem_cons_self, hsyms symLit List.mem_cons_self⟩

end Complete

section Unique

theorem addChain_unique (hbelow : gt.Below) (hprev : ∀ prev ∈ prevTseitin, prev.atom < gt.next)
    (hlits : ∀ l ∈ lit :: literals, l.atom < gt.next) (hsyms : ∀ l ∈ symLit :: symLiterals, l.atom < gt.next)
    (hlength : literals.length = symLiterals.length)
    (h : (addChain true prevTseitin lit symLit literals symLiterals gt).Holds ν)
    (h' : (addChain true prevTseitin lit symLit literals symLiterals gt).Holds ν') (hagree : ∀ a < gt.next, ν a = ν' a) :
    ∀ a < (addChain true prevTseitin lit symLit literals symLiterals gt).next, ν a = ν' a := by
  induction literals generalizing symLiterals prevTseitin lit symLit gt with
  | nil =>
    obtain rfl := List.eq_nil_of_length_eq_zero hlength.symm
    exact hagree
  | cons nextLit literals ih =>
    obtain ⟨nextSymLit, symLiterals, rfl⟩ := List.exists_cons_of_length_eq_add_one hlength.symm
    obtain ⟨hlit, hlits⟩ := List.forall_mem_cons.mp hlits
    obtain ⟨hsym, hsyms⟩ := List.forall_mem_cons.mp hsyms
    have hdefined : ∀ {ν : ℕ → Bool}, (addChain true prevTseitin lit symLit (nextLit :: literals)
        (nextSymLit :: symLiterals) gt).Holds ν →
        (ν gt.next = true ↔ Equal ν prevTseitin ∧ (value ν symLit = true → value ν lit = true)) := by
      intro ν h
      obtain ⟨-, hfull, hnew, -⟩ := holds_addNext.mp (addChain_sound (Nat.succ.inj hlength) h).1
      refine ⟨hfull rfl, fun ⟨hequal, himp⟩ => hnew hequal ?_⟩
      cases hs : value ν symLit with
      | false => exact Or.inr rfl
      | true => exact Or.inl (himp hs)
    have hequal : Equal ν prevTseitin ↔ Equal ν' prevTseitin :=
      forall₂_congr fun prev hmem => by rw [value_congr (hagree _ (hprev prev hmem))]
    have hnew : ν gt.next = ν' gt.next := by
      rw [Bool.eq_iff_iff, hdefined h, hdefined h', hequal, value_congr (hagree _ hlit), value_congr (hagree _ hsym)]
    have hnumber := addNext_next true gt lit symLit nextLit nextSymLit prevTseitin
    have hlt : ∀ a < gt.next + 1, a < (gt.addNext true prevTseitin lit symLit nextLit nextSymLit).2.next :=
      fun a ha => ha.trans_eq hnumber.symm
    refine ih (below_addNext hbelow hprev hlit hsym (hlits _ List.mem_cons_self) (hsyms _ List.mem_cons_self))
      (fun prev hmem => hlt _ (Option.some.inj hmem ▸ Nat.lt_succ_self _)) (fun l hl => hlt _ (Nat.lt_succ_of_lt (hlits l hl)))
      (fun l hl => hlt _ (Nat.lt_succ_of_lt (hsyms l hl))) (Nat.succ.inj hlength) h h' fun a ha => ?_
    rcases Nat.lt_succ_iff_lt_or_eq.mp (ha.trans_eq hnumber) with ha | rfl
    · exact hagree a ha
    · exact hnew

theorem addSymBreaking_unique (hbelow : gt.Below) (hlits : ∀ l ∈ literals, l.atom < gt.next)
    (hsyms : ∀ l ∈ symLiterals, l.atom < gt.next) (hlength : literals.length = symLiterals.length)
    (h : (addSymBreaking true literals symLiterals gt).Holds ν) (h' : (addSymBreaking true literals symLiterals gt).Holds ν')
    (hagree : ∀ a < gt.next, ν a = ν' a) : ∀ a < (addSymBreaking true literals symLiterals gt).next, ν a = ν' a := by
  cases literals with
  | nil => exact hagree
  | cons lit literals =>
    obtain ⟨symLit, symLiterals, rfl⟩ := List.exists_cons_of_length_eq_add_one hlength.symm
    refine addChain_unique (hbelow.add ?_) nofun hlits hsyms (Nat.succ.inj hlength) h h' hagree
    simp only [List.mem_cons, List.not_mem_nil, or_false, forall_eq_or_imp, forall_eq]
    exact ⟨hlits lit List.mem_cons_self, hsyms symLit List.mem_cons_self⟩

end Unique

end SymmetryBreaking
