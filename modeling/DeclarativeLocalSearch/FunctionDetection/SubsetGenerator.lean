import DeclarativeLocalSearch.Foundation.Subsets
import Mathlib.Data.Finset.Card

namespace SubsetGenerator

open Subsets

variable {T : Type} [DecidableEq T]

structure Generator (T : Type) where
  totalset : List T
  maxsubsetsize : ℕ
  currIndices : List ℕ
  minimalindex : ℤ
  currentsubset : Finset T

namespace Generator

def create (totalset : List T) (maxsubsetsize : ℤ) : Generator T :=
  ⟨totalset, if maxsubsetsize < 0 then totalset.length else maxsubsetsize.toNat, [], -1, ∅⟩

variable (g : Generator T)

-- the number at minimalindex
def lastIndex : ℕ := g.currIndices.getD g.minimalindex.toNat 0

def atLevelEnd : Bool :=
  match g.currIndices with
  | [] => true
  | first :: _ =>
    g.lastIndex = g.totalset.length - 1 && first = g.lastIndex - g.minimalindex.toNat

def hasNextSubset : Bool := ! g.atLevelEnd || g.currIndices.length ≤ g.maxsubsetsize

-- none is an index outside of the list
def replace (totalset : List T) (old new : ℕ) (currentsubset : Finset T) : Option (Finset T) := do
  let o ← totalset[old]?
  let e ← totalset[new]?
  some (insert e (currentsubset.erase o))

def insertAll (totalset : List T) : List ℕ → Finset T → Option (Finset T)
  | [], s => some s
  | i :: is, s => do
    let e ← totalset[i]?
    insertAll totalset is (insert e s)

-- the index after the present one is not at its largest value yet
def skips (maxfornext : ℕ) : List ℕ → Bool
  | next :: _ => next != maxfornext
  | [] => false

-- the loop over the indices from i on, with the target when an index has been advanced
def carry (totalset : List T) (minimalindex : ℕ) :
    ℕ → Option ℕ → List ℕ → Finset T → Option (List ℕ × Finset T)
  | _, _, [], s => some ([], s)
  | i, some target, c :: cs, s => do
    let s ← replace totalset c target s
    let (cs, s) ← carry totalset minimalindex (i + 1) (some (target + 1)) cs s
    some (target :: cs, s)
  | i, none, c :: cs, s =>
    let maxfornext := totalset.length - (minimalindex - i)
    if skips maxfornext cs then do
      let (cs, s) ← carry totalset minimalindex (i + 1) none cs s
      some (c :: cs, s)
    else do
      let s ← replace totalset c (c + 1) s
      let (cs, s) ← carry totalset minimalindex (i + 1) (some (c + 2)) cs s
      some ((c + 1) :: cs, s)

-- none is the exception or an index outside of the list
def nextSubset : Option (Generator T) :=
  if ! g.hasNextSubset then none
  else if g.atLevelEnd then do
    let currIndices := List.range (g.currIndices.length + 1)
    let s ← insertAll g.totalset currIndices ∅
    some { g with minimalindex := g.minimalindex + 1, currIndices := currIndices, currentsubset := s }
  else if g.lastIndex < g.totalset.length - 1 then do
    let s ← replace g.totalset g.lastIndex (g.lastIndex + 1) g.currentsubset
    some { g with currIndices := g.currIndices.set g.minimalindex.toNat (g.lastIndex + 1), currentsubset := s }
  else do
    let (currIndices, s) ← carry g.totalset g.minimalindex.toNat 0 none g.currIndices g.currentsubset
    some { g with currIndices := currIndices, currentsubset := s }

-- the subsets read, the first one included, until there is no next one
def reads : ℕ → Generator T → Option (List (Finset T))
  | 0, _ => none
  | fuel + 1, g =>
    if g.hasNextSubset then do
      let g' ← g.nextSubset
      let subsets ← reads fuel g'
      some (g.currentsubset :: subsets)
    else some [g.currentsubset]

section Pictures

-- the set holds the elements at the indices in I
def Pictures (totalset : List T) (I : ℕ → Prop) (s : Finset T) : Prop :=
  ∀ x, x ∈ s ↔ ∃ i, I i ∧ totalset[i]? = some x

def picture (totalset : List T) (l : List ℕ) : Finset T := (l.filterMap (totalset[·]?)).toFinset

variable {totalset : List T} {I J : ℕ → Prop} {s : Finset T}

omit [DecidableEq T] in
theorem Pictures.congr (h : Pictures totalset I s) (hIJ : ∀ i, I i ↔ J i) : Pictures totalset J s := by
  intro x
  simp only [h x, hIJ]

theorem pictures_picture (l : List ℕ) : Pictures totalset (· ∈ l) (picture totalset l) := by
  intro x
  rw [picture, List.mem_toFinset, List.mem_filterMap]

theorem Pictures.eq_picture {l : List ℕ} (h : Pictures totalset (· ∈ l) s) : s = picture totalset l := by
  ext x
  rw [h x, pictures_picture l x]

theorem Pictures.replace (hnodup : totalset.Nodup) (h : Pictures totalset I s) {old new : ℕ}
    (hold : old < totalset.length) (hnew : new < totalset.length) :
    ∃ s', replace totalset old new s = some s' ∧ Pictures totalset (fun i => i = new ∨ I i ∧ i ≠ old) s' := by
  refine ⟨_, by rw [Generator.replace, List.getElem?_eq_getElem hold, List.getElem?_eq_getElem hnew]; rfl, fun x => ?_⟩
  rw [Finset.mem_insert, Finset.mem_erase, h x]
  constructor
  · rintro (rfl | ⟨hne, i, hi, hx⟩)
    · exact ⟨new, .inl rfl, List.getElem?_eq_getElem hnew⟩
    · refine ⟨i, .inr ⟨hi, ?_⟩, hx⟩
      rintro rfl
      exact hne (Option.some.inj (hx.symm.trans (List.getElem?_eq_getElem hold)))
  · rintro ⟨i, rfl | ⟨hi, hne⟩, hx⟩
    · exact .inl (Option.some.inj (hx.symm.trans (List.getElem?_eq_getElem hnew)))
    · refine .inr ⟨?_, i, hi, hx⟩
      rintro rfl
      obtain ⟨hlt, hget⟩ := List.getElem?_eq_some_iff.mp hx
      exact hne ((hnodup.getElem_inj_iff).mp hget)

theorem Pictures.insertAll (h : Pictures totalset I s) {l : List ℕ} (hl : ∀ i ∈ l, i < totalset.length) :
    ∃ s', insertAll totalset l s = some s' ∧ Pictures totalset (fun i => I i ∨ i ∈ l) s' := by
  induction l generalizing I s with
  | nil => exact ⟨s, rfl, h.congr (by simp)⟩
  | cons c cs ih =>
    have hc := hl c List.mem_cons_self
    have hinsert : Pictures totalset (fun i => I i ∨ i = c) (insert totalset[c] s) := by
      intro x
      rw [Finset.mem_insert, h x]
      constructor
      · rintro (rfl | ⟨i, hi, hx⟩)
        · exact ⟨c, .inr rfl, List.getElem?_eq_getElem hc⟩
        · exact ⟨i, .inl hi, hx⟩
      · rintro ⟨i, hi | rfl, hx⟩
        · exact .inr ⟨i, hi, hx⟩
        · exact .inl (Option.some.inj (hx.symm.trans (List.getElem?_eq_getElem hc)))
    obtain ⟨s', hs', hpictures⟩ := ih hinsert fun i hi => hl i (List.mem_cons_of_mem _ hi)
    refine ⟨s', by rw [Generator.insertAll, List.getElem?_eq_getElem hc]; exact hs', hpictures.congr fun i => ?_⟩
    rw [List.mem_cons, or_assoc]

theorem insertAll_outside {l : List ℕ} {i : ℕ} (hi : i ∈ l) (hout : totalset.length ≤ i) :
    insertAll totalset l s = none := by
  induction l generalizing s with
  | nil => cases hi
  | cons c cs ih =>
    rw [insertAll]
    obtain rfl | hcs := List.mem_cons.mp hi
    · rw [List.getElem?_eq_none hout]
      rfl
    · cases totalset[c]? with
      | none => rfl
      | some e => exact ih hcs

theorem skips_eq {n lo k : ℕ} {l : List ℕ} (hl : Rises n lo l) (hk : k = l.length) :
    skips (n - k) l = (succ n l).isSome := by
  rw [Bool.eq_iff_iff, Option.isSome_iff_ne_none, ne_eq, succ_eq_none_iff hl]
  cases l with
  | nil => simp [skips]
  | cons c cs =>
    obtain ⟨_, hlt, _⟩ := hl
    rw [List.length_cons] at hk
    simp only [skips, bne_iff_ne, ne_eq, List.head?_cons, Option.mem_some_iff, forall_eq', List.length_cons]
    omega

section Carry

variable (minimalindex i : ℕ) {A : ℕ → Prop} {l l' : List ℕ} {lo : ℕ} (hnodup : totalset.Nodup)
include hnodup

-- each number restarts below the number it replaces, so no element is erased that has just been put in
theorem carry_target {t : ℕ} (hl : Rises totalset.length t l) (hA : ∀ i, A i → i < t)
    (hs : Pictures totalset (fun i => A i ∨ i ∈ l) s) :
    ∃ s', carry totalset minimalindex i (some t) l s = some (List.range' t l.length, s') ∧
      Pictures totalset (fun i => A i ∨ i ∈ List.range' t l.length) s' := by
  induction l generalizing i t A s with
  | nil => exact ⟨s, rfl, hs⟩
  | cons c cs ih =>
    obtain ⟨hle, hlt, hcs⟩ := hl
    have hlater : ∀ j ∈ cs, c < j := fun j hj => hcs.le hj
    obtain ⟨s₁, hs₁, hpictures₁⟩ := hs.replace hnodup (show c < _ by omega) (show t < _ by omega)
    obtain ⟨s₂, hs₂, hpictures₂⟩ := ih (i + 1) (t := t + 1) (A := fun i => A i ∨ i = t)
      (hcs.mono (by omega)) (by grind) (hpictures₁.congr fun j => by grind)
    refine ⟨s₂, ?_, hpictures₂.congr (by grind [List.range'_succ])⟩
    rw [carry, hs₁, List.length_cons, List.range'_succ]
    simp only [Option.bind_eq_bind, Option.bind_some, hs₂]

theorem carry_none (hl : Rises totalset.length lo l) (hA : ∀ i, A i → i < lo)
    (hs : Pictures totalset (fun i => A i ∨ i ∈ l) s) (hi : i + l.length = minimalindex + 1)
    (hsucc : succ totalset.length l = some l') :
    ∃ s', carry totalset minimalindex i none l s = some (l', s') ∧
      Pictures totalset (fun i => A i ∨ i ∈ l') s' := by
  induction l generalizing i lo A s l' with
  | nil => cases hsucc
  | cons c cs ih =>
    obtain ⟨hle, hlt, hcs⟩ := hl
    have hlater : ∀ j ∈ cs, c < j := fun j hj => hcs.le hj
    have hlength : i + (cs.length + 1) = minimalindex + 1 := hi
    have hskips : skips (totalset.length - (minimalindex - i)) cs = (succ totalset.length cs).isSome :=
      skips_eq hcs (by omega)
    rw [succ] at hsucc
    simp only [carry, hskips]
    split at hsucc
    case h_1 cs' hcs' =>
      obtain rfl := Option.some.inj hsucc
      obtain ⟨s₁, hs₁, hpictures₁⟩ := ih (i + 1) (A := fun j => A j ∨ j = c) hcs
        (fun j hj => by grind) (hs.congr fun j => by grind) (by omega) hcs'
      refine ⟨s₁, ?_, hpictures₁.congr fun j => by grind⟩
      rw [hcs', Option.isSome_some, if_pos rfl, hs₁]
      rfl
    case h_2 hcs' =>
      split at hsucc
      case isFalse => cases hsucc
      case isTrue hroom =>
        obtain rfl := Option.some.inj hsucc
        obtain ⟨s₁, hs₁, hpictures₁⟩ := hs.replace hnodup (show c < _ by omega) (show c + 1 < _ by omega)
        have hhead : ∀ c' ∈ cs.head?, c + 2 ≤ c' := fun c' hc' => by
          have hmax := (succ_eq_none_iff hcs).mp hcs' c' hc'
          omega
        obtain ⟨s₂, hs₂, hpictures₂⟩ := carry_target minimalindex (i + 1) hnodup (A := fun j => A j ∨ j = c + 1)
          (hcs.raise hhead) (fun j hj => by grind) (hpictures₁.congr fun j => by grind)
        refine ⟨s₂, ?_, hpictures₂.congr fun j => by grind [List.range'_succ]⟩
        rw [hcs', Option.isSome_none, if_neg Bool.false_ne_true, hs₁]
        simp only [Option.bind_eq_bind, Option.bind_some, hs₂, List.range'_succ]

end Carry

end Pictures

section Steps

structure Valid (g : Generator T) : Prop where
  minimalindex : g.minimalindex = g.currIndices.length - 1
  rises : Rises g.totalset.length 0 g.currIndices
  pictures : g.currentsubset = picture g.totalset g.currIndices

variable {g : Generator T}

theorem Valid.toNat_minimalindex (hg : Valid g) {c : ℕ} {cs : List ℕ} (hl : g.currIndices = c :: cs) :
    g.minimalindex.toNat = cs.length := by
  rw [hg.minimalindex, hl, List.length_cons]
  omega

theorem Valid.lastIndex_eq (hg : Valid g) {c : ℕ} {cs : List ℕ} (hl : g.currIndices = c :: cs) :
    g.lastIndex = (c :: cs).getD cs.length 0 := by
  rw [lastIndex, hg.toNat_minimalindex hl, hl]

theorem Valid.atLevelEnd_iff (hg : Valid g) :
    g.atLevelEnd = true ↔ succ g.totalset.length g.currIndices = none := by
  rw [succ_eq_none_iff hg.rises]
  cases hl : g.currIndices with
  | nil => simp [atLevelEnd, hl]
  | cons c cs =>
    have hrises := hl ▸ hg.rises
    obtain ⟨hle, hlt⟩ := hrises.getD_last
    obtain ⟨_, hlength, _⟩ := hrises
    simp only [atLevelEnd, hl, hg.lastIndex_eq hl, hg.toNat_minimalindex hl, Bool.and_eq_true, decide_eq_true_eq,
      List.head?_cons, Option.mem_some_iff, forall_eq', List.length_cons]
    omega

-- what nextSubset keeps
structure Follows (g g' : Generator T) : Prop where
  valid : Valid g'
  totalset : g'.totalset = g.totalset
  maxsubsetsize : g'.maxsubsetsize = g.maxsubsetsize

variable (hnodup : g.totalset.Nodup) (hg : Valid g)
include hnodup hg

theorem nextSubset_level {l' : List ℕ} (hsucc : succ g.totalset.length g.currIndices = some l') :
    g.hasNextSubset = true ∧ ∃ g', g.nextSubset = some g' ∧ Follows g g' ∧ g'.currIndices = l' := by
  have hlevel : g.atLevelEnd = false := by
    rw [← Bool.not_eq_true, hg.atLevelEnd_iff, hsucc]
    exact nofun
  have hnext : g.hasNextSubset = true := by rw [hasNextSubset, hlevel]; rfl
  have hpictures : Pictures g.totalset (fun i => False ∨ i ∈ g.currIndices) g.currentsubset := by
    rw [hg.pictures]
    exact (pictures_picture g.currIndices).congr (by simp)
  have hfollows {s : Finset T} (hs : Pictures g.totalset (· ∈ l') s) :
      Follows g { g with currIndices := l', currentsubset := s } :=
    ⟨⟨by rw [hg.minimalindex, length_succ hsucc], hg.rises.succ hsucc, hs.eq_picture⟩, rfl, rfl⟩
  refine ⟨hnext, ?_⟩
  cases hl : g.currIndices with
  | nil =>
    rw [hl] at hsucc
    cases hsucc
  | cons c cs =>
    rw [hl] at hsucc hpictures
    have hrises := hl ▸ hg.rises
    obtain ⟨hle, hlt⟩ := hrises.getD_last
    by_cases hroom : g.lastIndex < g.totalset.length - 1
    · rw [hg.lastIndex_eq hl] at hroom
      obtain ⟨s, hs, hpictures'⟩ := hpictures.replace hnodup hlt 
        (show (c :: cs).getD cs.length 0 + 1 < _ by omega)
      rw [succ_of_last_lt (by omega)] at hsucc
      obtain rfl := Option.some.inj hsucc
      refine ⟨_, ?_, hfollows (hpictures'.congr ?_), rfl⟩
      · rw [nextSubset, hnext, hlevel, hg.lastIndex_eq hl, hg.toNat_minimalindex hl, if_pos hroom, hs, hl]
        rfl
      · intro i
        rw [mem_set_last hrises, false_or]
    · obtain ⟨s, hs, hpictures'⟩ := carry_none g.minimalindex.toNat 0 hnodup hrises nofun hpictures
        (by rw [hg.toNat_minimalindex hl, List.length_cons]; omega) hsucc
      refine ⟨_, ?_, hfollows (hpictures'.congr (by simp)), rfl⟩
      rw [nextSubset, hnext, hlevel, if_neg hroom, hl, hs]
      rfl

omit hnodup in
theorem nextSubset_first (hend : g.atLevelEnd = true) (hroom : g.currIndices.length < g.totalset.length)
    (hmax : g.currIndices.length ≤ g.maxsubsetsize) :
    ∃ g', g.nextSubset = some g' ∧ Follows g g' ∧ g'.currIndices = List.range (g.currIndices.length + 1) := by
  have hempty : Pictures g.totalset (fun _ => False) ∅ := by
    intro x
    simp
  obtain ⟨s, hs, hpictures⟩ := hempty.insertAll (l := List.range (g.currIndices.length + 1)) fun i hi => by
    have := List.mem_range.mp hi
    omega
  refine ⟨⟨g.totalset, g.maxsubsetsize, List.range (g.currIndices.length + 1), g.minimalindex + 1, s⟩, ?_,
    ⟨⟨?_, ?_, (hpictures.congr fun i => by rw [false_or]).eq_picture⟩, rfl, rfl⟩, rfl⟩
  · have hnext : g.hasNextSubset = true := by rw [hasNextSubset, hend, decide_eq_true hmax]; rfl
    simp only [nextSubset, hnext, hend, Bool.not_true, Bool.false_eq_true, ↓reduceIte, hs]
    rfl
  · have hminimal := hg.minimalindex
    simp only [List.length_range]
    omega
  · rw [List.range_eq_range']
    exact rises_range' (show 0 + (g.currIndices.length + 1) ≤ g.totalset.length by omega)

omit hnodup hg in
theorem nextSubset_outside (hend : g.atLevelEnd = true) (hfull : g.currIndices.length = g.totalset.length) :
    g.nextSubset = none := by
  rw [nextSubset]
  split
  · rfl
  · simp only [insertAll_outside (List.mem_range.mpr g.currIndices.length.lt_succ_self) hfull.ge]
    rfl

end Steps

section Runs

-- a run that ends, with the subsets it reads
inductive Reads : Generator T → List (Finset T) → Prop
  | stop (g : Generator T) (hlast : g.hasNextSubset = false) : Reads g [g.currentsubset]
  | next (g g' : Generator T) (L : List (Finset T)) (hnext : g.hasNextSubset = true)
      (hstep : g.nextSubset = some g') (hrest : Reads g' L) : Reads g (g.currentsubset :: L)

variable {g g' : Generator T} {M : List (Finset T)}

theorem reads_iff : Reads g M ↔ ∃ fuel, reads fuel g = some M := by
  constructor
  · intro h
    induction h with
    | stop g hlast => exact ⟨1, by rw [reads, hlast]; rfl⟩
    | next g g' L hnext hstep hrest ih =>
      obtain ⟨fuel, hfuel⟩ := ih
      exact ⟨fuel + 1, by rw [reads, hnext, hstep]; simp [hfuel]⟩
  · rintro ⟨fuel, hfuel⟩
    induction fuel generalizing g M with
    | zero => cases hfuel
    | succ fuel ih =>
      rw [reads] at hfuel
      split at hfuel
      case isTrue hnext =>
        obtain ⟨g', hstep, hrest⟩ := Option.bind_eq_some_iff.mp hfuel
        obtain ⟨L, hL, hM⟩ := Option.bind_eq_some_iff.mp hrest
        obtain rfl := Option.some.inj hM
        exact .next _ _ _ hnext hstep (ih hL)
      case isFalse hlast =>
        obtain rfl := Option.some.inj hfuel
        exact .stop _ (eq_false_of_ne_true hlast)

theorem reads_of_last (hlast : g.hasNextSubset = false) : Reads g M ↔ M = [g.currentsubset] := by
  constructor
  · rintro (_ | ⟨_, _, _, hnext⟩)
    · rfl
    · rw [hlast] at hnext
      cases hnext
  · rintro rfl
    exact .stop _ hlast

theorem reads_of_step (hnext : g.hasNextSubset = true) (hstep : g.nextSubset = some g') :
    Reads g M ↔ ∃ L, Reads g' L ∧ M = g.currentsubset :: L := by
  constructor
  · rintro (⟨_, hlast⟩ | ⟨_, _, L, _, hstep', hrest⟩)
    · rw [hnext] at hlast
      cases hlast
    · obtain rfl := Option.some.inj (hstep.symm.trans hstep')
      exact ⟨L, hrest, rfl⟩
  · rintro ⟨L, hrest, rfl⟩
    exact .next _ _ _ hnext hstep hrest

theorem not_reads_of_stuck (hnext : g.hasNextSubset = true) (hstep : g.nextSubset = none) : ¬ Reads g M := by
  rintro (⟨_, hlast⟩ | ⟨_, _, L, _, hstep', _⟩)
  · rw [hnext] at hlast
    cases hlast
  · rw [hstep] at hstep'
    cases hstep'

theorem reads_level {x : List ℕ} {L : List (List ℕ)} (hwalk : Walk (succ g.totalset.length) x L)
    (hnodup : g.totalset.Nodup) (hg : Valid g) (hx : g.currIndices = x) :
    ∃ gEnd, Follows g gEnd ∧ gEnd.atLevelEnd = true ∧ gEnd.currIndices.length = x.length ∧
      ∀ M, Reads g M ↔ ∃ M', Reads gEnd (gEnd.currentsubset :: M') ∧ M = L.map (picture g.totalset) ++ M' := by
  generalize hn : g.totalset.length = n at hwalk
  induction hwalk generalizing g with
  | last x hlast =>
    subst hx
    refine ⟨g, ⟨hg, rfl, rfl⟩, hg.atLevelEnd_iff.mpr (hn ▸ hlast), rfl, fun M => ?_⟩
    rw [List.map_singleton, ← hg.pictures]
    constructor
    · intro h
      cases h with
      | stop _ hstop => exact ⟨[], .stop _ hstop, rfl⟩
      | next _ g' L hnext hstep hrest => exact ⟨L, .next _ _ _ hnext hstep hrest, rfl⟩
    · rintro ⟨M', h, rfl⟩
      exact h
  | next x y L hstep hwalk ih =>
    subst hx
    obtain ⟨hnext, g', hg', hfollows, hy⟩ := nextSubset_level hnodup hg (hn ▸ hstep)
    obtain ⟨gEnd, hend, hlevel, hlength, hreads⟩ := ih (hfollows.totalset ▸ hnodup) hfollows.valid hy
      (by rw [hfollows.totalset, hn])
    refine ⟨gEnd, ⟨hend.valid, hend.totalset.trans hfollows.totalset, hend.maxsubsetsize.trans hfollows.maxsubsetsize⟩,
      hlevel, hlength.trans (length_succ hstep), fun M => ?_⟩
    rw [reads_of_step hnext hg', List.map_cons, ← hg.pictures]
    simp only [hreads, hfollows.totalset, List.cons_append]
    constructor
    · rintro ⟨_, ⟨M', h, rfl⟩, rfl⟩
      exact ⟨M', h, rfl⟩
    · rintro ⟨M', h, rfl⟩
      exact ⟨_, ⟨M', h, rfl⟩, rfl⟩

def level (totalset : List T) (k : ℕ) : List (Finset T) :=
  (combinations 0 totalset.length k).map (picture totalset)

theorem reads_last_level {gEnd : Generator T} {k : ℕ} (hend : Follows g gEnd) (hlevel : gEnd.atLevelEnd = true)
    (hlength : gEnd.currIndices.length = k) (hn : k ≤ g.totalset.length) (hk : k = g.maxsubsetsize + 1) :
    (∃ M', Reads gEnd (gEnd.currentsubset :: M') ∧ M = level g.totalset k ++ M') ↔
      g.maxsubsetsize < g.totalset.length ∧
        M = (List.range' k (g.maxsubsetsize + 2 - k)).flatMap (level g.totalset) := by
  have hlast : gEnd.hasNextSubset = false := by
    rw [hasNextSubset, hlevel, hlength, hend.maxsubsetsize, decide_eq_false (by omega)]
    rfl
  simp only [reads_of_last hlast, List.cons.injEq, true_and, exists_eq_left, List.append_nil]
  rw [show g.maxsubsetsize + 2 - k = 1 by omega]
  simp only [List.range'_one, List.flatMap_cons, List.flatMap_nil, List.append_nil]
  exact (and_iff_right (by omega)).symm

theorem reads_from {k : ℕ} (hnodup : g.totalset.Nodup) (hg : Valid g) (hk : g.currIndices = List.range' 0 k)
    (hn : k ≤ g.totalset.length) (hmax : k ≤ g.maxsubsetsize + 1) :
    Reads g M ↔ g.maxsubsetsize < g.totalset.length ∧
      M = (List.range' k (g.maxsubsetsize + 2 - k)).flatMap (level g.totalset) := by
  induction hd : g.totalset.length - k generalizing g k M with
  | zero =>
    obtain ⟨gEnd, hend, hlevel, hlength, hreads⟩ := reads_level (walk_combinations hn (Nat.zero_add _)) hnodup hg hk
    rw [List.length_range'] at hlength
    rw [hreads]
    by_cases hmore : k ≤ g.maxsubsetsize
    · have hnext : gEnd.hasNextSubset = true := by
        rw [hasNextSubset, hlevel, hlength, hend.maxsubsetsize, decide_eq_true hmore]
        rfl
      have hstuck : gEnd.nextSubset = none := nextSubset_outside hlevel (by rw [hlength, hend.totalset]; omega)
      refine iff_of_false ?_ fun h => by omega
      rintro ⟨M', h, _⟩
      exact not_reads_of_stuck hnext hstuck h
    · exact reads_last_level hend hlevel hlength hn (by omega)
  | succ d ih =>
    obtain ⟨gEnd, hend, hlevel, hlength, hreads⟩ := reads_level (walk_combinations hn (Nat.zero_add _)) hnodup hg hk
    rw [List.length_range'] at hlength
    by_cases hmore : k ≤ g.maxsubsetsize
    · have hnext : gEnd.hasNextSubset = true := by
        rw [hasNextSubset, hlevel, hlength, hend.maxsubsetsize, decide_eq_true hmore]
        rfl
      obtain ⟨g', hg', hfollows, hfirst⟩ := nextSubset_first hend.valid hlevel
        (by rw [hlength, hend.totalset]; omega) (by rw [hlength, hend.maxsubsetsize]; exact hmore)
      have htotal := hfollows.totalset.trans hend.totalset
      have hmaxsize := hfollows.maxsubsetsize.trans hend.maxsubsetsize
      rw [hlength, List.range_eq_range'] at hfirst
      have hrest (L : List (Finset T)) := ih (M := L) (k := k + 1) (htotal ▸ hnodup) hfollows.valid hfirst
        (by rw [htotal]; omega) (by rw [hmaxsize]; omega) (by rw [htotal]; omega)
      simp only [htotal, hmaxsize] at hrest
      have hrange : List.range' k (g.maxsubsetsize + 2 - k) =
          k :: List.range' (k + 1) (g.maxsubsetsize + 2 - (k + 1)) := by
        rw [← List.range'_succ]
        congr 1
        omega
      rw [hreads, hrange, List.flatMap_cons]
      simp only [reads_of_step hnext hg', hrest, List.cons.injEq, true_and]
      constructor
      · rintro ⟨M', ⟨_, ⟨hlt, rfl⟩, rfl⟩, rfl⟩
        exact ⟨hlt, rfl⟩
      · rintro ⟨hlt, rfl⟩
        exact ⟨_, ⟨_, ⟨hlt, rfl⟩, rfl⟩, rfl⟩
    · rw [hreads]
      exact reads_last_level hend hlevel hlength hn (by omega)

theorem reads_create {totalset : List T} (hnodup : totalset.Nodup) (m : ℤ) :
    Reads (create totalset m) M ↔ (create totalset m).maxsubsetsize < totalset.length ∧
      M = (List.range ((create totalset m).maxsubsetsize + 2)).flatMap (level totalset) := by
  have hvalid : Valid (create totalset m) := ⟨rfl, trivial, rfl⟩
  rw [reads_from (k := 0) hnodup hvalid rfl totalset.length.zero_le (Nat.zero_le _), List.range_eq_range']
  rfl

section Levels

variable {totalset : List T} (hnodup : totalset.Nodup) {k : ℕ} {l l' : List ℕ}

include hnodup

theorem card_picture (hl : l.Sublist (List.range totalset.length)) : (picture totalset l).card = l.length := by
  rw [picture, List.toFinset_card_of_nodup, List.filterMap_length_eq_length]
  · intro i hi
    rw [List.getElem?_eq_getElem (List.mem_range.mp (hl.subset hi))]
    rfl
  · refine List.Nodup.filterMap (fun i i' x hi hi' => ?_) (hl.nodup List.nodup_range)
    obtain ⟨hlt, hx⟩ := List.getElem?_eq_some_iff.mp hi
    obtain ⟨hlt', hx'⟩ := List.getElem?_eq_some_iff.mp hi'
    exact hnodup.getElem_inj_iff.mp (hx.trans hx'.symm)

theorem mem_of_picture (h : picture totalset l = picture totalset l')
    (hl : l.Sublist (List.range totalset.length)) {i : ℕ} (hi : i ∈ l) : i ∈ l' := by
  have hlt := List.mem_range.mp (hl.subset hi)
  have hx := (pictures_picture l totalset[i]).mpr ⟨i, hi, List.getElem?_eq_getElem hlt⟩
  rw [h, pictures_picture l'] at hx
  obtain ⟨j, hj, hget⟩ := hx
  obtain ⟨hlt', hx'⟩ := List.getElem?_eq_some_iff.mp hget
  rwa [← hnodup.getElem_inj_iff.mp hx']

theorem picture_injective (hl : l.Sublist (List.range totalset.length))
    (hl' : l'.Sublist (List.range totalset.length)) (h : picture totalset l = picture totalset l') : l = l' := by
  have hsorted : (List.range totalset.length).Pairwise (· < ·) := List.pairwise_lt_range
  refine List.Perm.eq_of_pairwise (fun a b _ _ hab hba => absurd hab hba.asymm) (hsorted.sublist hl)
    (hsorted.sublist hl') ?_
  rw [List.perm_ext_iff_of_nodup (hl.nodup List.nodup_range) (hl'.nodup List.nodup_range)]
  exact fun i => ⟨mem_of_picture hnodup h hl, mem_of_picture hnodup h.symm hl'⟩

theorem mem_level {s : Finset T} : s ∈ level totalset k ↔ s ⊆ totalset.toFinset ∧ s.card = k := by
  rw [level, List.mem_map]
  constructor
  · rintro ⟨l, hl, rfl⟩
    obtain ⟨hsub, hlength⟩ := mem_combinations.mp hl
    refine ⟨fun x hx => ?_, by rw [card_picture hnodup hsub, hlength]⟩
    obtain ⟨i, _, hget⟩ := (pictures_picture l x).mp hx
    exact List.mem_toFinset.mpr (List.mem_of_getElem? hget)
  · rintro ⟨hsub, hcard⟩
    have hl := List.filter_sublist (l := List.range totalset.length) (p := fun i => totalset[i]?.any (· ∈ s))
    have hpicture : picture totalset ((List.range totalset.length).filter fun i => totalset[i]?.any (· ∈ s)) = s := by
      ext x
      rw [pictures_picture]
      constructor
      · rintro ⟨i, hi, hget⟩
        simpa [hget] using (List.mem_filter.mp hi).2
      · intro hx
        obtain ⟨i, hlt, rfl⟩ := List.getElem_of_mem (List.mem_toFinset.mp (hsub hx))
        have hget := List.getElem?_eq_getElem hlt
        exact ⟨i, List.mem_filter.mpr ⟨List.mem_range.mpr hlt, by rw [hget]; simpa using hx⟩, hget⟩
    exact ⟨_, mem_combinations.mpr ⟨hl, by rw [← card_picture hnodup hl, hpicture, hcard]⟩, hpicture⟩

theorem nodup_level : (level totalset k).Nodup := by
  refine List.Nodup.map_on (fun l hl l' hl' h => ?_) ?_
  · exact picture_injective hnodup (mem_combinations.mp hl).1 (mem_combinations.mp hl').1 h
  · rw [combinations_eq_reverse, List.nodup_reverse]
    exact List.nodup_sublistsLen _ (List.range_eq_range' ▸ List.nodup_range)

end Levels

-- every subset with at most k elements is read once, the smaller ones first, and then there is no next one
def Enumerates (totalset : List T) (m : ℤ) (k : ℕ) : Prop :=
  ∃ fuel L, reads fuel (create totalset m) = some L ∧ L.Nodup ∧
    (∀ s, s ∈ L ↔ s ⊆ totalset.toFinset ∧ s.card ≤ k) ∧ L.Pairwise fun s t => s.card ≤ t.card

variable {totalset : List T} {m : ℤ}

theorem mem_levels (hnodup : totalset.Nodup) {k : ℕ} {s : Finset T} :
    s ∈ (List.range k).flatMap (level totalset) ↔ s ⊆ totalset.toFinset ∧ s.card < k := by
  simp only [List.mem_flatMap, List.mem_range, mem_level hnodup]
  constructor
  · rintro ⟨i, hi, hsub, rfl⟩
    exact ⟨hsub, hi⟩
  · rintro ⟨hsub, hlt⟩
    exact ⟨_, hlt, hsub, rfl⟩

theorem enumerates_one_more (hnodup : totalset.Nodup)
    (hm : (create totalset m).maxsubsetsize < totalset.length) :
    Enumerates totalset m ((create totalset m).maxsubsetsize + 1) := by
  obtain ⟨fuel, hfuel⟩ := reads_iff.mp ((reads_create hnodup m).mpr ⟨hm, rfl⟩)
  refine ⟨fuel, _, hfuel, ?_, fun s => ?_, ?_⟩
  · rw [List.nodup_flatMap]
    refine ⟨fun k _ => nodup_level hnodup, List.pairwise_lt_range.imp fun {i j} hlt s hi hj => ?_⟩
    exact hlt.ne (((mem_level hnodup).mp hi).2.symm.trans ((mem_level hnodup).mp hj).2)
  · rw [mem_levels hnodup, Nat.lt_succ_iff]
  · rw [List.pairwise_flatMap]
    refine ⟨fun k _ => (nodup_level hnodup).imp_of_mem ?_, ?_⟩
    · intro s t hs ht _
      rw [((mem_level hnodup).mp hs).2, ((mem_level hnodup).mp ht).2]
    · refine List.pairwise_lt_range.imp fun {i j} hlt s hs t ht => ?_
      rw [((mem_level hnodup).mp hs).2, ((mem_level hnodup).mp ht).2]
      exact hlt.le

-- the subsets of [0, 1, 2] with at most one element more than the maximum 1
theorem enumerates_one_more_pairs : Enumerates [0, 1, 2] 1 2 := enumerates_one_more (by decide) (by decide)

theorem not_enumerates_maximum (hnodup : totalset.Nodup) (m : ℤ) :
    ¬ Enumerates totalset m (create totalset m).maxsubsetsize := by
  rintro ⟨fuel, L, hreads, _, hmem, _⟩
  obtain ⟨hlt, rfl⟩ := (reads_create hnodup m).mp (reads_iff.mpr ⟨fuel, hreads⟩)
  obtain ⟨s, hsub, hcard⟩ := Finset.exists_subset_card_eq
    (show (create totalset m).maxsubsetsize + 1 ≤ totalset.toFinset.card by
      rw [List.toFinset_card_of_nodup hnodup]; exact hlt)
  have hle := ((hmem s).mp ((mem_levels hnodup).mpr ⟨hsub, by omega⟩)).2
  omega

theorem not_enumerates_maximum_one : ¬ Enumerates [0, 1] 1 1 := not_enumerates_maximum (by decide) 1

-- with at most one element, and two are read together
theorem reads_pair : reads 5 (create [0, 1] 1) = some [∅, {0}, {1}, {0, 1}] ∧
    ¬ ({0, 1} : Finset ℕ).card ≤ (create [0, 1] 1).maxsubsetsize := by decide

end Runs

end Generator

end SubsetGenerator
