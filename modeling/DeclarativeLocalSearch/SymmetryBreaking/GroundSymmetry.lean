import DeclarativeLocalSearch.SymmetryBreaking.UsefulAtoms

namespace SymmetryBreaking

open Function

variable {Q E : Type} {s : Symmetry Q E}

-- the element that takes the place of one
def Symmetry.moves (s : Symmetry Q E) (e : E) : E := (s.image e).getD e

section Transform

variable {tuple : List E} {positions : List ℕ} {changed : Bool} {i : ℕ}

theorem transform_step {result : List E × Bool} (h : result = match tuple[i]? >>= s.image with
      | some e => (tuple.set i e, true)
      | none => (tuple, changed)) :
    (∀ j, result.1[j]? = if j = i then tuple[j]?.map s.moves else tuple[j]?) ∧
      (result.2 = true ↔ changed = true ∨ ∃ e, tuple[i]? = some e ∧ (s.image e).isSome) := by
  subst h
  cases hget : tuple[i]? with
  | none =>
    refine ⟨fun j => ?_, by simp⟩
    by_cases hj : j = i
    · simp [hj, hget]
    · simp [hj]
  | some e =>
    cases himage : s.image e with
    | none =>
      refine ⟨fun j => ?_, by simp [himage]⟩
      by_cases hj : j = i
      · simp [hj, hget, himage, Symmetry.moves]
      · simp [hj, himage]
    | some e' =>
      refine ⟨fun j => ?_, by simp [himage]⟩
      have hlt := (List.getElem?_eq_some_iff.mp hget).1
      by_cases hj : j = i
      · subst hj
        have hset : (tuple.set j e')[j]? = some e' := List.getElem?_set_self hlt
        simp only [Option.bind_eq_bind, Option.bind_some, himage, hset, if_pos, hget, Option.map_some, Symmetry.moves,
          Option.getD_some]
      · simp [hj, himage, List.getElem?_set_ne (Ne.symm hj)]

theorem transformToSymmetric_get (hnodup : positions.Nodup) :
    (∀ j, (s.transformToSymmetric tuple positions).1[j]? =
        if j ∈ positions then tuple[j]?.map s.moves else tuple[j]?) ∧
      ((s.transformToSymmetric tuple positions).2 = true ↔
        ∃ i ∈ positions, ∃ e, tuple[i]? = some e ∧ (s.image e).isSome) := by
  suffices hfold : ∀ start : List E × Bool,
      let result := positions.foldl (fun (t : List E × Bool) i => match t.1[i]? >>= s.image with
        | some e => (t.1.set i e, true)
        | none => (t.1, t.2)) start
      (∀ j, result.1[j]? = if j ∈ positions then start.1[j]?.map s.moves else start.1[j]?) ∧
        (result.2 = true ↔ start.2 = true ∨ ∃ i ∈ positions, ∃ e, start.1[i]? = some e ∧ (s.image e).isSome) by
    obtain ⟨hget, hchanged⟩ := hfold (tuple, false)
    exact ⟨hget, hchanged.trans (by simp)⟩
  induction positions with
  | nil => exact fun start => ⟨fun j => by simp, by simp⟩
  | cons i positions ih =>
    obtain ⟨hi, hnodup⟩ := List.nodup_cons.mp hnodup
    intro start
    obtain ⟨hstep, hchange⟩ := @transform_step _ _ s start.1 start.2 i _ rfl
    obtain ⟨hget, hchanged⟩ := ih hnodup (match start.1[i]? >>= s.image with
      | some e => (start.1.set i e, true)
      | none => (start.1, start.2))
    have hlater : ∀ j ∈ positions, j ≠ i := fun j hj heq => hi (heq ▸ hj)
    refine ⟨fun j => (hget j).trans ?_, hchanged.trans ?_⟩
    · rw [hstep]
      by_cases hj : j = i
      · subst hj
        simp [hi]
      · simp [hj]
    · rw [hchange, or_assoc]
      simp only [List.mem_cons, or_and_right, exists_or, exists_eq_left]
      refine or_congr_right (or_congr_right (exists_congr fun j => and_congr_right fun hj => ?_))
      rw [hstep, if_neg (hlater j hj)]

end Transform

section Ground

variable {struc : Q → SymbolInterpretation E} {translateReduced : Q → List E → ℕ}

-- the unknown tuples of a symbol that are moved
def Symmetry.moved (s : Symmetry Q E) (struc : Q → SymbolInterpretation E) (symbarg : Q × List ℕ) : List (List E) :=
  if (struc symbarg.1).approxTwoValued then []
  else (struc symbarg.1).pt.filter fun eltup =>
    (struc symbarg.1).isUnknown eltup && (s.transformToSymmetric eltup symbarg.2).2

def Symmetry.pairs (s : Symmetry Q E) (struc : Q → SymbolInterpretation E) (translateReduced : Q → List E → ℕ)
    (symbarg : Q × List ℕ) : List (ℕ × ℕ) :=
  (s.moved struc symbarg).map fun eltup =>
    (translateReduced symbarg.1 eltup, translateReduced symbarg.1 (s.transformToSymmetric eltup symbarg.2).1)

def record (ground : (ℕ → ℕ) × List ℕ) (pairs : List (ℕ × ℕ)) : (ℕ → ℕ) × List ℕ :=
  (pairs.foldl (fun groundSym p => update groundSym p.1 p.2) ground.1, ground.2 ++ pairs.map Prod.fst)

theorem record_append {ground : (ℕ → ℕ) × List ℕ} {pairs pairs' : List (ℕ × ℕ)} :
    record (record ground pairs) pairs' = record ground (pairs ++ pairs') := by
  simp [record]

theorem getGroundSymmetry_eq : s.getGroundSymmetry struc translateReduced =
    record (fun _ => 0, []) (s.argpositions.flatMap (s.pairs struc translateReduced)) := by
  rw [Symmetry.getGroundSymmetry]
  generalize ((fun _ => 0, []) : (ℕ → ℕ) × List ℕ) = ground
  induction s.argpositions generalizing ground with
  | nil => simp [record]
  | cons symbarg argpositions ih =>
    rw [List.foldl_cons, ih, List.flatMap_cons, ← record_append]
    congr 1
    dsimp only
    by_cases htwo : (struc symbarg.1).approxTwoValued = true
    · rw [if_pos htwo, Symmetry.pairs, Symmetry.moved, if_pos htwo]
      simp [record]
    · rw [if_neg htwo, Symmetry.pairs, Symmetry.moved, if_neg htwo]
      induction (struc symbarg.1).pt generalizing ground with
      | nil => simp [record]
      | cons eltup pt ih' =>
        rw [List.foldl_cons, ih']
        cases hunknown : (struc symbarg.1).isUnknown eltup <;>
          cases hchanged : (s.transformToSymmetric eltup symbarg.2).2 <;> simp [record, hunknown, hchanged]

theorem foldl_update {pairs : List (ℕ × ℕ)} (h : ∀ p ∈ pairs, ∀ p' ∈ pairs, p.1 = p'.1 → p.2 = p'.2) {f : ℕ → ℕ}
    {p : ℕ × ℕ} (hp : p ∈ pairs) : pairs.foldl (fun groundSym p => update groundSym p.1 p.2) f p.1 = p.2 := by
  induction pairs using List.reverseRecOn with
  | nil => exact absurd hp List.not_mem_nil
  | append_singleton pairs p' ih =>
    rw [List.foldl_append, List.foldl_cons, List.foldl_nil]
    by_cases heq : p.1 = p'.1
    · rw [heq, update_self]
      exact (h p hp p' (by simp) heq).symm
    · rw [update_of_ne heq]
      refine ih (fun q hq q' hq' => h q (List.mem_append_left _ hq) q' (List.mem_append_left _ hq')) ?_
      exact (List.mem_append.mp hp).resolve_right fun hp' => heq (congrArg Prod.fst (List.mem_singleton.mp hp'))

-- the symmetry exchanges elements, and the unknown tuples are exchanged by it
structure IsSymmetry (s : Symmetry Q E) (struc : Q → SymbolInterpretation E) (translateReduced : Q → List E → ℕ) :
    Prop where
  symbols : (s.argpositions.map Prod.fst).Nodup
  positions : ∀ symbarg ∈ s.argpositions, symbarg.2.Nodup
  numbers : ∀ q, ∀ t ∈ (struc q).pt, ∀ q', ∀ t' ∈ (struc q').pt,
    translateReduced q t = translateReduced q' t' → q = q' ∧ t = t'
  keys : ∀ e e', s.image e = some e' → (s.image e').isSome
  injective : ∀ e₁ e₂ e', s.image e₁ = some e' → s.image e₂ = some e' → e₁ = e₂
  tables : ∀ q, (struc q).pt.Nodup
  unknown : ∀ q t, (struc q).isUnknown t = true → t ∈ (struc q).pt
  symmetric : ∀ symbarg ∈ s.argpositions, ∀ t, (struc symbarg.1).isUnknown t = true →
    (struc symbarg.1).isUnknown (s.transformToSymmetric t symbarg.2).1 = true

theorem mem_pt_of_moved {symbarg : Q × List ℕ} {t : List E} (h : t ∈ s.moved struc symbarg) :
    t ∈ (struc symbarg.1).pt := by
  unfold Symmetry.moved at h
  split_ifs at h
  · exact absurd h List.not_mem_nil
  · exact (List.mem_filter.mp h).1

section Exchange

variable (h : IsSymmetry s struc translateReduced)

include h

theorem moves_injective : Injective s.moves := by
  have hno : ∀ {e e' : E}, s.image e = none → s.image e' ≠ some e := by
    intro e e' he he'
    have hkey := h.keys e' e he'
    rw [he] at hkey
    exact absurd hkey nofun
  intro e e' heq
  unfold Symmetry.moves at heq
  cases he : s.image e with
  | none =>
    cases he' : s.image e' with
    | none => simpa [he, he'] using heq
    | some d =>
      simp only [he, he', Option.getD_none, Option.getD_some] at heq
      exact absurd (heq ▸ he') (hno he)
  | some d =>
    cases he' : s.image e' with
    | none =>
      simp only [he, he', Option.getD_none, Option.getD_some] at heq
      exact absurd (heq ▸ he) (hno he')
    | some d' =>
      simp only [he, he', Option.getD_some] at heq
      exact h.injective e e' d he (heq ▸ he')

theorem transformToSymmetric_injective {symbarg : Q × List ℕ} (hmem : symbarg ∈ s.argpositions) {t t' : List E}
    (heq : (s.transformToSymmetric t symbarg.2).1 = (s.transformToSymmetric t' symbarg.2).1) : t = t' := by
  refine List.ext_getElem? fun i => ?_
  have hget := congrArg (·[i]?) heq
  have hnodup := h.positions symbarg hmem
  rw [(transformToSymmetric_get hnodup).1, (transformToSymmetric_get hnodup).1] at hget
  by_cases hi : i ∈ symbarg.2
  · rw [if_pos hi, if_pos hi] at hget
    exact Option.map_injective (moves_injective h) hget
  · rwa [if_neg hi, if_neg hi] at hget

theorem transformToSymmetric_moved {symbarg : Q × List ℕ} (hmem : symbarg ∈ s.argpositions) {t : List E}
    (ht : t ∈ s.moved struc symbarg) : (s.transformToSymmetric t symbarg.2).1 ∈ s.moved struc symbarg := by
  unfold Symmetry.moved at ht ⊢
  split_ifs at ht ⊢ with htwo
  · exact absurd ht List.not_mem_nil
  · obtain ⟨-, hfilter⟩ := List.mem_filter.mp ht
    obtain ⟨hunknown, hchanged⟩ := Bool.and_eq_true .. ▸ hfilter
    have hunknown' := h.symmetric symbarg hmem t hunknown
    have hnodup := h.positions symbarg hmem
    obtain ⟨i, hi, e, he, hkey⟩ := (transformToSymmetric_get hnodup).2.mp hchanged
    obtain ⟨e', he'⟩ := Option.isSome_iff_exists.mp hkey
    refine List.mem_filter.mpr ⟨h.unknown _ _ hunknown', ?_⟩
    rw [Bool.and_eq_true, (transformToSymmetric_get hnodup).2]
    refine ⟨hunknown', i, hi, e', ?_, h.keys e e' he'⟩
    rw [(transformToSymmetric_get hnodup).1, if_pos hi, he, Option.map_some, Symmetry.moves, he', Option.getD_some]

end Exchange

theorem mem_pairs {p : ℕ × ℕ} : p ∈ s.argpositions.flatMap (s.pairs struc translateReduced) ↔
    ∃ symbarg ∈ s.argpositions, ∃ t ∈ s.moved struc symbarg,
      p = (translateReduced symbarg.1 t, translateReduced symbarg.1 (s.transformToSymmetric t symbarg.2).1) := by
  simp only [List.mem_flatMap, Symmetry.pairs, List.mem_map, eq_comm]

-- the atoms that a symmetry moves are permuted
theorem getGroundSymmetry_permutes (h : IsSymmetry s struc translateReduced) :
    Permutes (s.getGroundSymmetry struc translateReduced).1 (s.getGroundSymmetry struc translateReduced).2 := by
  have hsame : ∀ {q q' : Q × List ℕ}, q ∈ s.argpositions → q' ∈ s.argpositions → q.1 = q'.1 → q = q' :=
    fun hq hq' heq => List.inj_on_of_nodup_map h.symbols hq hq' heq
  have hfunctional : ∀ p ∈ s.argpositions.flatMap (s.pairs struc translateReduced),
      ∀ p' ∈ s.argpositions.flatMap (s.pairs struc translateReduced), p.1 = p'.1 ↔ p.2 = p'.2 := by
    intro p hp p' hp'
    obtain ⟨q, hq, t, ht, rfl⟩ := mem_pairs.mp hp
    obtain ⟨q', hq', t', ht', rfl⟩ := mem_pairs.mp hp'
    constructor
    · intro heq
      obtain ⟨hsymbol, rfl⟩ := h.numbers _ _ (mem_pt_of_moved ht) _ _ (mem_pt_of_moved ht') heq
      rw [hsame hq hq' hsymbol]
    · intro heq
      obtain ⟨hsymbol, htuple⟩ := h.numbers _ _ (mem_pt_of_moved (transformToSymmetric_moved h hq ht)) _ _
        (mem_pt_of_moved (transformToSymmetric_moved h hq' ht')) heq
      obtain rfl := hsame hq hq' hsymbol
      rw [transformToSymmetric_injective h hq htuple]
  have hvalue : ∀ p ∈ s.argpositions.flatMap (s.pairs struc translateReduced),
      (s.getGroundSymmetry struc translateReduced).1 p.1 = p.2 := by
    rw [getGroundSymmetry_eq]
    exact fun p hp => foldl_update (fun p hp p' hp' => (hfunctional p hp p' hp').mp) hp
  have horder : (s.getGroundSymmetry struc translateReduced).2 =
      (s.argpositions.flatMap (s.pairs struc translateReduced)).map Prod.fst := by
    rw [getGroundSymmetry_eq]
    exact List.nil_append _
  rw [horder]
  refine ⟨?_, fun a ha => ?_, fun a ha b hb heq => ?_⟩
  · rw [List.map_flatMap, List.nodup_flatMap]
    constructor
    · intro q _
      rw [Symmetry.pairs, List.map_map]
      have hnodup : (s.moved struc q).Nodup := by
        unfold Symmetry.moved
        split_ifs
        · exact List.nodup_nil
        · exact (h.tables q.1).filter _
      exact hnodup.map_on fun t ht t' ht' heq =>
        (h.numbers _ _ (mem_pt_of_moved ht) _ _ (mem_pt_of_moved ht') heq).2
    · refine (List.pairwise_map.mp h.symbols).imp fun hne a ha ha' => ?_
      simp only [Symmetry.pairs, List.map_map, List.mem_map, comp_apply] at ha ha'
      obtain ⟨t, ht, rfl⟩ := ha
      obtain ⟨t', ht', heq⟩ := ha'
      exact hne (h.numbers _ _ (mem_pt_of_moved ht') _ _ (mem_pt_of_moved ht) heq).1.symm
  · obtain ⟨p, hp, rfl⟩ := List.mem_map.mp ha
    rw [hvalue p hp]
    obtain ⟨q, hq, t, ht, rfl⟩ := mem_pairs.mp hp
    exact List.mem_map.mpr ⟨_, mem_pairs.mpr ⟨q, hq, _, transformToSymmetric_moved h hq ht, rfl⟩, rfl⟩
  · obtain ⟨p, hp, rfl⟩ := List.mem_map.mp ha
    obtain ⟨p', hp', rfl⟩ := List.mem_map.mp hb
    rw [hvalue p hp, hvalue p' hp'] at heq
    exact (hfunctional p hp p' hp').mpr heq

-- the models of gt' are the models of gt that are leaders, and every orbit of models has one
structure KeepsLeaders (gt gt' : GroundTheory) (ground : (ℕ → ℕ) × List ℕ) : Prop where
  models : ∀ x, (∃ ν, (∀ a < gt.next, ν a = x a) ∧ gt'.Holds ν) ↔ gt.Holds x ∧ IsLeader ground.1 ground.2 x
  orbits : ∀ x, (∀ k, gt.Holds (permuted ground.1 ground.2 k x)) → ∃ k, ∃ ν : ℕ → Bool,
    (∀ a < gt.next, ν a = permuted ground.1 ground.2 k x a) ∧ gt'.Holds ν

theorem KeepsLeaders.of_models {gt gt' : GroundTheory} {ground : (ℕ → ℕ) × List ℕ} (h : Permutes ground.1 ground.2)
    (hmodels : ∀ x, (∃ ν, (∀ a < gt.next, ν a = x a) ∧ gt'.Holds ν) ↔ gt.Holds x ∧ IsLeader ground.1 ground.2 x) :
    KeepsLeaders gt gt' ground where
  models := hmodels
  orbits x hx := by
    obtain ⟨k, hk⟩ := exists_isLeader h x
    exact ⟨k, (hmodels _).mpr ⟨hx k, hk⟩⟩

section Swap

-- two elements that are exchanged, and one symbol that is unknown for each of them
def swap : Symmetry Unit Bool := ⟨[((), [0])], fun e => some (!e)⟩

def unknownSymbol : Unit → SymbolInterpretation Bool := fun _ => ⟨false, [[false], [true]], fun t => t.length = 1⟩

def elementNumber : Unit → List Bool → ℕ := fun _ t => if t = [true] then 1 else 0

theorem swap_isSymmetry : IsSymmetry swap unknownSymbol elementNumber where
  symbols := by decide
  positions := by decide
  numbers := by decide
  keys e e' h := by cases e' <;> rfl
  injective e₁ e₂ e' h₁ h₂ := by
    have h := h₁.trans h₂.symm
    simpa [swap] using h
  tables := by decide
  unknown q t h := by
    obtain ⟨e, rfl⟩ := List.length_eq_one_iff.mp (of_decide_eq_true h)
    cases e <;> simp [unknownSymbol]
  symmetric symbarg hmem t h := by
    obtain ⟨e, rfl⟩ := List.length_eq_one_iff.mp (of_decide_eq_true h)
    obtain rfl := List.mem_singleton.mp hmem
    cases e <;> decide

end Swap

end Ground

end SymmetryBreaking
