import Mathlib
import DeclarativeLocalSearch.Theory.EveryAggregate

namespace Theory

variable {S P F D : Type}

-- whether the truth can only grow when more elements of the set are satisfied
def isMonotone (sign : SIGN) (comp : CompType) (function : AggFunction) : Bool :=
  match comp with
  | .eq | .neq => false
  | .lt | .leq =>
    match function with
    | .card | .max => sign = .pos
    | .min => sign = .neg
    | .sum => sign = .pos
    | .prod => sign = .pos
  | .gt | .geq =>
    match function with
    | .card | .max => sign = .neg
    | .min => sign = .pos
    | .sum => sign = .neg
    | .prod => sign = .neg

def isAntimonotone (sign : SIGN) (comp : CompType) (function : AggFunction) : Bool :=
  match comp with
  | .eq | .neq => false
  | .lt | .leq =>
    match function with
    | .card | .max => sign = .neg
    | .min => sign = .pos
    | .sum => sign = .neg
    | .prod => sign = .neg
  | .gt | .geq =>
    match function with
    | .card | .max => sign = .pos
    | .min => sign = .neg
    | .sum => sign = .pos
    | .prod => sign = .pos

section Split

variable [DecidableEq S] (sign : SIGN) (bound : Term S P F D) (comp : CompType) (function : AggFunction)
  (sets : List (QuantSetExpr S P F D))

def checkMonotonicityAndThrow : Option Unit :=
  if !isMonotone sign comp function && !isAntimonotone sign comp function then none else some ()

def splitInto (left right : CompType) (n : ℕ) : Option (Formula S P F D × ℕ) := do
  let boundone := bound.clone id n
  let setsone := cloneSets sets id boundone.2
  let boundtwo := bound.clone id setsone.2
  let setstwo := cloneSets sets id boundtwo.2
  checkMonotonicityAndThrow sign left function
  checkMonotonicityAndThrow sign right function
  some (.bool .pos true [.agg sign boundone.1 left function setsone.1, .agg sign boundtwo.1 right function setstwo.1],
    setstwo.2)

def splitIntoMonotoneAgg (n : ℕ) : Option (Formula S P F D × ℕ) :=
  match comp with
  | .eq => splitInto sign bound function sets .leq .geq n
  | .neq => splitInto sign bound function sets .lt .gt n
  | comp => do
    checkMonotonicityAndThrow sign comp function
    some (.agg sign bound comp function sets, n)

end Split

end Theory

set_option linter.unusedSectionVars false

namespace Theory

open Structure

variable {S P F D : Type}

theorem isMonotone_iff {sign : SIGN} {comp : CompType} {g : AggFunction} : isMonotone sign comp g = true ↔
    (comp ≠ .eq ∧ comp ≠ .neq) ∧ (upward sign comp = true ↔ g ≠ .min) := by
  cases sign <;> cases comp <;> cases g <;> decide

theorem isAntimonotone_iff {sign : SIGN} {comp : CompType} {g : AggFunction} : isAntimonotone sign comp g = true ↔
    (comp ≠ .eq ∧ comp ≠ .neq) ∧ (upward sign comp = true ↔ g = .min) := by
  cases sign <;> cases comp <;> cases g <;> decide

namespace Structure

variable [DecidableEq S] (I : Structure S P F D) {K : Type} [CommRing K] [LinearOrder K] [IsStrictOrderedRing K]
  (num : D → WithBot (WithTop K))

-- the direction is the one that is reported
structure Reported {ι : Type} (sign : SIGN) (comp : CompType) (g : AggFunction) (w : ι → Option D) : Prop where
  monotone : isMonotone sign comp g = true → I.MonotoneIn num sign comp g w
  antimonotone : isAntimonotone sign comp g = true → I.AntimonotoneIn num sign comp g w
  either : isMonotone sign comp g = true ∨ isAntimonotone sign comp g = true

variable {I num}

section Directions

variable (h : I.Arithmetic num) {ι : Type} {sign : SIGN} {comp : CompType} {g : AggFunction} {w : ι → Option D}

include h

theorem monotoneIn_iff (hreport : isMonotone sign comp g = true) : I.MonotoneIn num sign comp g w ↔
    ∀ x k, IsNumber num (w x) k → g.Admits k := by
  obtain ⟨hcomp, hup⟩ := isMonotone_iff.mp hreport
  have hgrows : ∀ {u v : WithBot (WithTop K)}, (if upward sign comp then u ≤ v else v ≤ u) ↔ g.Grows u v := by
    intro u v
    by_cases hg : g = .min <;> simp [AggFunction.Grows, hg, hup]
  rw [← grows_iff]
  constructor
  · intro hmono k old new hle hnew
    refine hgrows.mp ((aggHolds_imp_iff h hcomp (fun x hx => hnew x (hle hx)) hnew).mp fun b => ?_)
    exact hmono b k old new hle hnew
  · intro hvalues b k old new hle hnew
    exact (aggHolds_imp_iff h hcomp (fun x hx => hnew x (hle hx)) hnew).mpr (hgrows.mpr (hvalues k old new hle hnew)) b

theorem antimonotoneIn_iff (hreport : isAntimonotone sign comp g = true) : I.AntimonotoneIn num sign comp g w ↔
    ∀ x k, IsNumber num (w x) k → g.Admits k := by
  obtain ⟨hcomp, hup⟩ := isAntimonotone_iff.mp hreport
  have hgrows : ∀ {u v : WithBot (WithTop K)}, (if upward sign comp then v ≤ u else u ≤ v) ↔ g.Grows u v := by
    intro u v
    by_cases hg : g = .min <;> simp [AggFunction.Grows, hg, hup]
  rw [← grows_iff]
  constructor
  · intro hanti k old new hle hnew
    refine hgrows.mp ((aggHolds_imp_iff h hcomp hnew fun x hx => hnew x (hle hx)).mp fun b => ?_)
    exact hanti b k old new hle hnew
  · intro hvalues b k old new hle hnew
    exact (aggHolds_imp_iff h hcomp hnew fun x hx => hnew x (hle hx)).mpr (hgrows.mpr (hvalues k old new hle hnew)) b

theorem reported_iff : I.Reported num sign comp g w ↔
    (comp ≠ .eq ∧ comp ≠ .neq) ∧ ∀ x k, IsNumber num (w x) k → g.Admits k := by
  constructor
  · rintro ⟨hmono, hanti, hreport | hreport⟩
    · exact ⟨(isMonotone_iff.mp hreport).1, (monotoneIn_iff h hreport).mp (hmono hreport)⟩
    · exact ⟨(isAntimonotone_iff.mp hreport).1, (antimonotoneIn_iff h hreport).mp (hanti hreport)⟩
  · rintro ⟨hcomp, hadmits⟩
    refine ⟨fun hreport => (monotoneIn_iff h hreport).mpr hadmits,
      fun hreport => (antimonotoneIn_iff h hreport).mpr hadmits, ?_⟩
    rw [isMonotone_iff, isAntimonotone_iff]
    cases upward sign comp <;> by_cases hg : g = .min <;> simp [hcomp, hg]

end Directions

section Halves

variable (h : I.Arithmetic num) {sign : SIGN} {b u : Option D}

include h

theorem leq_geq_iff : (sign.apply (I.compare .leq b u) ∧ sign.apply (I.compare .geq b u) ↔ sign.apply (I.compare .eq b u)) ↔
    (b.isSome ∧ u.isSome) ∧ (sign = .pos ∨ b = u) := by
  cases b with
  | none => cases sign <;> simp [compare, SIGN.apply]
  | some b =>
    cases u with
    | none => cases sign <;> simp [compare, SIGN.apply]
    | some u =>
      simp only [compare_number h, Option.isSome_some, Option.some.injEq, ← h.injective.eq_iff (a := b)]
      cases sign with
      | pos => simp [SIGN.apply, le_antisymm_iff]
      | neg =>
        have hnot : ¬ (num u < num b ∧ num b < num u) := fun hlt => lt_asymm hlt.1 hlt.2
        simp [SIGN.apply, hnot]

theorem lt_gt_iff : (sign.apply (I.compare .lt b u) ∧ sign.apply (I.compare .gt b u) ↔ sign.apply (I.compare .neq b u)) ↔
    (b.isSome ∧ u.isSome) ∧ (sign = .neg ∨ b = u) := by
  cases b with
  | none => cases sign <;> simp [compare, SIGN.apply]
  | some b =>
    cases u with
    | none => cases sign <;> simp [compare, SIGN.apply]
    | some u =>
      simp only [compare_number h, Option.isSome_some, Option.some.injEq, ← h.injective.eq_iff (a := b)]
      cases sign with
      | pos =>
        have hnot : ¬ (num b < num u ∧ num u < num b) := fun hlt => lt_asymm hlt.1 hlt.2
        simp [SIGN.apply, hnot]
      | neg => simp [SIGN.apply, le_antisymm_iff, and_comm]

end Halves

end Structure

section Splits

variable [DecidableEq S] {I : Structure S P F D} {sign : SIGN} {bound : Term S P F D} {comp left right : CompType}
  {g : AggFunction} {sets : List (QuantSetExpr S P F D)} {n : ℕ} {e : Variable S → D}
  {ok : SIGN → CompType → AggFunction → Set (Option D) → Prop}

theorem clone_weighted {f : Formula S P F D} (hf : ∀ v ∈ f.freeVars, v.id < n) :
    (I.holds (f.clone id n).1 e ↔ I.holds f e) ∧
      ((f.clone id n).1.everyAgg I (OfWeights I ok) e ↔ f.everyAgg I (OfWeights I ok) e) := by
  have hmeaning := (@weighted_expressions S P F D _ I ok).clones.2.2 f id n |>.meaning hf e
  obtain ⟨hpolar, hevery⟩ := Prod.mk.inj hmeaning
  exact ⟨iff_of_eq (Prod.mk.inj hpolar).1, iff_of_eq hevery⟩

theorem checkMonotonicityAndThrow_eq (hcomp : comp ≠ .eq ∧ comp ≠ .neq) :
    checkMonotonicityAndThrow sign comp g = some () := by
  cases comp with
  | eq => exact absurd rfl hcomp.1
  | neq => exact absurd rfl hcomp.2
  | lt | gt | leq | geq => cases sign <;> cases g <;> rfl

theorem splitInto_spec (hleft : left ≠ .eq ∧ left ≠ .neq) (hright : right ≠ .eq ∧ right ≠ .neq)
    (hfree : ∀ v ∈ (Formula.agg sign bound comp g sets).freeVars, v.id < n) :
    ∃ f' n', splitInto sign bound g sets left right n = some (f', n') ∧
      (I.holds f' e ↔ I.holds (.agg sign bound left g sets) e ∧ I.holds (.agg sign bound right g sets) e) ∧
      (f'.everyAgg I (OfWeights I ok) e ↔ (Formula.agg sign bound left g sets).everyAgg I (OfWeights I ok) e ∧
        (Formula.agg sign bound right g sets).everyAgg I (OfWeights I ok) e) := by
  -- the halves are clones of two aggregate formulas
  have hle : n ≤ ((Formula.agg sign bound left g sets).clone id n).2 :=
    ((@weighted_expressions S P F D _ I ok).clones.2.2 (Formula.agg sign bound left g sets) id n).le
  have hone := @clone_weighted S P F D _ I n e ok (Formula.agg sign bound left g sets) hfree
  have htwo := @clone_weighted S P F D _ I _ e ok (Formula.agg sign bound right g sets)
    fun v hv => Nat.lt_of_lt_of_le (hfree v hv) hle
  let one := (Formula.agg sign bound left g sets).clone id n
  let two := (Formula.agg sign bound right g sets).clone id one.2
  refine ⟨.bool .pos true [one.1, two.1], two.2, ?_, ?_, ?_⟩
  · rw [splitInto, checkMonotonicityAndThrow_eq hleft, checkMonotonicityAndThrow_eq hright]
    rfl
  · rw [holds_bool_pos]
    simpa [Quantified.eachOf] using and_congr hone.1 htwo.1
  · rw [Formula.everyAgg, formulasEveryAgg_iff]
    simpa using and_congr hone.2 htwo.2

end Splits

section Result

variable [DecidableEq S] (I : Structure S P F D) {K : Type} [CommRing K] [LinearOrder K] [IsStrictOrderedRing K]
  (num : D → WithBot (WithTop K))

-- each aggregate formula, also in the conditions of the sets, has the direction that is reported for it
def EachReported (f : Formula S P F D) (e : Variable S → D) : Prop :=
  f.everyAgg I (fun sign comp g sets e => I.Reported num sign comp g (I.weight e sets)) e

def Directed (_ : SIGN) (comp : CompType) (g : AggFunction) (weights : Set (Option D)) : Prop :=
  (comp ≠ .eq ∧ comp ≠ .neq) ∧ ∀ d ∈ weights, ∀ k, IsNumber num d k → g.Admits k

-- what the aggregate formula has to be for its parts to be right
structure Divides (sign : SIGN) (bound : Term S P F D) (comp : CompType) (g : AggFunction)
    (sets : List (QuantSetExpr S P F D)) (e : Variable S → D) : Prop where
  eq : comp = .eq → ((I.value bound e).isSome ∧ (I.value (.agg g sets) e).isSome) ∧
    (sign = .pos ∨ I.value bound e = I.value (.agg g sets) e)
  neq : comp = .neq → ((I.value bound e).isSome ∧ (I.value (.agg g sets) e).isSome) ∧
    (sign = .neg ∨ I.value bound e = I.value (.agg g sets) e)
  weights : ∀ d ∈ I.weights e sets, ∀ k, IsNumber num d k → g.Admits k
  inner : bound.everyAgg I (OfWeights I (Directed num)) e ∧ setsEveryAgg I (OfWeights I (Directed num)) sets e

variable {I num}

theorem eachReported_iff (h : I.Arithmetic num) {f : Formula S P F D} {e : Variable S → D} :
    EachReported I num f e ↔ f.everyAgg I (OfWeights I (Directed num)) e := by
  have hsame : (fun sign comp g sets e => I.Reported num sign comp g (I.weight e sets)) = OfWeights I (Directed num) := by
    funext sign comp g sets e
    refine propext ((reported_iff h).trans ?_)
    rw [OfWeights, Directed, weights_eq_range, Set.forall_mem_range]
  rw [EachReported, hsame]

theorem result_iff {α β : Type} {x : Option (α × β)} {a : α} {b : β} {p : α → Prop} (h : x = some (a, b)) :
    (∃ a' b', x = some (a', b') ∧ p a') ↔ p a := by
  simp [h]

theorem everyAgg_agg_iff {sign : SIGN} {bound : Term S P F D} {comp : CompType} {g : AggFunction}
    {sets : List (QuantSetExpr S P F D)} {e : Variable S → D} (hcomp : comp ≠ .eq ∧ comp ≠ .neq) :
    (Formula.agg sign bound comp g sets).everyAgg I (OfWeights I (Directed num)) e ↔
      (∀ d ∈ I.weights e sets, ∀ k, IsNumber num d k → g.Admits k) ∧
        bound.everyAgg I (OfWeights I (Directed num)) e ∧ setsEveryAgg I (OfWeights I (Directed num)) sets e :=
  and_congr_left' (and_iff_right hcomp)

theorem kept_right_iff (h : I.Arithmetic num) {sign : SIGN} {bound : Term S P F D} {comp : CompType} {g : AggFunction}
    {sets : List (QuantSetExpr S P F D)} {n : ℕ} {e : Variable S → D} (hcomp : comp ≠ .eq ∧ comp ≠ .neq) :
    (∃ f' n', splitIntoMonotoneAgg sign bound comp g sets n = some (f', n') ∧
      (I.holds f' e ↔ I.holds (.agg sign bound comp g sets) e) ∧ EachReported I num f' e) ↔
      Divides I num sign bound comp g sets e := by
  have hkept : splitIntoMonotoneAgg sign bound comp g sets n = some (.agg sign bound comp g sets, n) := by
    cases comp with
    | eq => exact absurd rfl hcomp.1
    | neq => exact absurd rfl hcomp.2
    | lt | gt | leq | geq =>
      have hcheck := @checkMonotonicityAndThrow_eq sign _ g hcomp
      simp [splitIntoMonotoneAgg, hcheck]
  rw [result_iff hkept, eachReported_iff h, everyAgg_agg_iff hcomp, and_iff_right Iff.rfl]
  exact ⟨fun hd => ⟨fun hc => absurd hc hcomp.1, fun hc => absurd hc hcomp.2, hd.1, hd.2⟩,
    fun hd => ⟨hd.weights, hd.inner⟩⟩

section Equality

variable (h : I.Arithmetic num) {sign : SIGN} {bound : Term S P F D} {g : AggFunction}
  {sets : List (QuantSetExpr S P F D)} {n : ℕ} {e : Variable S → D}

include h

theorem eq_right_iff (hfree : ∀ v ∈ (Formula.agg sign bound .eq g sets).freeVars, v.id < n) :
    (∃ f' n', splitIntoMonotoneAgg sign bound .eq g sets n = some (f', n') ∧
      (I.holds f' e ↔ I.holds (.agg sign bound .eq g sets) e) ∧ EachReported I num f' e) ↔
      Divides I num sign bound .eq g sets e := by
  obtain ⟨f', n', hsplit, hholds, hevery⟩ :=
    @splitInto_spec S P F D _ I sign bound .eq .leq .geq g sets n e (Directed num) ⟨by simp, by simp⟩
      ⟨by simp, by simp⟩ hfree
  rw [splitIntoMonotoneAgg, result_iff hsplit, eachReported_iff h, hholds, hevery,
    everyAgg_agg_iff (show CompType.leq ≠ .eq ∧ CompType.leq ≠ .neq from ⟨by simp, by simp⟩),
    everyAgg_agg_iff (show CompType.geq ≠ .eq ∧ CompType.geq ≠ .neq from ⟨by simp, by simp⟩), and_self]
  simp only [holds, leq_geq_iff h]
  exact ⟨fun hd => ⟨fun _ => hd.1, by simp, hd.2.1, hd.2.2⟩, fun hd => ⟨hd.eq rfl, hd.weights, hd.inner⟩⟩

theorem neq_right_iff (hfree : ∀ v ∈ (Formula.agg sign bound .neq g sets).freeVars, v.id < n) :
    (∃ f' n', splitIntoMonotoneAgg sign bound .neq g sets n = some (f', n') ∧
      (I.holds f' e ↔ I.holds (.agg sign bound .neq g sets) e) ∧ EachReported I num f' e) ↔
      Divides I num sign bound .neq g sets e := by
  obtain ⟨f', n', hsplit, hholds, hevery⟩ :=
    @splitInto_spec S P F D _ I sign bound .neq .lt .gt g sets n e (Directed num) ⟨by simp, by simp⟩
      ⟨by simp, by simp⟩ hfree
  rw [splitIntoMonotoneAgg, result_iff hsplit, eachReported_iff h, hholds, hevery,
    everyAgg_agg_iff (show CompType.lt ≠ .eq ∧ CompType.lt ≠ .neq from ⟨by simp, by simp⟩),
    everyAgg_agg_iff (show CompType.gt ≠ .eq ∧ CompType.gt ≠ .neq from ⟨by simp, by simp⟩), and_self]
  simp only [holds, lt_gt_iff h]
  exact ⟨fun hd => ⟨by simp, fun _ => hd.1, hd.2.1, hd.2.2⟩, fun hd => ⟨hd.neq rfl, hd.weights, hd.inner⟩⟩

end Equality

theorem splitIntoMonotoneAgg_right_iff (I : Structure S P F D) (num : D → WithBot (WithTop K)) (h : I.Arithmetic num)
    (sign : SIGN) (bound : Term S P F D) (comp : CompType) (g : AggFunction) (sets : List (QuantSetExpr S P F D)) (n : ℕ)
    (hfree : ∀ v ∈ (Formula.agg sign bound comp g sets).freeVars, v.id < n) (e : Variable S → D) :
    (∃ f' n', splitIntoMonotoneAgg sign bound comp g sets n = some (f', n') ∧
      (I.holds f' e ↔ I.holds (.agg sign bound comp g sets) e) ∧ EachReported I num f' e) ↔
      Divides I num sign bound comp g sets e := by
  cases comp with
  | eq => exact eq_right_iff h hfree
  | neq => exact neq_right_iff h hfree
  | lt | gt | leq | geq => exact kept_right_iff h ⟨nofun, nofun⟩

end Result

section Integers

theorem count_eq_count {ι δ : Type} [DecidableEq δ] (w : ι → Option δ) (chosen : Finset ι) (d : Option δ) :
    count w chosen d = ((chosen.val.map w).count d : ℕ) := by
  have hcard : ENat.card {x : (chosen : Set ι) // w x = d} = ENat.card {x // x ∈ chosen.filter (w · = d)} :=
    ENat.card_congr ((Equiv.subtypeSubtypeEquivSubtypeInter (· ∈ (chosen : Set ι)) (w · = d)).trans
      (Equiv.subtypeEquivRight fun x => by simp))
  rw [count, hcard, ENat.card_eq_coe_fintype_card, Fintype.card_coe, Multiset.count_map]
  simp only [eq_comm (a := d)]
  rfl

def integerCount (ks : Multiset ℤ) (d : Option (WithBot (WithTop ℤ))) : ℕ∞ :=
  ((ks.map fun k => some (number k)).count d : ℕ)

theorem integerCount_injective : Function.Injective integerCount := by
  intro ks ks' h
  refine Multiset.map_injective (f := fun k : ℤ => some (number k)) (fun k k' heq => ?_) (Multiset.ext.mpr fun d => ?_)
  · exact WithTop.coe_injective (WithBot.coe_injective (Option.some.inj heq))
  · exact ENat.natCast_inj.mp (congrFun h d)

-- the integers with their aggregates, and one sort for the zero
noncomputable def integers : Structure Unit Unit Unit (WithBot (WithTop ℤ)) where
  sort _ d := d = number 0
  isEmpty _ := false
  isEmpty_iff _ := ⟨nofun, fun h => absurd rfl (h (number 0))⟩
  less d d' := d < d'
  predicate _ _ := False
  function _ _ := none
  aggregate g occurrences :=
    open Classical in
    if h : ∃ ks, occurrences = integerCount ks then some (g.apply h.choose) else none

theorem integers_arithmetic : integers.Arithmetic (id : _ → WithBot (WithTop ℤ)) where
  injective := Function.injective_id
  less _ _ := Iff.rfl
  aggregate g ι w k chosen h := by
    have hcount : count w chosen = integerCount (chosen.val.map k) := by
      funext d
      rw [count_eq_count, integerCount, Multiset.map_map]
      refine congrArg (fun m => ((Multiset.count d m : ℕ) : ℕ∞)) (Multiset.map_congr rfl fun x hx => ?_)
      obtain ⟨d', hd', hnum⟩ := h x hx
      rw [hd', Function.comp_apply, ← hnum]
      rfl
    have hex : ∃ ks, count w chosen = integerCount ks := ⟨_, hcount⟩
    have hks : hex.choose = chosen.val.map k := integerCount_injective (hex.choose_spec.symm.trans hcount)
    exact ⟨g.apply hex.choose, dif_pos hex, by rw [hks]; rfl⟩

-- a set without satisfied elements
def noElements : List (QuantSetExpr Unit Unit Unit (WithBot (WithTop ℤ))) :=
  [.mk [⟨0, ()⟩] (.bool .pos false []) (.dom () (number 1))]

theorem value_noElements (e : Variable Unit → WithBot (WithTop ℤ)) :
    integers.value (.agg .card noElements) e = some (number 0) := by
  have hnone : {x | integers.Satisfied e noElements x} = ((∅ : Finset (integers.Elements noElements)) : Set _) := by
    rw [Finset.coe_empty, Set.eq_empty_iff_forall_notMem]
    rintro (a | x) h
    · exact (someHolds_iff.mp h).elim fun _ hf => List.not_mem_nil hf.1
    · exact nomatch x
  obtain ⟨d, hd, hnum⟩ := integers_arithmetic.aggregate .card _ (integers.weight e noElements) (fun _ => 0) ∅
    fun _ hx => absurd hx (Finset.notMem_empty _)
  rw [value, occurrences_eq_count, hnone, hd]
  exact congrArg some hnum

-- 1 is not the number of elements, and neither less than it and greater
theorem splitIntoMonotoneAgg_neq_wrong : ¬ ∃ f' n',
    splitIntoMonotoneAgg .pos (.dom () (number 1)) .neq .card noElements 1 = some (f', n') ∧
      (integers.holds f' (fun _ => number 0) ↔
        integers.holds (.agg .pos (.dom () (number 1)) .neq .card noElements) fun _ => number 0) ∧
      EachReported integers id f' fun _ => number 0 := by
  rw [neq_right_iff integers_arithmetic (by decide)]
  intro h
  rcases (h.neq rfl).2 with hsign | hvalue
  · exact absurd hsign nofun
  · rw [value, value_noElements] at hvalue
    exact absurd (Option.some.inj hvalue) (by decide)

theorem splitIntoMonotoneAgg_neq_right : ∃ f' n',
    splitIntoMonotoneAgg .neg (.dom () (number 1)) .neq .card noElements 1 = some (f', n') ∧
      (integers.holds f' (fun _ => number 0) ↔
        integers.holds (.agg .neg (.dom () (number 1)) .neq .card noElements) fun _ => number 0) ∧
      EachReported integers id f' fun _ => number 0 :=
  (splitIntoMonotoneAgg_right_iff integers id integers_arithmetic .neg (.dom () (number 1)) .neq .card noElements 1
    (by decide) fun _ => number 0).mpr
    { eq := nofun
      neq := fun _ => ⟨⟨rfl, by rw [value_noElements]; rfl⟩, .inl rfl⟩
      weights := fun _ _ _ _ => ⟨nofun, nofun⟩
      inner := ⟨trivial, fun _ => ⟨trivial, trivial⟩, trivial⟩ }

end Integers

end Theory
