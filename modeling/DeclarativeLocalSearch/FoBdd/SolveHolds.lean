import DeclarativeLocalSearch.FoBdd.Solve
import Mathlib.Tactic.FieldSimp
import Mathlib.Tactic.Linarith
import Mathlib.Tactic.Ring

namespace FoBdd

variable {V F G S K : Type}

-- values of the variables and the indices, and what the other functions and the aggregates stand for
structure Valuation (V F G S K : Type) where
  var : V → K
  index : S → ℕ → K
  func : F → List K → K
  agg : G → K

namespace Valuation

variable [Field K] (e : Valuation V F G S K)

def apply : Operation → K → K → K
  | .addition, x, y => x + y
  | .multiplication, x, y => x * y

mutual

def eval : FOBDDTerm V F G S → K
  | .var v => e.var v
  | .index s i => e.index s i
  | .domain _ d => (d.toRat : K)
  | .arith op _ l r => apply op (eval l) (eval r)
  | .func f args => e.func f (evalAll args)
  | .agg g => e.agg g

def evalAll : FOBDDTerms V F G S → List K
  | .nil => []
  | .cons t ts => eval t :: evalAll ts

end

@[simp] theorem eval_domain (s : S) (d : DomainElement) : e.eval (.domain s d) = (d.toRat : K) := by
  rw [eval]

@[simp] theorem eval_addition (type : NumType) (l r : FOBDDTerm V F G S) :
    e.eval (.arith .addition type l r) = e.eval l + e.eval r := by
  rw [eval, apply]

@[simp] theorem eval_multiplication (type : NumType) (l r : FOBDDTerm V F G S) :
    e.eval (.arith .multiplication type l r) = e.eval l * e.eval r := by
  rw [eval, apply]

end Valuation

def StdPred.Holds [LT K] : StdPred → K → K → Prop
  | .eq, x, y => x = y
  | .lt, x, y => x < y
  | .gt, x, y => y < x

theorem StdPred.inverted_holds [LT K] (symbol : StdPred) (x y : K) :
    symbol.inverted.Holds x y ↔ symbol.Holds y x := by
  cases symbol
  · exact eq_comm
  · exact Iff.rfl
  · exact Iff.rfl

namespace FuncTerms

variable {M : FuncTerms V F G S}

theorem createDomElem_toRat (q : ℚ) : (createDomElem q).toRat = q := by
  unfold createDomElem
  split_ifs with h
  · exact Rat.den_eq_one_iff q |>.mp h
  · rfl

theorem funcTable_value [Field K] [CharZero K] {op : Operation} {type : NumType} {d d' r : DomainElement}
    (h : funcTable op type d d' = some r) :
    (r.toRat : K) = Valuation.apply op (d.toRat : K) (d'.toRat : K) := by
  have hfloat : ∀ q : ℚ, q = op.ofRat d.toRat d'.toRat →
      (q : K) = Valuation.apply op (d.toRat : K) (d'.toRat : K) := by
    rintro q rfl
    cases op
    · exact Rat.cast_add ..
    · exact Rat.cast_mul ..
  cases type with
  | int =>
    cases d with
    | double q => cases h
    | int x =>
      cases d' with
      | double q => cases h
      | int y =>
        cases h
        refine hfloat _ ?_
        cases op
        · exact Int.cast_add ..
        · exact Int.cast_mul ..
  | float =>
    cases h
    exact hfloat _ (createDomElem_toRat _)

section GetTerms

variable [Field K] (e : Valuation V F G S K)

theorem getTerms_head (op : Operation) (t : FOBDDTerm V F G S) :
    ∃ s d ts, M.getTerms op t = .domain s d :: ts := by
  cases t with
  | domain s d => exact ⟨s, d, [], by rw [getTerms]⟩
  | var v => exact ⟨_, _, _, by rw [getTerms]; all_goals simp⟩
  | index s i => exact ⟨_, _, _, by rw [getTerms]; all_goals simp⟩
  | func f args => exact ⟨_, _, _, by rw [getTerms]; all_goals simp⟩
  | agg g => exact ⟨_, _, _, by rw [getTerms]; all_goals simp⟩
  | arith op' type l r =>
    rw [getTerms]
    split_ifs
    · obtain ⟨s, d, ts, hl⟩ := getTerms_head op l
      exact ⟨s, d, ts ++ [r], by rw [hl, List.cons_append]⟩
    · exact ⟨_, _, _, rfl⟩

-- the terms together, as the operation takes them
def total (op : Operation) (ts : List (FOBDDTerm V F G S)) : K :=
  ts.foldr (fun t x => Valuation.apply op (e.eval t) x) ((getNeutralElement op).toRat : K)

theorem total_cons (t : FOBDDTerm V F G S) (terms : List (FOBDDTerm V F G S)) :
    total e .addition (t :: terms) = e.eval t + total e .addition terms := rfl

theorem apply_neutral (op : Operation) (x : K) :
    Valuation.apply op x ((getNeutralElement op).toRat : K) = x ∧
      Valuation.apply op ((getNeutralElement op).toRat : K) x = x := by
  cases op <;> simp [Valuation.apply, getNeutralElement, DomainElement.toRat]

theorem apply_assoc (op : Operation) (x y z : K) :
    Valuation.apply op (Valuation.apply op x y) z = Valuation.apply op x (Valuation.apply op y z) := by
  cases op
  · exact add_assoc x y z
  · exact mul_assoc x y z

theorem total_append (op : Operation) (ts : List (FOBDDTerm V F G S)) (t : FOBDDTerm V F G S) :
    total e op (ts ++ [t]) = Valuation.apply op (total e op ts) (e.eval t) := by
  induction ts with
  | nil => exact (apply_neutral op _).1.trans (apply_neutral op _).2.symm
  | cons t' ts ih => exact (congrArg _ ih).trans (apply_assoc op _ _ _).symm

theorem getTerms_total (op : Operation) (t : FOBDDTerm V F G S) : total e op (M.getTerms op t) = e.eval t := by
  have hone : ∀ t : FOBDDTerm V F G S,
      total e op [.domain M.natsort (getNeutralElement op), t] = e.eval t := by
    intro t
    simp only [total, List.foldr_cons, List.foldr_nil, Valuation.eval_domain, apply_neutral]
  cases t with
  | domain s d => rw [getTerms]; exact (apply_neutral op _).1
  | var v => rw [getTerms]; exacts [hone _, by simp, by simp]
  | index s i => rw [getTerms]; exacts [hone _, by simp, by simp]
  | func f args => rw [getTerms]; exacts [hone _, by simp, by simp]
  | agg g => rw [getTerms]; exacts [hone _, by simp, by simp]
  | arith op' type l r =>
    rw [getTerms]
    split_ifs with hop
    · subst hop
      rw [total_append, getTerms_total op' l, Valuation.eval]
    · exact hone _

variable {e}

theorem eval_zero (s : S) : e.eval (.domain s (.int 0)) = 0 := by
  simp [DomainElement.toRat]

theorem eval_one (s : S) : e.eval (.domain s (.int 1)) = 1 := by
  simp [DomainElement.toRat]

theorem lastAddend_value (a : FOBDDTerm V F G S) :
    (lastAddend a).1.elim 0 e.eval + e.eval (lastAddend a).2 = e.eval a := by
  unfold lastAddend
  split
  · exact (Valuation.eval_addition e _ _ _).symm
  · exact zero_add _

variable {rec : Operation → NumType → FOBDDTerm V F G S → FOBDDTerm V F G S → Option (FOBDDTerm V F G S)}

-- what an operation returns has the value of its arguments together
def Computes (e : Valuation V F G S K)
    (rec : Operation → NumType → FOBDDTerm V F G S → FOBDDTerm V F G S → Option (FOBDDTerm V F G S)) : Prop :=
  ∀ op type a b r, rec op type a b = some r → e.eval r = Valuation.apply op (e.eval a) (e.eval b)

theorem Computes.add (h : Computes e rec) {type : NumType} {a b r : FOBDDTerm V F G S}
    (hr : rec .addition type a b = some r) : e.eval r = e.eval a + e.eval b :=
  h _ _ _ _ _ hr

theorem Computes.mul (h : Computes e rec) {type : NumType} {a b r : FOBDDTerm V F G S}
    (hr : rec .multiplication type a b = some r) : e.eval r = e.eval a * e.eval b :=
  h _ _ _ _ _ hr

theorem isZero_of_isIntZero {t : FOBDDTerm V F G S} (h : isIntZero t = true) : isZero t = true := by
  cases t with
  | domain s d =>
    have hd : d = .int 0 := of_decide_eq_true h
    subst hd
    rfl
  | _ => cases h

theorem isZero_value {t : FOBDDTerm V F G S} (h : isZero t = true) : e.eval t = 0 := by
  cases t with
  | domain s d => rw [Valuation.eval_domain, of_decide_eq_true h, Rat.cast_zero]
  | _ => cases h

end GetTerms

section GetFuncTerm

variable [Field K] {e : Valuation V F G S K}
  {rec : Operation → NumType → FOBDDTerm V F G S → FOBDDTerm V F G S → Option (FOBDDTerm V F G S)}

variable {type : NumType} {a b r : FOBDDTerm V F G S}

theorem sortMultiplication_value (h : Computes e rec) (hr : sortMultiplication M rec type a b = some r) :
    e.eval r = e.eval a * e.eval b := by
  unfold sortMultiplication at hr
  split at hr
  · simp only [Option.bind_eq_bind, Option.bind_eq_some_iff] at hr
    obtain ⟨type1, -, newleft, hleft, type2, -, hr⟩ := hr
    rw [h.mul hr, h.mul hleft]
    simp only [Valuation.eval_multiplication]
    ring
  · split_ifs at hr
    · simp only [Option.bind_eq_bind, Option.bind_eq_some_iff] at hr
      obtain ⟨type1, -, newleft, hleft, type2, -, hr⟩ := hr
      rw [h.mul hr, h.mul hleft, Valuation.eval_multiplication]
      ring
    · cases hr
      rw [Valuation.eval_multiplication]
  · cases hr
    rw [Valuation.eval_multiplication]
  · cases hr
    rw [Valuation.eval_multiplication]
  · rw [h.mul hr, mul_comm]
  · split_ifs at hr
    · rw [h.mul hr, mul_comm]
    · cases hr
      rw [Valuation.eval_multiplication]

theorem distribute_value (h : Computes e rec) (hr : distribute M rec type a b = some r) :
    e.eval r = e.eval a * e.eval b := by
  unfold distribute at hr
  split at hr
  · simp only [Option.bind_eq_bind, Option.bind_eq_some_iff] at hr
    obtain ⟨newleft, hleft, newright, hright, hr⟩ := hr
    rw [h.add hr, h.mul hleft, h.mul hright, Valuation.eval_addition, add_mul]
  · simp only [Option.bind_eq_bind, Option.bind_eq_some_iff] at hr
    obtain ⟨newleft, hleft, newright, hright, hr⟩ := hr
    rw [h.add hr, h.mul hleft, h.mul hright, Valuation.eval_addition, mul_add]
  · exact sortMultiplication_value h hr

theorem multiplication_value [CharZero K] (h : Computes e rec) (hr : multiplication M rec type a b = some r) :
    e.eval r = e.eval a * e.eval b := by
  unfold multiplication at hr
  split at hr
  · split_ifs at hr with h0 h1
    · subst h0
      cases hr
      rw [eval_zero, zero_mul]
    · subst h1
      cases hr
      rw [eval_one, one_mul]
    · split at hr
      · simp only [Option.bind_eq_bind, Option.bind_eq_some_iff] at hr
        obtain ⟨d, hd, hr⟩ := hr
        cases hr
        simp only [Valuation.eval_domain]
        exact funcTable_value hd
      · exact distribute_value h hr
  · split_ifs at hr with h0 h1
    · subst h0
      cases hr
      rw [eval_zero, mul_zero]
    · subst h1
      cases hr
      rw [eval_one, mul_one]
    · exact distribute_value h hr
  · exact distribute_value h hr

theorem multiplyAll_value (h : Computes e rec) {ts : List (FOBDDTerm V F G S)}
    (hr : multiplyAll M rec a ts = some r) : e.eval r = e.eval a * total e .multiplication ts := by
  induction ts generalizing a with
  | nil =>
    cases hr
    exact (apply_neutral .multiplication _).1.symm
  | cons t ts ih =>
    simp only [multiplyAll, Option.bind_eq_bind, Option.bind_eq_some_iff] at hr
    obtain ⟨type1, -, currterm, hc, hr⟩ := hr
    rw [ih hr, h.mul hc, mul_assoc]
    rfl

theorem mergeAddends_value (h : Computes e rec) {left : Option (FOBDDTerm V F G S)}
    {leftflat rightflat : List (FOBDDTerm V F G S)} (htail : leftflat.tail = rightflat.tail)
    (hr : mergeAddends M rec left leftflat rightflat = some r) :
    e.eval r = (left.elim 0 e.eval) + (total e .multiplication leftflat + total e .multiplication rightflat) := by
  unfold mergeAddends at hr
  split at hr
  · rename_i c factors c' factors'
    obtain rfl : factors = factors' := htail
    simp only [Option.bind_eq_bind, Option.bind_eq_some_iff] at hr
    obtain ⟨type1, -, sum, hsum, currterm, hc, hr⟩ := hr
    have hcurr : e.eval currterm = total e .multiplication (c :: factors) + total e .multiplication (c' :: factors) := by
      rw [multiplyAll_value h hc, h.add hsum, add_mul]
      rfl
    rw [← hcurr]
    split at hr
    · simp only [Option.bind_eq_some_iff] at hr
      obtain ⟨type2, -, hr⟩ := hr
      exact h.add hr
    · cases hr
      exact (zero_add _).symm
  · cases hr

variable [DecidableEq V] [DecidableEq F] [DecidableEq G] [DecidableEq S]

theorem addSame_value (h : Computes e rec) (hr : addSame M rec type a b = some r) :
    e.eval r = e.eval a + e.eval b := by
  simp only [addSame] at hr
  split_ifs at hr with hsame
  · rw [mergeAddends_value h hsame.2 hr, getTerms_total, getTerms_total, ← add_assoc, lastAddend_value]
  · cases hr
    rw [Valuation.eval_addition]

theorem sortAddition_value (h : Computes e rec) (hr : sortAddition M rec type a b = some r) :
    e.eval r = e.eval a + e.eval b := by
  unfold sortAddition at hr
  split at hr
  · simp only [Option.bind_eq_bind, Option.bind_eq_some_iff] at hr
    obtain ⟨type1, -, newleft, hleft, type2, -, hr⟩ := hr
    rw [h.add hr, h.add hleft]
    simp only [Valuation.eval_addition]
    ring
  · split_ifs at hr
    · simp only [Option.bind_eq_bind, Option.bind_eq_some_iff] at hr
      obtain ⟨type1, -, newleft, hleft, type2, -, hr⟩ := hr
      rw [h.add hr, h.add hleft, Valuation.eval_addition]
      ring
    · exact addSame_value h hr
  · exact addSame_value h hr
  · exact addSame_value h hr
  · rw [h.add hr, add_comm]
  · split_ifs at hr
    · rw [h.add hr, add_comm]
    · exact addSame_value h hr

theorem addition_value [CharZero K] (h : Computes e rec) (hr : addition M rec type a b = some r) :
    e.eval r = e.eval a + e.eval b := by
  unfold addition at hr
  split at hr
  · split_ifs at hr with h0
    · subst h0
      cases hr
      rw [eval_zero, zero_add]
    · split at hr
      · simp only [Option.bind_eq_bind, Option.bind_eq_some_iff] at hr
        obtain ⟨d, hd, hr⟩ := hr
        cases hr
        simp only [Valuation.eval_domain]
        exact funcTable_value hd
      · exact sortAddition_value h hr
  · exact sortAddition_value h hr

theorem getArithTerm_computes [CharZero K] (e : Valuation V F G S K) (n : ℕ) : Computes e (M.getArithTerm n) := by
  induction n with
  | zero => exact fun _ _ _ _ _ hr => absurd hr (by simp [getArithTerm])
  | succ n ih =>
    intro op type a b r hr
    cases op with
    | addition => exact addition_value ih hr
    | multiplication => exact multiplication_value ih hr

theorem invert_value [CharZero K] {n : ℕ} (hr : M.invert n a = some r) : e.eval r = -e.eval a := by
  simp only [invert, Option.bind_eq_bind, Option.bind_eq_some_iff] at hr
  obtain ⟨type, -, hr⟩ := hr
  rw [(getArithTerm_computes e n).mul hr]
  simp [DomainElement.toRat]

theorem factorsAt_value {terms : List (FOBDDTerm V F G S)} {place : ℕ} {s : S} {d : DomainElement}
    {arg factor : FOBDDTerm V F G S} (hf : M.factorsAt terms place arg = some [.domain s d, factor]) :
    factor = arg ∧ ∃ t, terms[place]? = some t ∧ e.eval t = (d.toRat : K) * e.eval factor ∧
      M.getTerms .multiplication t = [.domain s d, factor] := by
  simp only [factorsAt, Option.bind_eq_bind, Option.bind_eq_some_iff] at hf
  obtain ⟨t, ht, hf⟩ := hf
  split_ifs at hf with hone
  have hf := Option.some.inj hf
  rw [hf, List.getElem?_cons_succ, List.getElem?_cons_zero, Option.some.injEq] at hone
  refine ⟨hone, t, ht, ?_, hf⟩
  rw [← getTerms_total (M := M) e .multiplication t, hf]
  simp only [total, List.foldr_cons, List.foldr_nil, Valuation.eval_domain]
  exact congrArg _ (apply_neutral .multiplication _).1

end GetFuncTerm

section Solve

variable [Field K] [LinearOrder K] [IsStrictOrderedRing K] [DecidableEq V] [DecidableEq F] [DecidableEq G]
  [DecidableEq S] {e : Valuation V F G S K}

theorem restTerm_step {n place i : ℕ} (hi : i ≠ place) {restterm r : Option (FOBDDTerm V F G S)}
    {t : FOBDDTerm V F G S} {terms : List (FOBDDTerm V F G S)}
    (hr : M.restTerm n place i restterm (t :: terms) = some r) :
    ∃ rest, M.restTerm n place (i + 1) (some rest) terms = some r ∧
      e.eval rest = restterm.elim 0 e.eval + e.eval t := by
  cases restterm with
  | none =>
    simp only [restTerm, if_neg hi] at hr
    exact ⟨t, hr, (zero_add _).symm⟩
  | some rest =>
    simp only [restTerm, if_neg hi, Option.bind_eq_bind, Option.bind_eq_some_iff] at hr
    obtain ⟨type, -, rest', hrest, hr⟩ := hr
    exact ⟨rest', hr, (getArithTerm_computes e n).add hrest⟩

theorem restTerm_after {n place i : ℕ} (hi : place < i) {restterm r : Option (FOBDDTerm V F G S)}
    {terms : List (FOBDDTerm V F G S)} (hr : M.restTerm n place i restterm terms = some r) :
    r.elim 0 e.eval = restterm.elim 0 e.eval + total e .addition terms := by
  induction terms generalizing i restterm with
  | nil =>
    cases hr
    exact (apply_neutral .addition _).1.symm
  | cons t terms ih =>
    obtain ⟨rest, hr, hrest⟩ := restTerm_step (e := e) (Nat.ne_of_gt hi) hr
    rw [ih (Nat.lt_succ_of_lt hi) hr, Option.elim_some, hrest, total_cons, add_assoc]

theorem restTerm_value {n place i : ℕ} (hi : i ≤ place) {restterm r : Option (FOBDDTerm V F G S)}
    {terms : List (FOBDDTerm V F G S)} (hr : M.restTerm n place i restterm terms = some r)
    {t : FOBDDTerm V F G S} (ht : terms[place - i]? = some t) :
    r.elim 0 e.eval + e.eval t = restterm.elim 0 e.eval + total e .addition terms := by
  induction terms generalizing i restterm with
  | nil => simp at ht
  | cons t' terms ih =>
    rw [total_cons]
    rcases Nat.eq_or_lt_of_le hi with rfl | hlt
    · rw [Nat.sub_self, List.getElem?_cons_zero] at ht
      cases ht
      simp only [restTerm, if_pos] at hr
      rw [restTerm_after (Nat.lt_succ_self i) hr]
      ring
    · obtain ⟨rest, hr, hrest⟩ := restTerm_step (e := e) (Nat.ne_of_lt hlt) hr
      have hsub : place - i = place - (i + 1) + 1 := by omega
      rw [hsub, List.getElem?_cons_succ] at ht
      rw [ih hlt hr ht, Option.elim_some, hrest, add_assoc]

theorem restTerm_some {n place i : ℕ} {rest : FOBDDTerm V F G S} {terms : List (FOBDDTerm V F G S)} :
    M.restTerm n place i (some rest) terms ≠ some none := by
  intro hr
  induction terms generalizing i rest with
  | nil => cases hr
  | cons t terms ih =>
    rw [restTerm] at hr
    split_ifs at hr
    · exact ih hr
    · simp only [Option.bind_eq_bind, Option.bind_eq_some_iff] at hr
      obtain ⟨-, -, rest', -, hr⟩ := hr
      exact ih hr

theorem restTerm_none {n place : ℕ} {terms : List (FOBDDTerm V F G S)}
    (hr : M.restTerm n place 0 none terms = some none) : terms.length ≤ 1 := by
  match terms, hr with
  | [], _ => exact Nat.zero_le 1
  | [t], _ => exact le_rfl
  | t :: t' :: terms, hr =>
    rw [restTerm] at hr
    split_ifs at hr with h0
    · subst h0
      rw [restTerm, if_neg (Nat.one_ne_zero)] at hr
      exact absurd hr restTerm_some
    · exact absurd hr restTerm_some

-- a coefficient below zero turns the comparison around when it is divided by
theorem divided_holds {c : K} (hc : c ≠ 0) {symbol : StdPred} (hneg : ¬ (0 < c ∧ symbol ≠ .eq)) (x rest : K) :
    symbol.Holds (c * x + rest) 0 ↔ symbol.Holds (rest * (-1 / c)) x := by
  have hdiv : rest * (-1 / c) - x = -(c * x + rest) / c := by
    field_simp
    ring
  cases symbol with
  | eq =>
    rw [StdPred.Holds, StdPred.Holds, ← sub_eq_zero (a := rest * _), hdiv, div_eq_zero_iff, neg_eq_zero]
    exact (or_iff_left hc).symm
  | lt =>
    have hc : c < 0 := lt_of_le_of_ne (not_lt.mp fun h => hneg ⟨h, by decide⟩) hc
    rw [StdPred.Holds, StdPred.Holds, ← sub_neg (a := rest * _), hdiv, div_neg_iff]
    constructor
    · exact fun h => Or.inl ⟨by linarith, hc⟩
    · rintro (⟨h, -⟩ | ⟨-, h⟩)
      · linarith
      · exact absurd h (not_lt.mpr hc.le)
  | gt =>
    have hc : c < 0 := lt_of_le_of_ne (not_lt.mp fun h => hneg ⟨h, by decide⟩) hc
    rw [StdPred.Holds, StdPred.Holds, ← sub_pos (a := rest * _), hdiv, div_pos_iff]
    constructor
    · exact fun h => Or.inr ⟨by linarith, hc⟩
    · rintro (⟨-, h⟩ | ⟨h, -⟩)
      · exact absurd h (not_lt.mpr hc.le)
      · linarith

theorem isolate_holds {n : ℕ} {symbol : StdPred} {right rest t : FOBDDTerm V F G S} {c : ℚ}
    (hr : M.isolate n symbol right c (some rest) = some (some t)) (x : K) :
    symbol.Holds ((c : K) * x + e.eval rest) 0 ↔ symbol.Holds (e.eval t) x := by
  simp only [isolate] at hr
  split_ifs at hr with h1 h2 h3 h4 h5 h6
  · -- the argument is subtracted from the rest
    cases hr
    subst h1
    have hx : ∀ y : K, ((-1 : ℚ) : K) * x + y = y - x := fun y => by push_cast; ring
    rw [hx (e.eval rest)]
    cases symbol
    · exact sub_eq_zero
    · exact sub_neg
    · exact sub_pos
  · simp only [Option.bind_eq_bind, Option.bind_eq_some_iff, Option.some.injEq] at hr
    obtain ⟨inverted, hinv, rfl⟩ := hr
    subst h2 h3
    rw [invert_value hinv, StdPred.Holds, StdPred.Holds, Rat.cast_one, one_mul, neg_eq_iff_add_eq_zero, add_comm]
  · cases hr
  · cases hr
  · cases hr
  · simp only [Option.bind_eq_bind, Option.bind_eq_some_iff, Option.some.injEq] at hr
    obtain ⟨type, -, product, hproduct, rfl⟩ := hr
    rw [(getArithTerm_computes e n).mul hproduct, Valuation.eval_domain, createDomElem_toRat]
    push_cast
    refine divided_holds (by exact_mod_cast h6) ?_ x _
    rintro ⟨hpos, hne⟩
    exact h5 ⟨by exact_mod_cast hpos, hne⟩

theorem isolated_holds {n place : ℕ} {symbol : StdPred} {left right argument factor t : FOBDDTerm V F G S}
    {s : S} {d : DomainElement} {c : ℚ} {arg : FOBDDTerm V F G S}
    (hf : M.factorsAt (M.getTerms .addition left) place arg = some [.domain s d, factor])
    (hc : (c : K) * e.eval argument = (d.toRat : K) * e.eval factor)
    {restterm : Option (FOBDDTerm V F G S)} (hrest : M.restTerm n place 0 none (M.getTerms .addition left) = some restterm)
    (hr : M.isolate n symbol right c restterm = some (some t)) :
    symbol.Holds (e.eval left) 0 ↔ symbol.Holds (e.eval t) (e.eval argument) := by
  obtain ⟨-, addend, hplace, hvalue, hfactors⟩ := factorsAt_value (e := e) hf
  cases restterm with
  | none =>
    -- the only term would be a domain term, which has no second factor
    exfalso
    obtain ⟨s', d', ts, hhead⟩ := getTerms_head (M := M) .addition left
    have hlen := restTerm_none hrest
    rw [hhead] at hlen hplace
    obtain rfl : ts = [] := by simpa using hlen
    cases place with
    | zero =>
      cases hplace
      rw [getTerms] at hfactors
      cases hfactors
    | succ place => simp at hplace
  | some rest =>
    have hsum := restTerm_value (e := e) (Nat.zero_le place) hrest hplace
    rw [getTerms_total, Option.elim_some, Option.elim_none, zero_add, hvalue, ← hc] at hsum
    rw [← hsum, add_comm]
    exact isolate_holds hr _

theorem solveOccurrence_holds {n : ℕ} {symbol : StdPred} {left right argument inverted t : FOBDDTerm V F G S}
    {occ inv : ℕ × ℕ}
    (hr : M.solveOccurrence n symbol right argument inverted (M.getTerms .addition left) occ inv = some (some t))
    (hinv : e.eval inverted = -e.eval argument) :
    symbol.Holds (e.eval left) 0 ↔ symbol.Holds (e.eval t) (e.eval argument) := by
  unfold solveOccurrence at hr
  split_ifs at hr with hcount hocc hin
  · cases hr
  · split at hr
    · rename_i s constant factor hf
      simp only [Option.bind_eq_bind, Option.bind_eq_some_iff] at hr
      obtain ⟨rest, hrest, hr⟩ := hr
      obtain ⟨rfl, -⟩ := factorsAt_value (e := e) hf
      exact isolated_holds hf rfl hrest hr
    · cases hr
  · split at hr
    · rename_i s constant factor hf
      split_ifs at hr with hne
      · cases hr
      have hne : factor = argument := not_not.mp hne
      simp only [Option.bind_eq_bind, Option.bind_eq_some_iff] at hr
      obtain ⟨rest, hrest, hr⟩ := hr
      obtain ⟨heq, -⟩ := factorsAt_value (e := e) hf
      refine isolated_holds hf ?_ hrest hr
      -- the argument is its own inverse
      rw [← heq, hne] at hinv
      have hzero : e.eval argument = 0 := self_eq_neg.mp hinv
      rw [hne, hzero, mul_zero, mul_zero]
    · cases hr
  · cases hr

theorem solveSum_holds {n : ℕ} {symbol : StdPred} {left right argument t : FOBDDTerm V F G S}
    (hr : M.solveSum n symbol left right argument = some (some t)) :
    symbol.Holds (e.eval left) (e.eval right) ↔ symbol.Holds (e.eval t) (e.eval argument) := by
  unfold solveSum at hr
  split_ifs at hr with hzero
  simp only [Option.bind_eq_bind, Option.bind_eq_some_iff] at hr
  obtain ⟨inverted, hinv, hr⟩ := hr
  rw [isZero_value (Bool.of_not_eq_false hzero)]
  exact solveOccurrence_holds hr (invert_value hinv)

theorem moved_holds {plus minus : K} (symbol : StdPred) (l r : K) (hm : minus = -r) (hp : plus = l + minus) :
    symbol.Holds plus 0 ↔ symbol.Holds l r := by
  subst hm hp
  rw [← sub_eq_add_neg]
  cases symbol
  · exact sub_eq_zero
  · exact sub_neg
  · exact sub_pos

-- the kernel that is made holds when the comparison does, and has no number at its right hand side but zero
def KernelFor (e : Valuation V F G S K) (symbol : StdPred) (left right : FOBDDTerm V F G S) :
    Bool ⊕ FOBDDKernel V F G S → Prop
  | .inl b => b = true ↔ symbol.Holds (e.eval left) (e.eval right)
  | .inr .other => False
  | .inr (.comparison symbol' _ left' right') =>
    (symbol'.Holds (e.eval left') (e.eval right') ↔ symbol.Holds (e.eval left) (e.eval right)) ∧
      (M.isSubsort (M.sort right') M.floatsort = true → isZero right' = true)

omit [IsStrictOrderedRing K] [DecidableEq V] [DecidableEq F] [DecidableEq G] [DecidableEq S] in
theorem KernelFor.of_iff {symbol symbol' : StdPred} {left right left' right' : FOBDDTerm V F G S}
    {r : Bool ⊕ FOBDDKernel V F G S} (h : M.KernelFor e symbol left right r)
    (hiff : symbol.Holds (e.eval left) (e.eval right) ↔ symbol'.Holds (e.eval left') (e.eval right')) :
    M.KernelFor e symbol' left' right' r := by
  rcases r with b | (_ | _)
  · exact h.trans hiff
  · exact ⟨h.1.trans hiff, h.2⟩
  · exact h

theorem solve_holds {rewriteArithmetic : Bool} {n : ℕ} {symbol : StdPred} {sort : S}
    {left right argument t : FOBDDTerm V F G S}
    (hr : M.solve rewriteArithmetic n (.comparison symbol sort left right) argument = some (some t)) :
    symbol.Holds (e.eval left) (e.eval right) ↔ symbol.inverted.Holds (e.eval argument) (e.eval t) := by
  rw [StdPred.inverted_holds]
  simp only [solve] at hr
  split_ifs at hr with h1 h2 h3 h4 h5 h6
  · cases hr
  · cases hr
    obtain ⟨rfl, -⟩ := h2
    subst h3
    exact eq_comm
  · cases hr
  · cases hr
    rw [h4.1]
  · cases hr
  · cases hr
  · exact solveSum_holds hr

-- all variables are reals, in the order of their numbers
def reals : FuncTerms ℕ Empty Empty ℕ where
  natsort := 0
  intsort := 1
  floatsort := 2
  isSubsort s s' := decide (s ≤ s')
  resolve s s' := some (max s s')
  varSort _ := 2
  funcSort f := nomatch f
  aggSort g := nomatch g
  before
    | .var v, .var v' => decide (v < v')
    | _, _ => false
  setContains g := nomatch g

-- -2 * x + y < 0 is x > y * 1/2, for x = 3 and y = 5
theorem solve_negative :
    let e : Valuation ℕ Empty Empty ℕ ℚ := ⟨fun v => 2 * v + 3, fun _ _ => 0, nofun, nofun⟩
    let left := .arith .addition .float
      (.arith .multiplication .float (.domain 1 (.int (-2))) (.var 0)) (.var 1)
    StdPred.lt.Holds (e.eval left) (e.eval (.domain 0 (.int 0))) ↔
      StdPred.gt.Holds (e.eval (.var 0))
        (e.eval (.arith .multiplication .float (.domain 2 (.double (1 / 2))) (.var 1))) :=
  let e : Valuation ℕ Empty Empty ℕ ℚ := ⟨fun v => 2 * v + 3, fun _ _ => 0, nofun, nofun⟩
  @solve_holds _ _ _ _ _ reals _ _ _ _ _ _ _ e true 9 _ 2 _ _ _ _ (by decide +kernel)

end Solve

end FuncTerms

end FoBdd
