import DeclarativeLocalSearch.Theory.CardConstrToFOSolve

set_option linter.unusedSectionVars false

namespace Theory

open Quantified Structure Counting CardStructure

variable {S P F D : Type} [DecidableEq S]

namespace CardConstrToFO

section Numbers

theorem sizeT_succ (k : ℤ) : (sizeT k + 1) % 2 ^ 64 = sizeT (k + 1) := by
  simp only [sizeT]
  omega

-- whether the number of copies is that of the comparison
def Rightly : CompType → ℤ → ℕ∞ → Prop
  | .gt, k, c | .leq, k, c => 0 ≤ k ∨ (sizeT k : ℕ∞) ≤ c
  | .lt, k, c | .geq, k, c => -1 ≤ k ∨ (sizeT (k + 1) : ℕ∞) ≤ c
  | .eq, k, c | .neq, k, c => -1 ≤ k ∨ c ≠ sizeT k

-- the strict bounds are made non-strict
def NoOverflow : CompType → ℤ → Prop
  | .gt, k => inInt (k - 1)
  | .lt, k => inInt (k + 1)
  | .neq, k => inInt (k - 1) ∧ inInt (k + 1)
  | _, _ => True

-- the comparison that the copies make
def solved (sign : SIGN) : CompType → ℤ → ℕ∞ → Prop
  | .gt, k, c => ¬ (sizeT k : ℕ∞) ≤ c
  | .geq, k, c => ¬ (sizeT (k + 1) : ℕ∞) ≤ c
  | .lt, k, c => (sizeT (k + 1) : ℕ∞) ≤ c
  | .leq, k, c => (sizeT k : ℕ∞) ≤ c
  | .eq, k, c => sign.apply ((sizeT k : ℕ∞) ≤ c ∧ ¬ (sizeT (k + 1) : ℕ∞) ≤ c)
  | .neq, k, c => sign.apply ((sizeT (k + 1) : ℕ∞) ≤ c ∨ ¬ (sizeT k : ℕ∞) ≤ c)

-- the places where the sign of the atom is used
def signed : CompType → Bool
  | .eq | .neq => true
  | _ => false

theorem sizeT_le_iff {k : ℤ} (hk : k < 2 ^ 64) (c : ℕ∞) :
    ((sizeT k : ℕ∞) ≤ c ↔ (k.toNat : ℕ∞) ≤ c) ↔ (0 ≤ k ∨ (sizeT k : ℕ∞) ≤ c) := by
  rcases Int.lt_or_le k 0 with hneg | hpos
  · have hzero : ((k.toNat : ℕ∞) ≤ c) = True := by
      rw [Int.toNat_of_nonpos (Int.le_of_lt hneg), Nat.cast_zero]
      exact eq_true (zero_le)
    rw [hzero, iff_true, or_iff_right (Int.not_le.mpr hneg)]
  · have hsize : sizeT k = k.toNat := by rw [sizeT, Int.emod_eq_of_lt hpos hk]
    rw [hsize]
    exact iff_of_true Iff.rfl (Or.inl hpos)

theorem between_iff (m : ℕ) (c : ℕ∞) : (m : ℕ∞) ≤ c ∧ ¬ ((m + 1 : ℕ) : ℕ∞) ≤ c ↔ (m : ℕ∞) = c := by
  induction c with
  | top => exact iff_of_false (fun h => h.2 le_top) (ENat.natCast_ne_top m)
  | coe n =>
    rw [Nat.cast_le, Nat.cast_le, Nat.cast_inj]
    omega

theorem sizeT_between_iff {k : ℤ} (hk : inInt k) (c : ℕ∞) :
    ((sizeT k : ℕ∞) ≤ c ∧ ¬ (sizeT (k + 1) : ℕ∞) ≤ c ↔ 0 ≤ k ∧ (k.toNat : ℕ∞) = c) ↔
      (-1 ≤ k ∨ c ≠ sizeT k) := by
  obtain ⟨hlow, hhigh⟩ := hk
  by_cases hminus : k = -1
  · have hzero : sizeT (k + 1) = 0 := by
      rw [hminus]
      rfl
    rw [hzero, Nat.cast_zero]
    exact iff_of_true (iff_of_false (fun h => h.2 (zero_le)) fun h => by omega) (Or.inl (by omega))
  · have hsucc : sizeT (k + 1) = sizeT k + 1 := by
      simp only [sizeT]
      omega
    rw [hsucc, between_iff]
    rcases Int.lt_or_le k 0 with hneg | hpos
    · have hleft : ¬ (0 ≤ k ∧ (k.toNat : ℕ∞) = c) := fun h => absurd h.1 (Int.not_le.mpr hneg)
      have hright : ¬ -1 ≤ k := by omega
      rw [iff_false_right hleft, or_iff_right hright]
      exact not_congr eq_comm
    · have hsize : sizeT k = k.toNat := by
        simp only [sizeT]
        omega
      rw [hsize, and_iff_right hpos]
      exact iff_of_true Iff.rfl (Or.inl (by omega))

theorem apply_iff {p q r : Prop} (h : (p ↔ q) ↔ r) (sign : SIGN) :
    ((p ↔ sign.apply q) ↔ (r ↔ sign = .pos)) ∧ ((sign.apply p ↔ sign.apply q) ↔ r) := by
  cases sign with
  | pos => exact ⟨h.trans (iff_true_right rfl).symm, h⟩
  | neg =>
    refine ⟨?_, not_iff_not.trans h⟩
    rw [iff_false_right fun hsign => SIGN.noConfusion hsign, ← h, SIGN.apply]
    tauto

theorem solved_iff {c : CompType} {k : ℤ} (hk : inInt k) (sign : SIGN) (n : ℕ∞) :
    (solved sign c k n ↔ sign.apply (compares c k n)) ↔
      (Rightly c k n ↔ signed c = true ∨ sign = .pos) := by
  have hle := sizeT_le_iff (k := k) (by have := hk.2; omega) n
  have hlt := sizeT_le_iff (k := k + 1) (by have := hk.2; omega) n
  have hnonneg : 0 ≤ k + 1 ↔ -1 ≤ k := by omega
  have hbetween := sizeT_between_iff hk n
  rw [hnonneg] at hlt
  cases c <;> simp only [solved, compares, Rightly, signed, Bool.false_eq_true, false_or, true_or, iff_true]
  case lt => exact (apply_iff hlt sign).1
  case leq => exact (apply_iff hle sign).1
  case gt => exact (apply_iff (not_iff_not.trans hle) sign).1
  case geq => exact (apply_iff (not_iff_not.trans hlt) sign).1
  case eq => exact (apply_iff hbetween sign).2
  case neq =>
    have hor : (sizeT (k + 1) : ℕ∞) ≤ n ∨ ¬ (sizeT k : ℕ∞) ≤ n ↔
        ¬ ((sizeT k : ℕ∞) ≤ n ∧ ¬ (sizeT (k + 1) : ℕ∞) ≤ n) := by
      rw [not_and_or, not_not, or_comm]
    have hneq := apply_iff (not_iff_not.trans hbetween) sign
    rw [← hor] at hneq
    exact hneq.2

end Numbers

section Solve

variable {I : Structure S P F D} {M : MachineIntegers D} {n : ℕ} {s : QuantSetExpr S P F D}

theorem freeVars_lt (h : ∀ v ∈ s.freeVars, v.id < n) {m : ℕ} (hm : n ≤ m) : ∀ v ∈ s.freeVars, v.id < m :=
  fun v hv => Nat.lt_of_lt_of_le (h v hv) hm

theorem solveLesser_holds (k : ℤ) (h : ∀ v ∈ s.freeVars, v.id < n) (e : Variable S → D) :
    I.holds (solveLesser (sizeT k) s n).1 e ↔ ¬ (sizeT (k + 1) : ℕ∞) ≤ count I s e := by
  rw [solveLesser, holds_negate, solveGreater_holds _ _ h, sizeT_succ]

theorem solveLesser_free (I : Structure S P F D) (b : ℕ) (s : QuantSetExpr S P F D) :
    n ≤ (solveLesser b s n).2 ∧ ∀ v ∈ (solveLesser b s n).1.freeVars, v ∈ s.freeVars := by
  rw [solveLesser, freeVars_negate]
  exact solveGreater_free I _ s

theorem noOverflow_int (M : MachineIntegers D) {c : CompType} {k : ℤ} (h : NoOverflow c k) :
    match c with
    | .gt => M.int (k - 1) = k - 1
    | .lt => M.int (k + 1) = k + 1
    | .neq => M.int (k - 1) = k - 1 ∧ M.int (k + 1) = k + 1
    | _ => True := by
  cases c with
  | gt => exact if_pos h
  | lt => exact if_pos h
  | neq => exact ⟨if_pos h.1, if_pos h.2⟩
  | _ => trivial

theorem cardinality_solve_holds (sign : SIGN) {c : CompType} {k : ℤ} (hint : NoOverflow c k)
    (h : ∀ v ∈ s.freeVars, v.id < n) (e : Variable S → D) :
    I.holds (solve M sign c k s n).1 e ↔ solved sign c k (count I s e) := by
  have hpair : ∀ (conj : Bool) (f g : Formula S P F D), I.holds (.bool sign conj [f, g]) e ↔
      sign.apply (if conj then I.holds f e ∧ I.holds g e else I.holds f e ∨ I.holds g e) := fun conj f g => by
    rw [holds_bool_iff]
    cases conj <;> simp [eachOf]
  have hbelow := fun m => freeVars_lt h (m := m)
  replace hint := noOverflow_int M hint
  cases c with
  | lt => rw [solve, hint, solveGreater_holds _ _ h, solved]
  | leq => rw [solve, solveGreater_holds _ _ h, solved]
  | gt => rw [solve, hint, solveLesser_holds _ h, sub_add_cancel, solved]
  | geq => rw [solve, solveLesser_holds _ h, solved]
  | eq =>
    rw [solve, hpair, solveGreater_holds _ _ h, solveLesser_holds _ (hbelow _ (solveGreater_free I _ s).1),
      if_pos rfl, solved]
  | neq =>
    rw [solve, hpair, hint.1, hint.2, solveGreater_holds _ _ h, solveLesser_holds _ (hbelow _ (solveGreater_free I _ s).1), sub_add_cancel,
      if_neg Bool.false_ne_true, solved]

theorem solve_free (I : Structure S P F D) (sign : SIGN) (c : CompType) (k : ℤ) :
    n ≤ (solve M sign c k s n).2 ∧ ∀ v ∈ (solve M sign c k s n).1.freeVars, v ∈ s.freeVars := by
  have hpair : ∀ (conj : Bool) {f g : Formula S P F D}, (∀ v ∈ f.freeVars, v ∈ s.freeVars) →
      (∀ v ∈ g.freeVars, v ∈ s.freeVars) →
      ∀ v ∈ (Formula.bool sign conj [f, g]).freeVars, v ∈ s.freeVars := by
    intro conj f g hf hg v hv
    simp only [Formula.freeVars, formulasFreeVars, List.append_nil, List.mem_append] at hv
    exact hv.elim (hf v) (hg v)
  cases c with
  | lt => exact solveGreater_free I _ s
  | leq => exact solveGreater_free I _ s
  | gt => exact solveLesser_free I _ s
  | geq => exact solveLesser_free I _ s
  | eq =>
    have ha := solveGreater_free I (sizeT k) s (n := n)
    have hb := solveLesser_free I (sizeT k) s (n := (solveGreater (sizeT k) s n).2)
    exact ⟨Nat.le_trans ha.1 hb.1, hpair true ha.2 hb.2⟩
  | neq =>
    have ha := solveGreater_free I (sizeT (M.int (k + 1))) s (n := n)
    have hb := solveLesser_free I (sizeT (M.int (k - 1))) s
      (n := (solveGreater (sizeT (M.int (k + 1))) s n).2)
    exact ⟨Nat.le_trans ha.1 hb.1, hpair false ha.2 hb.2⟩

end Solve

section Atoms

variable {V : SortedVocabulary S P F} {maxVarsToIntroduce : ℤ} {I : CardStructure S P F D}

theorem compare_invertComp (I : Structure S P F D) (c : CompType) (a b : Option D) :
    I.compare (invertComp c) a b ↔ I.compare c b a := by
  cases c with
  | eq => exact exists_congr fun _ => and_comm
  | neq => exact not_congr (exists_congr fun _ => and_comm)
  | lt => exact exists_comm.trans (exists₂_congr fun _ _ => and_left_comm)
  | gt => exact exists_comm.trans (exists₂_congr fun _ _ => and_left_comm)
  | leq => exact not_congr (exists_comm.trans (exists₂_congr fun _ _ => and_left_comm))
  | geq => exact not_congr (exists_comm.trans (exists₂_congr fun _ _ => and_left_comm))

theorem holds_comparisonPredicate (I : Structure S P F D) {sign : SIGN} {symbol : PFSymbol S P F}
    (h : isComparisonPredicate symbol = true) (l r : Term S P F D) (e : Variable S → D) :
    I.holds (.pred sign symbol [l, r]) e ↔
      I.compare (getComparison sign symbol) (I.value l e) (I.value r e) := by
  have hsort : ∀ (c : CompType) (sort : S), symbol = c.symbol sort → sign = c.sign →
      (I.holds (.pred sign symbol [l, r]) e ↔ I.compare c (I.value l e) (I.value r e)) := by
    rintro c sort rfl rfl
    exact holds_comparison c sort l r e
  cases symbol with
  | eq s => cases sign; exacts [hsort .eq s rfl rfl, hsort .neq s rfl rfl]
  | lt s => cases sign; exacts [hsort .lt s rfl rfl, hsort .geq s rfl rfl]
  | gt s => cases sign; exacts [hsort .gt s rfl rfl, hsort .leq s rfl rfl]
  | sort s => exact absurd h Bool.false_ne_true
  | predicate p => exact absurd h Bool.false_ne_true
  | function f => exact absurd h Bool.false_ne_true

theorem mem_freeVars_agg {sign : SIGN} {bound : Term S P F D} {comp : CompType} {g : AggFunction}
    {sets : List (QuantSetExpr S P F D)} {v : Variable S} :
    v ∈ (Formula.agg sign bound comp g sets).freeVars ↔ v ∈ bound.freeVars ∨ v ∈ setsFreeVars sets := by
  rw [Formula.freeVars, List.mem_append]

def comparesCard (M : MachineIntegers D) (symbol : PFSymbol S P F) : List (Term S P F D) → Bool
  | [l, r] => isComparisonPredicate symbol && (M.isCard l || M.isCard r)
  | _ => false

theorem cardOf_cases (M : MachineIntegers D) (t : Term S P F D) :
    (M.isCard t = false ∧ M.cardOf t = none) ∨
      ∃ g sets, t = .agg g sets ∧ M.isCard t = true ∧ M.cardOf t = some (g, sets) := by
  cases t with
  | agg g sets =>
    rw [MachineIntegers.cardOf]
    cases h : M.isCard (.agg g sets) with
    | false => exact Or.inl ⟨rfl, rfl⟩
    | true => exact Or.inr ⟨g, sets, rfl, rfl, rfl⟩
  | _ => exact Or.inl ⟨rfl, rfl⟩

theorem aggForm_cases (M : MachineIntegers D) (sign : SIGN) (symbol : PFSymbol S P F)
    (args : List (Term S P F D)) :
    (comparesCard M symbol args = false ∧ aggForm M sign symbol args = .pred sign symbol args) ∨
      comparesCard M symbol args = true ∧
      ∃ bound comp g sets, aggForm M sign symbol args = .agg sign bound comp g sets ∧
        (∀ v, v ∈ (Formula.agg sign bound comp g sets).freeVars ↔ v ∈ termsFreeVars args) ∧
        ∀ (I : Structure S P F D) e, I.holds (.pred sign symbol args) e ↔
          I.compare comp (I.value bound e) (I.value (.agg g sets) e) := by
  unfold aggForm
  split
  · rename_i l r
    cases hcomparison : isComparisonPredicate symbol with
    | false => exact Or.inl ⟨by rw [comparesCard, hcomparison, Bool.false_and], rfl⟩
    | true =>
      rcases cardOf_cases M l with ⟨hl, hcl⟩ | ⟨g, sets, rfl, hl, hcl⟩
      · rcases cardOf_cases M r with ⟨hr, hcr⟩ | ⟨g, sets, rfl, hr, hcr⟩
        · simp only [hcl, hcr, if_true, comparesCard, hl, hr]
          exact Or.inl ⟨by simp, trivial⟩
        · simp only [hcl, hcr, if_true, comparesCard, hr]
          refine Or.inr ⟨by simp [hcomparison], l, _, g, sets, rfl, fun v => ?_, fun I e => ?_⟩
          · rw [mem_freeVars_agg]
            simp [termsFreeVars, Term.freeVars]
          · rw [holds_comparisonPredicate I hcomparison]
      · simp only [hcl, if_true, comparesCard, hl]
        refine Or.inr ⟨by simp [hcomparison], r, _, g, sets, rfl, fun v => ?_, fun I e => ?_⟩
        · rw [mem_freeVars_agg]
          simp [termsFreeVars, Term.freeVars, or_comm]
        · rw [holds_comparisonPredicate I hcomparison, compare_invertComp]
  · rename_i hnot
    refine Or.inl ⟨?_, rfl⟩
    unfold comparesCard
    split
    · exact absurd rfl (hnot _ _)
    · rfl

theorem converted_eq {M : MachineIntegers D} {bound : Term S P F D} {g : AggFunction}
    {sets : List (QuantSetExpr S P F D)} {k : ℤ} {s : QuantSetExpr S P F D}
    (h : converted V M maxVarsToIntroduce bound g sets = some (k, s)) :
    ∃ sort d, bound = .dom sort d ∧ g = .card ∧ sets = [s] ∧ M.asInt d = some k := by
  unfold converted at h
  split at h
  · split at h
    · rename_i hd
      split_ifs at h
      obtain ⟨rfl, rfl⟩ := Prod.mk.inj (Option.some.inj h)
      exact ⟨_, _, rfl, rfl, rfl, hd⟩
    · exact absurd h nofun
  · exact absurd h nofun

theorem solved_unsigned_iff {c : CompType} {k : ℤ} (hk : inInt k) (sign : SIGN) (n : ℕ∞) :
    (solved sign c k n ↔ compares c k n) ↔ (Rightly c k n ↔ (signed c = true → sign = .pos)) := by
  have hpos := solved_iff (c := c) hk .pos n
  rw [iff_true_right (Or.inr rfl)] at hpos
  have happly := fun h : (solved .pos c k n ↔ compares c k n) ↔ Rightly c k n =>
    (apply_iff ((iff_comm.trans h)) sign).1
  have hsigned := fun h => iff_comm.trans ((happly h).trans
    (iff_congr Iff.rfl (imp_iff_right (rfl : true = true)).symm))
  have hfalse : false = true → sign = .pos := fun h => absurd h Bool.false_ne_true
  have hunsigned := fun h : (solved .pos c k n ↔ compares c k n) ↔ Rightly c k n =>
    h.trans (iff_true_right hfalse).symm
  cases c with
  | eq => exact hsigned hpos
  | neq => exact hsigned hpos
  | lt => exact hunsigned hpos
  | leq => exact hunsigned hpos
  | gt => exact hunsigned hpos
  | geq => exact hunsigned hpos

section Exactly

variable {sign : SIGN} {bound : Term S P F D} {comp : CompType} {g : AggFunction}
  {sets : List (QuantSetExpr S P F D)} {k : ℤ} {s : QuantSetExpr S P F D} {n : ℕ}

theorem freeVars_of_converted (h : converted V I.machine maxVarsToIntroduce bound g sets = some (k, s))
    {v : Variable S} (hv : v ∈ s.freeVars) : v ∈ (Formula.agg sign bound comp g sets).freeVars := by
  obtain ⟨sort, d, rfl, rfl, rfl, -⟩ := converted_eq h
  rw [mem_freeVars_agg, setsFreeVars]
  exact Or.inr (List.mem_append_left _ hv)

theorem holds_converted (h : converted V I.machine maxVarsToIntroduce bound g sets = some (k, s))
    (e : Variable S → D) : I.holds (.agg sign bound comp g sets) e ↔
      sign.apply (compares comp k (count I.toStructure s e)) := by
  obtain ⟨sort, d, rfl, rfl, rfl, hd⟩ := converted_eq h
  exact holds_agg_card sign comp sort hd s e

theorem inInt_converted (h : converted V I.machine maxVarsToIntroduce bound g sets = some (k, s)) :
    inInt k := by
  obtain ⟨-, d, -, -, -, hd⟩ := converted_eq h
  exact I.machine.inInt_asInt d k hd

end Exactly

end Atoms

section Meets

variable (V : SortedVocabulary S P F) (M : MachineIntegers D) (maxVarsToIntroduce : ℤ)

def Nonneg : CompType → ℤ → Prop
  | .gt, k | .leq, k => 0 ≤ k
  | _, k => -1 ≤ k

theorem Nonneg.rightly {c : CompType} {k : ℤ} (h : Nonneg c k) (n : ℕ∞) : Rightly c k n := by
  cases c <;> exact Or.inl h

def HasVariable : QuantSetExpr S P F D → Prop
  | .mk vars _ _ => vars ≠ []

-- when the copies are right, and the sign is used once
def Meets : Formula S P F D → Prop
  | .pred sign symbol args =>
    match aggForm M sign symbol args with
    | .agg _ bound comp g sets =>
      match converted V M maxVarsToIntroduce bound g sets with
      | some (k, s) =>
        HasVariable s ∧ NoOverflow comp k ∧ Nonneg comp k ∧ (signed comp = true → sign = .pos)
      | none => sign = .pos
    | _ => True
  | .agg sign bound comp g sets =>
    match converted V M maxVarsToIntroduce bound g sets with
    | some (k, s) =>
      HasVariable s ∧ NoOverflow comp k ∧ Nonneg comp k ∧ (signed comp = true ∨ sign = .pos)
    | none => True
  | _ => True

-- a chain, when the comparisons of it do
def ChainMeets : Formula S P F D → Prop
  | .eqChain sign conj comps terms => terms.any M.isCard = true → ∀ n,
    (unchainedVisitor V M maxVarsToIntroduce).visited (Meets V M maxVarsToIntroduce)
      ((splitComparisonChains V none).visit (.eqChain sign conj comps terms) n).1
  | f => Meets V M maxVarsToIntroduce f

def VisitedMeets (f : Formula S P F D) : Prop :=
  (visitor V M maxVarsToIntroduce).visited (ChainMeets V M maxVarsToIntroduce) f

end Meets

section Sound

variable {V : SortedVocabulary S P F} {maxVarsToIntroduce : ℤ} {I : CardStructure S P F D}

theorem safe_anySymbol (I : Structure S P F D) :
    (∀ (t : Term S P F D) e, t.safe I anySymbol e) ∧ (∀ (s : QuantSetExpr S P F D) e, s.safe I anySymbol e) ∧
      ∀ (f : Formula S P F D) outer e, f.safe I anySymbol outer e := by
  have chain : ∀ {comps : List CompType} {ts : List (Term S P F D)} {e : Variable S → D},
      (∀ t ∈ ts, ∀ e, t.safe I anySymbol e) → chainSafe I anySymbol comps ts e := by
    intro comps ts e h
    induction ts generalizing comps with
    | nil => cases comps <;> trivial
    | cons l ts ih =>
      obtain ⟨hl, hts⟩ := List.forall_mem_cons.mp h
      cases ts with
      | nil => cases comps <;> trivial
      | cons r ts =>
        cases comps with
        | nil => trivial
        | cons c cs => exact ⟨⟨hl e, hts r List.mem_cons_self e⟩, ih hts⟩
  refine Formula.induct ?_ ?_ ?_ ?_ ?_ ?_ ?_ ?_ ?_ ?_ ?_
  · exact fun v e => trivial
  · exact fun f args ih e => termsSafe_iff.mpr fun t ht => ih t ht e
  · exact fun s d e => trivial
  · exact fun g ss ih e => setsSafe_iff.mpr fun s hs => ih s hs e
  · exact fun vars c t ihc iht e a => ⟨ihc .pos _, iht _⟩
  · exact fun sign symbol args ih outer e => ⟨termsSafe_iff.mpr fun t ht => ih t ht e, fun _ => trivial⟩
  · exact fun sign conj comps ts ih outer e => chain ih
  · exact fun sign l r ihl ihr outer e => ⟨⟨ihl .pos e, ihl .neg e⟩, ihr .pos e, ihr .neg e⟩
  · exact fun sign conj fs ih outer e => formulasSafe_iff.mpr fun f hf => ih f hf _ e
  · exact fun sign q vars f ih outer e a => ih _ _
  · exact fun sign b comp g ss ihb ih outer e => ⟨ihb e, setsSafe_iff.mpr fun s hs => ih s hs e⟩

theorem keeps_of_holds {I : Structure S P F D} {f f' : Formula S P F D}
    (free : ∀ v ∈ f'.freeVars, v ∈ f.freeVars) (holds : ∀ e, I.holds f' e ↔ I.holds f e) :
    (Formula.polar I anySymbol).Keeps f f' :=
  ⟨free, funext fun e => polar_ext (holds e) fun outer =>
    iff_of_true ((safe_anySymbol I).2.2 f' outer e) ((safe_anySymbol I).2.2 f outer e)⟩

theorem convert_agg_keeps {sign : SIGN} {bound : Term S P F D} {comp : CompType} {g : AggFunction}
    {sets : List (QuantSetExpr S P F D)} {k : ℤ} {s : QuantSetExpr S P F D} {n : ℕ}
    (hconverted : converted V I.machine maxVarsToIntroduce bound g sets = some (k, s))
    (hbelow : ∀ v ∈ (Formula.agg sign bound comp g sets).freeVars, v.id < n)
    (h : NoOverflow comp k ∧ Nonneg comp k ∧ (signed comp = true ∨ sign = .pos)) :
    n ≤ (solve I.machine sign comp k s n).2 ∧
      (Formula.polar I.toStructure anySymbol).Keeps (.agg sign bound comp g sets)
        (solve I.machine sign comp k s n).1 := by
  obtain ⟨hint, hnonneg, hsign⟩ := h
  have hfree : ∀ v ∈ s.freeVars, v.id < n := fun v hv =>
    hbelow v (freeVars_of_converted hconverted hv)
  obtain ⟨hle, hsub⟩ := solve_free (n := n) (M := I.machine) (s := s) I.toStructure sign comp k
  refine ⟨hle, keeps_of_holds (fun v hv => freeVars_of_converted hconverted (hsub v hv)) fun e => ?_⟩
  rw [cardinality_solve_holds sign hint hfree, holds_converted hconverted]
  exact (solved_iff (inInt_converted hconverted) sign _).mpr (iff_of_true (hnonneg.rightly _) hsign)

theorem convert_pred_keeps {sign : SIGN} {symbol : PFSymbol S P F} {args : List (Term S P F D)}
    {bound : Term S P F D} {comp : CompType} {g : AggFunction} {sets : List (QuantSetExpr S P F D)} {k : ℤ}
    {s : QuantSetExpr S P F D} {n : ℕ}
    (hconverted : converted V I.machine maxVarsToIntroduce bound g sets = some (k, s))
    (hfree : ∀ v, v ∈ (Formula.agg sign bound comp g sets).freeVars ↔ v ∈ termsFreeVars args)
    (hholds : ∀ e, I.holds (.pred sign symbol args) e ↔
      I.compare comp (I.value bound e) (I.value (.agg g sets) e))
    (hbelow : ∀ v ∈ termsFreeVars args, v.id < n) (hint : NoOverflow comp k) :
    (n ≤ (solve I.machine sign comp k s n).2 ∧
      ∀ v ∈ (solve I.machine sign comp k s n).1.freeVars, v ∈ termsFreeVars args) ∧
      ∀ e, (I.holds (solve I.machine sign comp k s n).1 e ↔ I.holds (.pred sign symbol args) e) ↔
        (Rightly comp k (count I.toStructure s e) ↔ (signed comp = true → sign = .pos)) := by
  have hset : ∀ v ∈ s.freeVars, v ∈ termsFreeVars args := fun v hv =>
    (hfree v).mp (freeVars_of_converted hconverted hv)
  have hs : ∀ v ∈ s.freeVars, v.id < n := fun v hv => hbelow v (hset v hv)
  obtain ⟨hle, hsub⟩ := solve_free (n := n) (M := I.machine) (s := s) I.toStructure sign comp k
  refine ⟨⟨hle, fun v hv => hset v (hsub v hv)⟩, fun e => ?_⟩
  have hagg : I.holds (.agg .pos bound comp g sets) e ↔ SIGN.pos.apply (compares comp k (count I.toStructure s e)) :=
    holds_converted hconverted e
  have hcompares : I.holds (.pred sign symbol args) e ↔ compares comp k (count I.toStructure s e) :=
    (hholds e).trans hagg
  rw [cardinality_solve_holds sign hint hs, hcompares]
  exact solved_unsigned_iff (inInt_converted hconverted) sign _

theorem unchainedVisitor_replace (f : Formula S P F D) (n : ℕ) (h : Meets V I.machine maxVarsToIntroduce f)
    (hstop : stops V I.machine maxVarsToIntroduce f = true)
    (hbelow : (Formula.polar I.toStructure anySymbol).Below n f) :
    n ≤ (convert V I.machine maxVarsToIntroduce f n).2 ∧
      (Formula.polar I.toStructure anySymbol).Keeps f (convert V I.machine maxVarsToIntroduce f n).1 := by
  cases f with
  | pred sign symbol args =>
    rcases aggForm_cases I.machine sign symbol args with ⟨-, hpred⟩ | ⟨-, bound, comp, g, sets, hagg, hfree, hholds⟩
    · rw [stops, hpred] at hstop
      exact absurd hstop Bool.false_ne_true
    · simp only [stops, hagg, Option.isSome_iff_exists, Prod.exists] at hstop
      obtain ⟨k, s, hconverted⟩ := hstop
      simp only [Meets, hagg, hconverted] at h
      simp only [convert, hagg, hconverted]
      obtain ⟨⟨hle, hsub⟩, hiff⟩ := convert_pred_keeps hconverted hfree (hholds I.toStructure) hbelow.1 h.2.1
      exact ⟨hle, keeps_of_holds hsub fun e => (hiff e).mpr (iff_of_true (h.2.2.1.rightly _) h.2.2.2)⟩
  | agg sign bound comp g sets =>
    rw [stops, Option.isSome_iff_exists, Prod.exists] at hstop
    obtain ⟨k, s, hconverted⟩ := hstop
    simp only [Meets, hconverted] at h
    simp only [convert, hconverted]
    exact convert_agg_keeps hconverted hbelow.1 h.2
  | _ => exact absurd hstop Bool.false_ne_true

theorem isCard_visit (W : OverridingVisitor S P F D) (M : MachineIntegers D) (t : Term S P F D) (n : ℕ) :
    M.isCard (W.visitTerm t n).1 = M.isCard t := by
  have hone : ∀ (s : QuantSetExpr S P F D) n, M.isOne (W.visitSet s n).1 = M.isOne s := by
    rintro ⟨vars, condition, term⟩ n
    cases term <;> rfl
  cases t with
  | agg g sets =>
    cases g with
    | sum =>
      have hall : ∀ n, (W.visitSets sets n).1.all M.isOne = sets.all M.isOne := by
        induction sets with
        | nil => exact fun n => rfl
        | cons s ss ih => exact fun n => congrArg₂ (· && ·) (hone s n) (ih _)
      exact hall n
    | _ => rfl
  | _ => rfl

theorem comparesCard_visit (W : OverridingVisitor S P F D) (M : MachineIntegers D) (symbol : PFSymbol S P F)
    (args : List (Term S P F D)) (n : ℕ) :
    comparesCard M symbol (W.visitTerms args n).1 = comparesCard M symbol args := by
  match args with
  | [] => rfl
  | [l] => rfl
  | [l, r] => simp only [OverridingVisitor.visitTerms, comparesCard, isCard_visit]
  | l :: r :: t :: ts => rfl

theorem unchainedVisitor_rebuild (W : OverridingVisitor S P F D) (sign : SIGN) (symbol : PFSymbol S P F)
    (args : List (Term S P F D)) (n : ℕ) (h : Meets V I.machine maxVarsToIntroduce (.pred sign symbol args))
    (hstop : stops V I.machine maxVarsToIntroduce (.pred sign symbol args) = false) :
    (Formula.polar I.toStructure anySymbol).Keeps (.pred sign symbol (W.visitTerms args n).1)
      (aggForm I.machine sign symbol (W.visitTerms args n).1) := by
  rcases aggForm_cases I.machine sign symbol (W.visitTerms args n).1 with
    ⟨-, hpred⟩ | ⟨hcard, bound, comp, g, sets, hagg, hfree, hholds⟩
  · rw [hpred]
    exact Kind.Keeps.refl _
  · rw [comparesCard_visit] at hcard
    have hpos : sign = .pos := by
      rcases aggForm_cases I.machine sign symbol args with ⟨hnot, -⟩ | ⟨-, bound', comp', g', sets', hagg', -⟩
      · exact absurd (hnot.symm.trans hcard) Bool.false_ne_true
      · simp only [stops, hagg', Option.isSome_eq_false_iff, Option.isNone_iff_eq_none] at hstop
        simpa only [Meets, hagg', hstop] using h
    rw [hagg]
    refine keeps_of_holds (fun v hv => (hfree v).mp hv) fun e => ?_
    rw [hholds, holds, hpos]
    exact Iff.rfl

theorem unchainedVisitor_sound : (unchainedVisitor V I.machine maxVarsToIntroduce).Sound
    (Meets V I.machine maxVarsToIntroduce) I.toStructure anySymbol where
  replace := unchainedVisitor_replace
  rebuild := unchainedVisitor_rebuild _

theorem visitor_sound : (visitor V I.machine maxVarsToIntroduce).Sound
    (ChainMeets V I.machine maxVarsToIntroduce) I.toStructure anySymbol where
  replace f n h hstop hbelow := by
    cases f with
    | eqChain sign conj comps terms =>
      obtain ⟨hle, hsplit⟩ := (@splitComparisonChains_sound S P F D _ I.toStructure anySymbol V none
        fun _ _ _ => trivial).keeps.2.2 _ n hbelow
      obtain ⟨hle', hvisit⟩ := unchainedVisitor_sound.keeps.2.2 _ (h hstop n) _
        ((below_firstFree _).mono (Nat.le_max_right _ _))
      exact ⟨Nat.le_trans hle (Nat.le_trans (Nat.le_max_left _ _) hle'), hsplit.trans hvisit⟩
    | pred sign symbol args => exact unchainedVisitor_replace _ n h hstop hbelow
    | agg sign bound comp g sets => exact unchainedVisitor_replace _ n h hstop hbelow
    | equiv sign l r => exact absurd hstop Bool.false_ne_true
    | bool sign conj subs => exact absurd hstop Bool.false_ne_true
    | quant sign q vars f => exact absurd hstop Bool.false_ne_true
  rebuild := unchainedVisitor_rebuild _

end Sound

end CardConstrToFO

end Theory
