import DeclarativeLocalSearch.Theory.CardConstrToFO
import DeclarativeLocalSearch.Theory.NormalFormHolds

set_option linter.unusedSectionVars false

namespace Theory

open Quantified Structure Counting

variable {S P F D : Type} [DecidableEq S]

-- a set has as many elements as its condition has instances
noncomputable def count (I : Structure S P F D) : QuantSetExpr S P F D → (Variable S → D) → ℕ∞
  | .mk vars condition _, e => ENat.card {a : I.Tuple vars // I.holds condition (I.extend e a)}

namespace CardConstrToFO

section Copies

variable {I : Structure S P F D} {n b : ℕ} {vars : List (Variable S)}

theorem mem_copies {w : Variable S} :
    w ∈ copies n vars b ↔ ∃ i < b, ∃ v ∈ vars, copy n vars i v = w := by
  simp [copies]

theorem copy_id_lt {i : ℕ} (hi : i < b) {v : Variable S} (hv : v ∈ vars) :
    (copy n vars i v).id < n + b * firstFree vars := by
  have hmul : (i + 1) * firstFree vars ≤ b * firstFree vars := Nat.mul_le_mul_right _ hi
  have hlt := lt_firstFree hv
  rw [Nat.succ_mul] at hmul
  simp only [copy, fresh]
  omega

theorem copy_injective {i j : ℕ} {v w : Variable S} (hv : v ∈ vars) (hw : w ∈ vars)
    (h : copy n vars i v = copy n vars j w) : i = j ∧ v = w := by
  obtain ⟨hid, hsort⟩ := Variable.mk.inj h
  have hid : i * firstFree vars + v.id = j * firstFree vars + w.id := by omega
  have hmod := congrArg (· % firstFree vars) hid
  have hdiv := congrArg (· / firstFree vars) hid
  have hpos := Nat.zero_lt_of_lt (lt_firstFree hv)
  simp only [Nat.mul_add_mod_self_right, Nat.mod_eq_of_lt (lt_firstFree hv),
    Nat.mod_eq_of_lt (lt_firstFree hw)] at hmod
  simp only [Nat.add_comm (_ * _), Nat.add_mul_div_right _ _ hpos, Nat.div_eq_of_lt (lt_firstFree hv),
    Nat.div_eq_of_lt (lt_firstFree hw), Nat.zero_add] at hdiv
  exact ⟨hdiv, by cases v; cases w; simp_all⟩

-- the i-th copy of the values
def part (A : I.Tuple (copies n vars b)) (i : Fin b) : I.Tuple vars :=
  ⟨fun v => A.1 ⟨copy n vars i v.1, mem_copies.mpr ⟨i, i.2, v.1, v.2, rfl⟩⟩, fun v => A.2 ⟨copy n vars i v.1, _⟩⟩

theorem exists_parts (g : Fin b → I.Tuple vars) : ∃ A : I.Tuple (copies n vars b), part A = g := by
  choose i hi v hv hcopy using fun w : {w // w ∈ copies n vars b} => mem_copies.mp w.2
  refine ⟨⟨fun w => (g ⟨i w, hi w⟩).1 ⟨v w, hv w⟩, fun w => ?_⟩, ?_⟩
  · have hsort : w.1.sort = (v w).sort := by rw [← hcopy w]; rfl
    exact hsort ▸ (g ⟨i w, hi w⟩).2 ⟨v w, hv w⟩
  · funext j
    refine Subtype.ext (funext fun u => ?_)
    have hmem : copy n vars j u.1 ∈ copies n vars b := mem_copies.mpr ⟨j, j.2, u.1, u.2, rfl⟩
    obtain ⟨hj, hu⟩ := copy_injective (hv ⟨_, hmem⟩) u.2 (hcopy ⟨_, hmem⟩)
    simp only [part, hj, hu]

theorem extend_part (e : Variable S → D) (A : I.Tuple (copies n vars b)) (i : Fin b) {v : Variable S}
    (h : v ∉ vars → v.id < n) :
    I.extend e A (renewed (n + i * firstFree vars) vars id v) = I.extend e (part A i) v := by
  by_cases hv : v ∈ vars
  · rw [renewed, if_pos hv, extend_of_mem hv]
    exact extend_of_mem (mem_copies.mpr ⟨i, i.2, v, hv, rfl⟩) e A
  · rw [renewed, if_neg hv, extend_of_not_mem hv, id, extend_of_not_mem]
    rintro hmem
    obtain ⟨j, -, w, -, rfl⟩ := mem_copies.mp hmem
    have hlt := h hv
    simp only [copy, fresh] at hlt
    omega

theorem part_ne_iff (A : I.Tuple (copies n vars b)) (j k : Fin b) (e : Variable S → D) :
    part A j ≠ part A k ↔
      ∃ v ∈ vars, I.extend e A (copy n vars j v) ≠ I.extend e A (copy n vars k v) := by
  have hmem : ∀ (i : Fin b) {v : Variable S}, v ∈ vars → copy n vars i v ∈ copies n vars b :=
    fun i v hv => mem_copies.mpr ⟨i, i.2, v, hv, rfl⟩
  have heq : part A j = part A k ↔ ∀ v, (part A j).1 v = (part A k).1 v :=
    ⟨fun h v => h ▸ rfl, fun h => Subtype.ext (funext h)⟩
  rw [Ne, heq, not_forall]
  constructor
  · rintro ⟨v, hv⟩
    exact ⟨v.1, v.2, by rwa [extend_of_mem (hmem j v.2), extend_of_mem (hmem k v.2)]⟩
  · rintro ⟨v, hv, hne⟩
    rw [extend_of_mem (hmem j hv), extend_of_mem (hmem k hv)] at hne
    exact ⟨⟨v, hv⟩, hne⟩

end Copies

section Conditions

variable {I : Structure S P F D} {n m : ℕ} {vars : List (Variable S)} {condition : Formula S P F D}

abbrev anySymbol : PFSymbol S P F → List (Option D) → Prop := fun _ _ => True

theorem conditions_le (I : Structure S P F D) (is : List ℕ) : m ≤ (conditions vars condition n is m).2 := by
  induction is generalizing m with
  | nil => exact Nat.le_refl m
  | cons i is ih =>
    exact Nat.le_trans ((@clones S P F D _ I anySymbol).2.2 condition _ m).le ih

theorem mem_conditions_free (I : Structure S P F D) {is : List ℕ} {f : Formula S P F D}
    (hf : f ∈ (conditions vars condition n is m).1) {w : Variable S} (hw : w ∈ f.freeVars) :
    ∃ i ∈ is, ∃ v ∈ condition.freeVars, renewed (n + i * firstFree vars) vars id v = w := by
  induction is generalizing m with
  | nil => exact absurd hf List.not_mem_nil
  | cons i is ih =>
    rcases List.mem_cons.mp hf with rfl | hf
    · exact ⟨i, List.mem_cons_self, ((@clones S P F D _ I anySymbol).2.2 condition _ m).free w hw⟩
    · obtain ⟨j, hj, h⟩ := ih hf
      exact ⟨j, List.mem_cons_of_mem i hj, h⟩

theorem conditions_holds {is : List ℕ}
    (h : ∀ i ∈ is, ∀ v ∈ condition.freeVars, (renewed (n + i * firstFree vars) vars id v).id < m)
    (e : Variable S → D) : (∀ f ∈ (conditions vars condition n is m).1, I.holds f e) ↔
      ∀ i ∈ is, I.holds condition fun v => e (renewed (n + i * firstFree vars) vars id v) := by
  induction is generalizing m with
  | nil => exact iff_of_true (fun f hf => absurd hf List.not_mem_nil) fun i hi => absurd hi List.not_mem_nil
  | cons i is ih =>
    obtain ⟨hi, his⟩ := List.forall_mem_cons.mp h
    have hclone := (@clones S P F D _ I anySymbol).2.2 condition (renewed (n + i * firstFree vars) vars id) m
    rw [conditions, List.forall_mem_cons, List.forall_mem_cons,
      ih fun j hj v hv => Nat.lt_of_lt_of_le (his j hj v hv) hclone.le]
    exact and_congr_left' (iff_of_eq (Prod.mk.inj (hclone.meaning hi e)).1)

end Conditions

section Solve

variable {I : Structure S P F D} {n : ℕ}

theorem differ_holds {vars : List (Variable S)} {b : ℕ} (A : I.Tuple (copies n vars b)) (j k : Fin b)
    (e : Variable S → D) : I.holds (differ n vars j k) (I.extend e A) ↔ part A j ≠ part A k := by
  have happlied : ∀ v, I.applied (.eq v.sort)
      [some (I.extend e A (copy n vars j v)), some (I.extend e A (copy n vars k v))] ↔
        I.extend e A (copy n vars j v) = I.extend e A (copy n vars k v) := fun v => by
    rw [applied_pair]
    simp [atom, eq_comm]
  rw [differ, holds_bool_iff, part_ne_iff A j k e]
  simp only [SIGN.apply, eachOf, Bool.false_eq_true, if_false, List.mem_map, exists_exists_and_eq_and, holds,
    values, value, happlied]

theorem allDiffer_holds {vars : List (Variable S)} {b : ℕ} (A : I.Tuple (copies n vars b))
    (e : Variable S → D) :
    (∀ f ∈ allDiffer n vars b, I.holds f (I.extend e A)) ↔ Function.Injective (part A) := by
  have hlist : (∀ f ∈ allDiffer n vars b, I.holds f (I.extend e A)) ↔
      ∀ j k : Fin b, k < j → part A j ≠ part A k := by
    simp only [allDiffer, List.forall_mem_flatMap, List.forall_mem_map, List.mem_range]
    exact ⟨fun h j k hlt => (differ_holds A j k e).mp (h j j.2 k hlt), fun h j hj k hlt =>
      (differ_holds A ⟨j, hj⟩ ⟨k, Nat.lt_trans hlt hj⟩ e).mpr (h ⟨j, hj⟩ ⟨k, Nat.lt_trans hlt hj⟩ hlt)⟩
  rw [hlist]
  refine ⟨fun h j k heq => ?_, fun h j k hlt heq => absurd (h heq) (Fin.ne_of_gt hlt)⟩
  rcases lt_trichotomy j k with hlt | hjk | hlt
  · exact absurd heq.symm (h k j hlt)
  · exact hjk
  · exact absurd heq (h j k hlt)

theorem solveGreater_holds (b : ℕ) (s : QuantSetExpr S P F D) (h : ∀ v ∈ s.freeVars, v.id < n)
    (e : Variable S → D) : I.holds (solveGreater b s n).1 e ↔ (b : ℕ∞) ≤ count I s e := by
  obtain ⟨vars, condition, term⟩ := s
  have hfree : ∀ v ∈ condition.freeVars, v ∉ vars → v.id < n := fun v hv hvar =>
    h v (by simp [QuantSetExpr.freeVars, hv, hvar])
  have hconditions : ∀ A : I.Tuple (copies n vars b),
      (∀ f ∈ (conditions vars condition n (List.range b) (n + b * firstFree vars)).1,
        I.holds f (I.extend e A)) ↔ ∀ i, I.holds condition (I.extend e (part A i)) := fun A => by
    rw [conditions_holds]
    · have hextend : ∀ i : Fin b, I.holds condition
          (fun v => I.extend e A (renewed (n + i * firstFree vars) vars id v)) ↔
            I.holds condition (I.extend e (part A i)) := fun i =>
        iff_of_eq (Prod.mk.inj (@polar_local S P F D _ I anySymbol |>.2.2 condition _ _
          fun v hv => extend_part e A i (hfree v hv))).1
      exact ⟨fun hall i => (hextend i).mp (hall i (List.mem_range.mpr i.2)),
        fun hall i hi => (hextend ⟨i, List.mem_range.mp hi⟩).mpr (hall ⟨i, List.mem_range.mp hi⟩)⟩
    · intro i hi v hv
      rw [renewed]
      split_ifs with hvar
      · exact copy_id_lt (List.mem_range.mp hi) hvar
      · exact Nat.lt_of_lt_of_le (hfree v hv hvar) (Nat.le_add_right _ _)
  have hsplit : I.holds (solveGreater b (.mk vars condition term) n).1 e ↔
      ∃ A : I.Tuple (copies n vars b), (∀ i, I.holds condition (I.extend e (part A i))) ∧
        Function.Injective (part A) := by
    rw [solveGreater, holds_quant_pos]
    refine exists_congr fun A => ?_
    rw [holds_bool_pos, ← hconditions A, ← allDiffer_holds A e]
    exact List.forall_mem_append
  rw [hsplit, count, le_card_iff]
  constructor
  · rintro ⟨A, hholds, hinjective⟩
    exact ⟨fun i => ⟨part A i, hholds i⟩, fun i j h => hinjective (congrArg Subtype.val h)⟩
  · rintro ⟨g, hg⟩
    obtain ⟨A, hA⟩ := exists_parts (n := n) fun i => (g i).1
    refine ⟨A, fun i => ?_, fun i j heq => ?_⟩
    · rw [hA]
      exact (g i).2
    · rw [hA] at heq
      exact hg (Subtype.ext heq)

theorem solveGreater_free (I : Structure S P F D) (b : ℕ) (s : QuantSetExpr S P F D) :
    n ≤ (solveGreater b s n).2 ∧ ∀ v ∈ (solveGreater b s n).1.freeVars, v ∈ s.freeVars := by
  obtain ⟨vars, condition, term⟩ := s
  refine ⟨Nat.le_trans (Nat.le_add_right _ _) (conditions_le I _), fun w hw => ?_⟩
  simp only [solveGreater, Formula.freeVars, List.mem_filter, decide_eq_true_eq] at hw
  obtain ⟨hw, hcopy⟩ := hw
  obtain ⟨f, hf, hw⟩ := mem_formulasFreeVars.mp hw
  rcases List.mem_append.mp hf with hf | hf
  · obtain ⟨i, hi, v, hv, hvw⟩ := mem_conditions_free I hf hw
    rw [renewed] at hvw
    split_ifs at hvw with hvar
    · exact absurd (mem_copies.mpr ⟨i, List.mem_range.mp hi, v, hvar, hvw⟩) hcopy
    · obtain rfl : v = w := hvw
      simp [QuantSetExpr.freeVars, hv, hvar]
  · simp only [allDiffer, List.mem_flatMap, List.mem_map, List.mem_range] at hf
    obtain ⟨j, hj, k, hk, rfl⟩ := hf
    simp only [differ, Formula.freeVars, mem_formulasFreeVars, List.mem_map] at hw
    obtain ⟨-, ⟨v, hv, rfl⟩, hw⟩ := hw
    simp only [Formula.freeVars, termsFreeVars, Term.freeVars, List.mem_append, List.mem_singleton,
      List.not_mem_nil, or_false] at hw
    rcases hw with rfl | rfl
    · exact absurd (mem_copies.mpr ⟨j, hj, v, hv, rfl⟩) hcopy
    · exact absurd (mem_copies.mpr ⟨k, Nat.lt_trans hk hj, v, hv, rfl⟩) hcopy

end Solve

end CardConstrToFO

-- a structure with integers and their order, where a cardinality is the number of instances
structure CardStructure (S P F D : Type) extends Structure S P F D where
  machine : MachineIntegers D
  int : ℤ → D
  card : ℕ∞ → D
  asInt_iff : ∀ d k, machine.asInt d = some k ↔ d = int k ∧ inInt k
  int_injective : Function.Injective int
  less_int : ∀ j k, less (int j) (int k) ↔ j < k
  card_natCast : ∀ n : ℕ, card n = int n
  card_top : ∀ k, card ⊤ ≠ int k
  less_top : ∀ k, less (int k) (card ⊤)
  top_less : ∀ k, ¬ less (card ⊤) (int k)
  aggregate_card : ∀ occurrences, aggregate .card occurrences = some (card (total occurrences))

namespace CardStructure

variable (I : CardStructure S P F D)

def reinterpret (p : P → List D → Prop) (f : F → List D → Option D) : CardStructure S P F D :=
  { I with predicate := p, function := f }

variable {I}

theorem total_occurrences (s : QuantSetExpr S P F D) (e : Variable S → D) :
    total (I.occurrences [s] e) = count I.toStructure s e := by
  obtain ⟨vars, condition, term⟩ := s
  have hvalue := total_card fun a : {a : I.Tuple vars // I.holds condition (I.extend e a)} =>
    I.value term (I.extend e a.1)
  rw [count, ← hvalue]
  refine congrArg total (funext fun d => ?_)
  simp only [occurrences, setOccurrences, add_zero]
  exact ENat.card_congr (Equiv.subtypeSubtypeEquivSubtypeInter _ _).symm

-- a comparison of a bound with the size of a set
def compares : CompType → ℤ → ℕ∞ → Prop
  | .eq, k, c => 0 ≤ k ∧ (k.toNat : ℕ∞) = c
  | .neq, k, c => ¬ (0 ≤ k ∧ (k.toNat : ℕ∞) = c)
  | .lt, k, c => ((k + 1).toNat : ℕ∞) ≤ c
  | .gt, k, c => ¬ (k.toNat : ℕ∞) ≤ c
  | .leq, k, c => (k.toNat : ℕ∞) ≤ c
  | .geq, k, c => ¬ ((k + 1).toNat : ℕ∞) ≤ c

theorem card_eq_iff (k : ℤ) (c : ℕ∞) : I.int k = I.card c ↔ 0 ≤ k ∧ (k.toNat : ℕ∞) = c := by
  induction c with
  | top => exact iff_of_false (fun h => I.card_top k h.symm) fun h => absurd h.2 (ENat.natCast_ne_top _)
  | coe n =>
    rw [I.card_natCast, I.int_injective.eq_iff, Nat.cast_inj]
    omega

theorem int_less_iff (k : ℤ) (c : ℕ∞) : I.less (I.int k) (I.card c) ↔ ((k + 1).toNat : ℕ∞) ≤ c := by
  induction c with
  | top => exact iff_of_true (I.less_top k) le_top
  | coe n =>
    rw [I.card_natCast, I.less_int, Nat.cast_le]
    omega

theorem less_int_iff (k : ℤ) (c : ℕ∞) : I.less (I.card c) (I.int k) ↔ ¬ (k.toNat : ℕ∞) ≤ c := by
  induction c with
  | top => exact iff_of_false (I.top_less k) (not_not_intro le_top)
  | coe n =>
    rw [I.card_natCast, I.less_int, Nat.cast_le]
    omega

theorem compare_iff (c : CompType) (k : ℤ) (n : ℕ∞) :
    I.compare c (some (I.int k)) (some (I.card n)) ↔ compares c k n := by
  cases c <;>
    simp [Structure.compare, compares, card_eq_iff, int_less_iff, less_int_iff, eq_comm]

theorem holds_agg_card (sign : SIGN) (comp : CompType) (sort : S) {d : D} {k : ℤ}
    (hd : I.machine.asInt d = some k) (s : QuantSetExpr S P F D) (e : Variable S → D) :
    I.holds (.agg sign (.dom sort d) comp .card [s]) e ↔
      sign.apply (compares comp k (count I.toStructure s e)) := by
  rw [holds, value, I.aggregate_card, total_occurrences, ((I.asInt_iff d k).mp hd).1]
  exact iff_of_eq (congrArg sign.apply (propext (compare_iff comp k _)))

end CardStructure

end Theory
