import DeclarativeLocalSearch.Generators.InstGenerator
import DeclarativeLocalSearch.Structure.SortElement
import DeclarativeLocalSearch.Theory.Syntax
import DeclarativeLocalSearch.FoBdd.Meaning
import DeclarativeLocalSearch.Foundation.Counting

namespace Generators

open Set Theory

set_option linter.unusedSectionVars false

-- the numbers among the domain elements; doubles are taken without rounding
structure Numbers (D : Type) where
  value : D → ℚ
  createDomElem : ℚ → D
  value_createDomElem : ∀ q, value (createDomElem q) = q

structure AggState {V D : Type} {m : ℕ} (formulagenerators termgenerators : Fin m → InstGenerator V D) where
  result : ℚ
  reset : Bool
  formulagenerators : ∀ i, Object (formulagenerators i).State
  termgenerators : ∀ i, Object (termgenerators i).State

def getEmptySetValue : AggFunction → ℚ
  | .card => 0
  | .sum => 0
  | .prod => 1
  | .max => -SortTables.maxDouble
  | .min => SortTables.maxDouble

-- no result: the number of instantiations is no integer of the machine
def doOperation (func : AggFunction) (result d : ℚ) : Option ℚ :=
  match func with
  | .card => if result + 1 ≤ SortTables.maxInt then some (result + 1) else none
  | .sum => some (result + d)
  | .prod => some (result * d)
  | .max => some (if result > d then result else d)
  | .min => some (if result < d then result else d)

section Next

variable {V D : Type} [DecidableEq V] {m : ℕ} (N : Numbers D) (func : AggFunction)
  (formulagenerators termgenerators : Fin m → InstGenerator V D) (terms : Fin m → V)

-- the rounds of the loop over the instantiations of one formula; an operation that overflows ends it, and then an
-- exception is thrown
def nextRounds (i : Fin m) : ℕ → AggState formulagenerators termgenerators × (V → D) →
    Option (AggState formulagenerators termgenerators × (V → D))
  | 0, _ => none
  | n + 1, (s, v) =>
    if (s.formulagenerators i).atEnd then some (s, v)
    else ((termgenerators i).begin n (s.termgenerators i) v).bind fun t =>
      (if t.1.atEnd then some s.result else doOperation func s.result (N.value (t.2 (terms i)))).bind fun q =>
        ((formulagenerators i).next n (s.formulagenerators i) t.2).bind fun f =>
          nextRounds i n ({ s with result := q
                                   formulagenerators := Function.update s.formulagenerators i f.1
                                   termgenerators := Function.update s.termgenerators i t.1 }, f.2)

def nextFormula (i : Fin m) (n : ℕ) (r : AggState formulagenerators termgenerators × (V → D)) :
    Option (AggState formulagenerators termgenerators × (V → D)) :=
  ((formulagenerators i).begin n (r.1.formulagenerators i) r.2).bind fun f =>
    nextRounds N func formulagenerators termgenerators terms i n
      ({ r.1 with formulagenerators := Function.update r.1.formulagenerators i f.1 }, f.2)

def nextFormulas (n : ℕ) : List (Fin m) → AggState formulagenerators termgenerators × (V → D) →
    Option (AggState formulagenerators termgenerators × (V → D))
  | [], r => some r
  | i :: is, r => (nextFormula N func formulagenerators termgenerators terms i n r).bind (nextFormulas n is)

-- no result: the exception after an overflow
def AggGenerator (left : V) : InstGenerator V D where
  State := AggState formulagenerators termgenerators
  reset _ s v := some ({ s with own.reset := true }, v)
  next n s v :=
    (nextFormulas N func formulagenerators termgenerators terms n (List.finRange m)
      ({ s.own with result := getEmptySetValue func, reset := false }, v)).map fun r =>
        (⟨s.atEnd || !s.own.reset, r.1⟩, Function.update r.2 left (N.createDomElem r.1.result))

end Next

-- With the input variables of R as in u, the generator of a formula goes through the instantiations l, and that of its
-- term has for each of them the value term gives it, if any.
structure FormulaAt {V D : Type} (F G : InstGenerator V D) (c : V) (R W T T' : Set V) (u : V → D) (l : List (W → D))
    (term : (W → D) → Option D) : Prop where
  input : Disjoint R (W ∪ T)
  own : Disjoint (R ∪ W ∪ T) ({c} ∪ T')
  formula : ∀ s v, EqOn v u R → Delivers F R W T l v fun n => F.begin n s v
  term : ∀ s v, EqOn v u R → W.domRestrict v ∈ l →
    Delivers G (R ∪ W) {c} T' ((term (W.domRestrict v)).toList.map fun d _ => d) v fun n => G.begin n s v

section Values

variable {V D : Type} [DecidableEq V] {m : ℕ} {N : Numbers D} {func : AggFunction}
  {formulagenerators termgenerators : Fin m → InstGenerator V D} {terms : Fin m → V} {R : Set V} {u : V → D}

-- the call ends with the result o, or with an exception
def Comes (R : Set V) (u : V → D) (o : Option ℚ)
    (call : ℕ → Option (AggState formulagenerators termgenerators × (V → D))) : Prop :=
  match o with
  | none => Fails call
  | some q => ∃ r, Returns call r ∧ r.1.result = q ∧ EqOn r.2 u R

theorem Comes.bind {o : Option ℚ} {call : ℕ → Option (AggState formulagenerators termgenerators × (V → D))}
    {f : ℕ → AggState formulagenerators termgenerators × (V → D) →
      Option (AggState formulagenerators termgenerators × (V → D))} {g : ℚ → Option ℚ} (h : Comes R u o call)
    (hf : ∀ r : AggState formulagenerators termgenerators × (V → D), EqOn r.2 u R →
      Comes R u (g r.1.result) fun n => f n r) : Comes R u (o.bind g) fun n => (call n).bind (f n) := by
  cases o with
  | none => exact Fails.bind h f
  | some q =>
    obtain ⟨r, hr, rfl, hu⟩ := h
    have hfr := hf r hu
    rw [Option.bind_some]
    cases hg : g r.1.result with
    | none =>
      rw [hg] at hfr
      exact hr.bind_fails hfr
    | some q =>
      rw [hg] at hfr
      obtain ⟨r', hr', hq, hu'⟩ := hfr
      exact ⟨r', hr.bind hr', hq, hu'⟩

theorem Comes.of_returns {α : Type} {o : Option ℚ} {call : ℕ → Option α} {a : α}
    {f : ℕ → α → Option (AggState formulagenerators termgenerators × (V → D))} (hcall : Returns call a)
    (hf : Comes R u o fun n => f n a) : Comes R u o fun n => (call n).bind (f n) := by
  cases o with
  | none => exact hcall.bind_fails hf
  | some q =>
    obtain ⟨r, hr, hq, hu⟩ := hf
    exact ⟨r, hcall.bind hr, hq, hu⟩

theorem Comes.succ {o : Option ℚ} {call call' : ℕ → Option (AggState formulagenerators termgenerators × (V → D))}
    (h : Comes R u o call) (hcall : ∀ n, call' (n + 1) = call n) : Comes R u o call' := by
  cases o with
  | none => exact Fails.succ h hcall
  | some q =>
    obtain ⟨r, hr, hq, hu⟩ := h
    exact ⟨r, hr.succ hcall, hq, hu⟩

def values (N : Numbers D) {W : Set V} (term : (W → D) → Option D) (l : List (W → D)) : List ℚ :=
  l.filterMap fun x => (term x).map N.value

theorem nextRounds_comes {i : Fin m} {W T T' : Set V} {l : List (W → D)} {term : (W → D) → Option D}
    (h : FormulaAt (formulagenerators i) (termgenerators i) (terms i) R W T T' u l term) (l' : List (W → D)) :
    ∀ {s : AggState formulagenerators termgenerators} {v : V → D}, (∀ x ∈ l', x ∈ l) → EqOn v u R →
    Ready (formulagenerators i) R W T l' (s.formulagenerators i) v →
    Comes R u ((values N term l').foldlM (doOperation func) s.result) fun n =>
      nextRounds N func formulagenerators termgenerators terms i n (s, v) := by
  induction l' with
  | nil =>
    intro s v _ hv hready
    have hend : (s.formulagenerators i).atEnd = true := hready
    exact ⟨(s, v), (Returns.of_some _).succ fun n => by simp [nextRounds, hend], rfl, hv⟩
  | cons x l' ih =>
    intro s v hl hv hready
    obtain ⟨hend, rfl, hnext⟩ := hready
    obtain ⟨t, ht, htframe, htready⟩ := h.term (s.termgenerators i) v hv (hl _ List.mem_cons_self)
    have htown : EqOn t.2 v (R ∪ W ∪ T) := off htframe h.own
    obtain ⟨f, hf, hfframe, hfready⟩ := hnext t.2 htown
    have hfu : EqOn f.2 u R := (off hfframe h.input).trans ((htown.mono (by grind)).trans hv)
    have hoperation : (if t.1.atEnd then some s.result else doOperation func s.result (N.value (t.2 (terms i)))) =
        match (term (W.domRestrict v)).map N.value with
        | none => some s.result
        | some d => doOperation func s.result d := by
      cases hterm : term (W.domRestrict v) with
      | none =>
        rw [hterm] at htready
        exact if_pos htready
      | some d =>
        rw [hterm] at htready
        obtain ⟨htend, htvalue, -⟩ := htready
        have htc : t.2 (terms i) = d := congrFun htvalue ⟨terms i, rfl⟩
        rw [htend, htc]
        rfl
    have hfold : (values N term (W.domRestrict v :: l')).foldlM (doOperation func) s.result =
        (match (term (W.domRestrict v)).map N.value with
          | none => some s.result
          | some d => doOperation func s.result d).bind ((values N term l').foldlM (doOperation func)) := by
      rw [values, List.filterMap_cons]
      cases (term (W.domRestrict v)).map N.value <;> rfl
    have hcall : ∀ n, nextRounds N func formulagenerators termgenerators terms i (n + 1) (s, v) =
        ((termgenerators i).begin n (s.termgenerators i) v).bind fun t =>
          (if t.1.atEnd then some s.result else doOperation func s.result (N.value (t.2 (terms i)))).bind fun q =>
            ((formulagenerators i).next n (s.formulagenerators i) t.2).bind fun f =>
              nextRounds N func formulagenerators termgenerators terms i n ({ s with
                result := q
                formulagenerators := Function.update s.formulagenerators i f.1
                termgenerators := Function.update s.termgenerators i t.1 }, f.2) := by
      intro n
      simp [nextRounds, hend]
    refine Comes.succ (Comes.of_returns ht ?_) hcall
    rw [hfold, ← hoperation]
    cases ho : (if t.1.atEnd then some s.result else doOperation func s.result (N.value (t.2 (terms i)))) with
    | none => exact Filter.Eventually.of_forall fun n => rfl
    | some q =>
      simp only [Option.bind_some]
      refine Comes.of_returns hf (ih (s := { s with
        result := q
        formulagenerators := Function.update s.formulagenerators i f.1
        termgenerators := Function.update s.termgenerators i t.1 })
        (fun x hx => hl x (List.mem_cons_of_mem _ hx)) hfu ?_)
      simpa using hfready

theorem nextFormulas_comes {W T T' : Fin m → Set V} {l : ∀ i, List (W i → D)} {term : ∀ i, (W i → D) → Option D}
    (h : ∀ i, FormulaAt (formulagenerators i) (termgenerators i) (terms i) R (W i) (T i) (T' i) u (l i) (term i))
    (is : List (Fin m)) : ∀ {r : AggState formulagenerators termgenerators × (V → D)}, EqOn r.2 u R →
    Comes R u ((is.flatMap fun i => values N (term i) (l i)).foldlM (doOperation func) r.1.result) fun n =>
      nextFormulas N func formulagenerators termgenerators terms n is r := by
  induction is with
  | nil => exact fun {r} hr => ⟨r, .of_some r, rfl, hr⟩
  | cons i is ih =>
    intro r hr
    obtain ⟨f, hf, hframe, hready⟩ := (h i).formula (r.1.formulagenerators i) r.2 hr
    have hfu : EqOn f.2 u R := (off hframe (h i).input).trans hr
    rw [List.flatMap_cons, List.foldlM_append]
    refine Comes.bind (Comes.of_returns hf (nextRounds_comes (s := { r.1 with
      formulagenerators := Function.update r.1.formulagenerators i f.1 }) (h i) (l i) (fun _ => id) hfu ?_))
      fun r' hr' => ih hr'
    simpa using hready

-- the aggregate of the values, with the limits of the doubles for the maximum and the minimum of none
def aggregate (func : AggFunction) (values : Multiset ℚ) : ℚ :=
  match func with
  | .card => values.card
  | .sum => values.sum
  | .prod => values.prod
  | .max => values.fold max (-SortTables.maxDouble)
  | .min => values.fold min SortTables.maxDouble

-- a cardinality is an integer of the machine
def Counted (func : AggFunction) (values : Multiset ℚ) : Prop := func = .card → (values.card : ℤ) ≤ SortTables.maxInt

theorem foldlM_card (l : List ℚ) : ∀ k : ℕ, (k : ℤ) ≤ SortTables.maxInt →
    l.foldlM (doOperation .card) (k : ℚ) =
      if ((k + l.length : ℕ) : ℤ) ≤ SortTables.maxInt then some ((k + l.length : ℕ) : ℚ) else none := by
  induction l with
  | nil =>
    intro k hk
    simp [hk]
  | cons d l ih =>
    intro k hk
    have hcast : (k : ℚ) + 1 ≤ SortTables.maxInt ↔ ((k + 1 : ℕ) : ℤ) ≤ SortTables.maxInt := by
      norm_cast
    have hlength : k + (d :: l).length = k + 1 + l.length := by
      simp only [List.length_cons]
      omega
    rw [List.foldlM_cons, doOperation, hlength]
    by_cases h : ((k + 1 : ℕ) : ℤ) ≤ SortTables.maxInt
    · rw [if_pos (hcast.mpr h), Option.bind_eq_bind, Option.bind_some, ← Nat.cast_add_one, ih (k + 1) h]
    · rw [if_neg (mt hcast.mp h), Option.bind_eq_bind, Option.bind_none, if_neg (by omega)]

open Classical in
theorem foldlM_doOperation (l : List ℚ) : l.foldlM (doOperation func) (getEmptySetValue func) =
    if Counted func l then some (aggregate func l) else none := by
  have hpure : ∀ f : ℚ → ℚ → ℚ, ∀ q, l.foldlM (fun q d => some (f q d)) q = some (l.foldl f q) := by
    intro f
    induction l with
    | nil => exact fun q => rfl
    | cons d l ih => exact fun q => ih (f q d)
  cases func with
  | card =>
    have hcard := foldlM_card l 0 (by decide)
    simpa [Counted, aggregate, getEmptySetValue] using hcard
  | sum =>
    rw [if_pos nofun]
    refine (hpure (· + ·) 0).trans ?_
    rw [aggregate, Multiset.sum_coe, List.sum_eq_foldl]
  | prod =>
    rw [if_pos nofun]
    refine (hpure (· * ·) 1).trans ?_
    rw [aggregate, Multiset.prod_coe, List.prod_eq_foldl]
  | max =>
    rw [if_pos nofun]
    refine (hpure (fun q d => if q > d then q else d) _).trans ?_
    have hmax : (fun q d : ℚ => if q > d then q else d) = max := by
      funext q d
      rw [max_comm, max_def_lt]
    rw [aggregate, Multiset.coe_fold_l, hmax]
    rfl
  | min =>
    rw [if_pos nofun]
    refine (hpure (fun q d => if q < d then q else d) _).trans ?_
    have hmin : (fun q d : ℚ => if q < d then q else d) = min := by
      funext q d
      rw [min_def_lt]
    rw [aggregate, Multiset.coe_fold_l, hmin]
    rfl

-- the value a comparison with the generator's variable sees
def Computes (N : Numbers D) (G : InstGenerator V D) (left : V) (s : Object G.State) (u : V → D) (q : ℚ) : Prop :=
  ∃ r, Returns (fun n => G.begin n s u) r ∧ r.1.atEnd = false ∧ r.2 left = N.createDomElem q

end Values

section Once

-- one instantiation, which w writes
def once (w : (Fin 2 → ℚ) → Fin 2 → ℚ) : InstGenerator (Fin 2) ℚ where
  State := Bool
  reset _ _ v := some (⟨false, false⟩, v)
  next _ s v := some (⟨s.own, true⟩, w v)

theorem once_delivers {w : (Fin 2 → ℚ) → Fin 2 → ℚ} {R W T : Set (Fin 2)} (hw : ∀ v, EqOn (w v) v (W ∪ T)ᶜ)
    {v : Fin 2 → ℚ} {x : W → ℚ} (hx : W.domRestrict (w v) = x) (s : Object Bool) :
    Delivers (once w) R W T [x] v fun n => (once w).begin n s v :=
  ⟨(⟨false, true⟩, w v), .of_some _, hw v, rfl, hx, fun v' _ => ⟨(⟨true, true⟩, w v'), .of_some _, hw v', rfl⟩⟩

def rationals : Numbers ℚ := ⟨id, id, fun _ => rfl⟩

end Once

end Generators

namespace Generators

open Set Theory Tuples FoBdd

inductive Pattern where
  | input
  | output
deriving DecidableEq

-- a variable of the bdd, which has its container's number, with its pattern and its table
structure Position (D : Type) where
  var : ℕ
  pattern : Pattern
  table : Set D

-- what a bdd or a term of it stands for, for values of the variables and the indices
abbrev Bdd (D : Type) := (ℕ → D) → (ℕ → D) → Prop

abbrev BddTerm (D : Type) := (ℕ → D) → (ℕ → D) → Option D

section Create

variable {D : Type}

-- the variable for the index 0, with all higher indices decremented
def substituteIndex {α : Type} (φ : (ℕ → D) → (ℕ → D) → α) (var : ℕ) : (ℕ → D) → (ℕ → D) → α :=
  fun ρ σ => φ ρ (push (ρ var) σ)

-- The sorts are given by their tables. The values of the term are of its sort.
structure QuantSetExpr (D : Type) where
  quantvarsorts : List (Finset D)
  subformula : Bdd D
  subterm : BddTerm D
  sort : Set D
  mem_sort : ∀ ρ σ d, subterm ρ σ = some d → d ∈ sort

-- createFromBDD and createFromKernel, with the number of the first free container; the result has the next one
abbrev Create (D : Type) := Bdd D → List (Position D) → ℕ → InstGenerator ℕ D × ℕ

def addQuantVars : List (Finset D) → List (Position D) → Bdd D → BddTerm D → ℕ →
    List (Position D) × Bdd D × BddTerm D × ℕ
  | [], positions, bdd, term, k => (positions, bdd, term, k)
  | s :: ss, positions, bdd, term, k =>
    addQuantVars ss (positions ++ [⟨k, .output, s⟩]) (substituteIndex bdd k) (substituteIndex term k) (k + 1)

def Position.toInput (p : Position D) : Position D := { p with pattern := .input }

structure SubsetGenerators (D : Type) where
  formulagenerator : InstGenerator ℕ D
  termgenerator : InstGenerator ℕ D
  term : ℕ

variable (createFromBDD createFromKernel : Create D)

-- the variables of a sub-set stay among the ones of the later sub-sets
def addSubset (positions : List (Position D)) (k : ℕ) (subset : QuantSetExpr D) :
    SubsetGenerators D × List (Position D) × ℕ :=
  let (subform, bdd, term, k) := addQuantVars subset.quantvarsorts.reverse positions subset.subformula subset.subterm k
  let (formulagenerator, newvar) := createFromBDD bdd subform k
  let (termgenerator, k) := createFromKernel (fun ρ σ => term ρ σ = some (ρ newvar))
    (subform.map Position.toInput ++ [⟨newvar, .output, subset.sort⟩]) (newvar + 1)
  (⟨formulagenerator, termgenerator, newvar⟩, subform, k)

def addSubsets : List (Position D) → ℕ → List (QuantSetExpr D) → List (SubsetGenerators D) × ℕ
  | _, k, [] => ([], k)
  | positions, k, subset :: subsets =>
    let (generators, positions, k) := addSubset createFromBDD createFromKernel positions k subset
    let (rest, k) := addSubsets positions k subsets
    (generators :: rest, k)

-- For the sub-formulas all variables of the kernel are input. The container of the result comes last.
def aggGenerator (N : Numbers D) (func : AggFunction) (vars : List (Position D)) (k : ℕ) (set : List (QuantSetExpr D)) :
    InstGenerator ℕ D × ℕ :=
  let (generators, rightvalue) := addSubsets createFromBDD createFromKernel (vars.map Position.toInput) k set
  (AggGenerator N func (fun i : Fin generators.length => (generators.get i).formulagenerator)
    (fun i => (generators.get i).termgenerator) (fun i => (generators.get i).term) rightvalue, rightvalue)

end Create

end Generators
