import DeclarativeLocalSearch.Foundation.WellFoundedModel
import DeclarativeLocalSearch.Theory.Completion
import DeclarativeLocalSearch.Theory.Occurrences

namespace Theory

variable {S P F D : Type}

namespace Structure

def AgreeOn (I J : Structure S P F D) (symbols : List (PFSymbol S P F)) : Prop :=
  ∀ s ∈ symbols, ∀ ds, I.atom s ds ↔ J.atom s ds

theorem AgreeOn.function {I J : Structure S P F D} {symbols : List (PFSymbol S P F)} (h : I.AgreeOn J symbols) {f : F}
    (hf : .function f ∈ symbols) : I.function f = J.function f := by
  have hatom : ∀ (K : Structure S P F D) xs d, K.atom (.function f) (xs ++ [d]) ↔ K.function f xs = some d := by
    intro K xs d
    constructor
    · rintro ⟨ys, e, heq, hvalue⟩
      obtain ⟨rfl, hd⟩ := List.append_inj' heq rfl
      rwa [List.singleton_injective hd]
    · exact fun hvalue => ⟨xs, d, rfl, hvalue⟩
  funext xs
  refine Option.ext fun d => ?_
  exact (hatom I xs d).symm.trans ((h _ hf _).trans (hatom J xs d))

variable {I : Structure S P F D} {p : P → List D → Prop} {g : F → List D → Option D}

theorem reinterpret_compare (comp : CompType) (a b : Option D) :
    (I.reinterpret p g).compare comp a b = I.compare comp a b := by
  cases comp <;> rfl

theorem reinterpret_chain (conj : Bool) : ∀ (comps : List CompType) (vs : List (Option D)),
    (I.reinterpret p g).chain conj comps vs = I.chain conj comps vs
  | c :: cs, a :: b :: vs => by
    rw [chain, chain, reinterpret_compare, reinterpret_chain conj cs (b :: vs)]
  | [], _ | _ :: _, [] | _ :: _, [_] => rfl

variable [DecidableEq S]

theorem agreeOn : (∀ t : Term S P F D, I.AgreeOn (I.reinterpret p g) t.symbols →
      ∀ e, I.value t e = (I.reinterpret p g).value t e) ∧
    (∀ s : QuantSetExpr S P F D, I.AgreeOn (I.reinterpret p g) s.symbols →
      ∀ e, I.setOccurrences s e = (I.reinterpret p g).setOccurrences s e) ∧
    ∀ f : Formula S P F D, I.AgreeOn (I.reinterpret p g) f.symbols →
      ∀ e, I.holds f e ↔ (I.reinterpret p g).holds f e := by
  have terms : ∀ {ts : List (Term S P F D)} {e : Variable S → D},
      (∀ t ∈ ts, I.value t e = (I.reinterpret p g).value t e) → I.values ts e = (I.reinterpret p g).values ts e := by
    intro ts e h
    rw [values_eq_map, values_eq_map]
    exact List.map_congr_left h
  have sets : ∀ {ss : List (QuantSetExpr S P F D)} {e : Variable S → D},
      (∀ s ∈ ss, I.setOccurrences s e = (I.reinterpret p g).setOccurrences s e) →
      I.occurrences ss e = (I.reinterpret p g).occurrences ss e := by
    intro ss e h
    induction ss with
    | nil => rfl
    | cons s ss ih =>
      obtain ⟨hs, hss⟩ := List.forall_mem_cons.mp h
      rw [occurrences, occurrences, hs, ih hss]
  refine Formula.induct ?_ ?_ ?_ ?_ ?_ ?_ ?_ ?_ ?_ ?_ ?_
  · exact fun _ _ _ => rfl
  · intro f args ih h e
    rw [value, value, h.function (mem_symbols_func.mpr (Or.inl rfl)),
      terms fun t ht => ih t ht (fun s hs => h s (mem_symbols_func.mpr (Or.inr ⟨t, ht, hs⟩))) e]
  · exact fun _ _ _ _ => rfl
  · intro k ss ih h e
    rw [value, value, sets fun s hs => ih s hs (fun q hq => h q (mem_symbols_agg.mpr ⟨s, hs, hq⟩)) e]
    rfl
  · intro vars c t ihc iht h e
    funext d
    refine ENat.card_congr (Equiv.subtypeEquivRight fun a => ?_)
    exact and_congr (ihc (fun s hs => h s (mem_symbols_set.mpr (Or.inr hs))) _)
      (iff_of_eq (congrArg (· = d) (iht (fun s hs => h s (mem_symbols_set.mpr (Or.inl hs))) _)))
  · intro sign symbol args ih h e
    rw [holds, holds, terms fun t ht => ih t ht (fun s hs => h s (mem_symbols_pred.mpr (Or.inr ⟨t, ht, hs⟩))) e]
    refine iff_of_eq (congrArg sign.apply (propext (exists_congr fun ds => and_congr_right fun _ => ?_)))
    exact h _ (mem_symbols_pred.mpr (Or.inl rfl)) ds
  · intro sign conj comps ts ih h e
    rw [holds, holds, terms fun t ht => ih t ht (fun s hs => h s (mem_symbols_eqChain.mpr ⟨t, ht, hs⟩)) e]
    exact iff_of_eq (congrArg sign.apply (reinterpret_chain conj comps _).symm)
  · intro sign l r ihl ihr h e
    rw [holds, holds, ihl (fun s hs => h s (mem_symbols_equiv.mpr (Or.inl hs))) e,
      ihr (fun s hs => h s (mem_symbols_equiv.mpr (Or.inr hs))) e]
  · intro sign conj subs ih h e
    have hsub : ∀ f ∈ subs, (I.holds f e ↔ (I.reinterpret p g).holds f e) := fun f hf =>
      ih f hf (fun s hs => h s (mem_symbols_bool.mpr ⟨f, hf, hs⟩)) e
    rw [holds_bool, holds_bool]
    refine iff_of_eq (congrArg sign.apply ?_)
    cases conj
    · exact propext (exists_congr fun f => and_congr_right (hsub f))
    · exact propext (forall₂_congr hsub)
  · intro sign q vars f ih h e
    have hsub := ih fun s hs => h s (mem_symbols_quant.mpr hs)
    cases q
    · exact iff_of_eq (congrArg sign.apply (propext (forall_congr' fun a => hsub _)))
    · exact iff_of_eq (congrArg sign.apply (propext (exists_congr fun a => hsub _)))
  · intro sign b comp k ss ihb ih h e
    rw [holds, holds, ihb (fun s hs => h s (mem_symbols_aggForm.mpr (Or.inl hs))) e,
      sets fun s hs => ih s hs (fun q hq => h q (mem_symbols_aggForm.mpr (Or.inr ⟨s, hs, hq⟩))) e]
    exact iff_of_eq (congrArg sign.apply (reinterpret_compare comp _ _).symm)

end Structure

abbrev Atoms (S P F D : Type) := Set (PFSymbol S P F × List D)

def Structure.atoms (I : Structure S P F D) : Atoms S P F D := {a | I.atom a.1 a.2}

-- at least as much is certain, and at most as much is possible, about the symbols
def Refines (symbols : List (PFSymbol S P F)) (X Y X' Y' : Atoms S P F D) : Prop :=
  ∀ s ∈ symbols, ∀ ds, ((s, ds) ∈ X → (s, ds) ∈ X') ∧ ((s, ds) ∈ Y' → (s, ds) ∈ Y)

theorem Refines.subset {symbols symbols' : List (PFSymbol S P F)} {X Y X' Y' : Atoms S P F D}
    (h : Refines symbols X Y X' Y') (hle : ∀ s ∈ symbols', s ∈ symbols) : Refines symbols' X Y X' Y' :=
  fun s hs => h s (hle s hs)

variable [DecidableEq S]

-- what is certain of a term and of a formula, where the atoms are certain or possible
structure ThreeValuedSemantics (I : Structure S P F D) where
  value : Atoms S P F D → Atoms S P F D → Term S P F D → (Variable S → D) → D → Prop
  holds : Atoms S P F D → Atoms S P F D → Formula S P F D → (Variable S → D) → Prop
  value_mono : ∀ {X Y X' Y' t e d}, Refines t.symbols X Y X' Y' → value X Y t e d → value X' Y' t e d
  holds_mono : ∀ {X Y X' Y' f e}, Refines f.symbols X Y X' Y' → holds X Y f e → holds X' Y' f e
  value_exact : ∀ p g t e d, value (I.reinterpret p g).atoms (I.reinterpret p g).atoms t e d ↔
    (I.reinterpret p g).value t e = some d
  holds_exact : ∀ p g f e, holds (I.reinterpret p g).atoms (I.reinterpret p g).atoms f e ↔
    (I.reinterpret p g).holds f e

namespace Kleene

variable (I : Structure S P F D) (X Y : Atoms S P F D)

-- all that the certain and the possible atoms leave open
def Between (symbols : List (PFSymbol S P F)) (J : Structure S P F D) : Prop :=
  ∀ s ∈ symbols, ∀ ds, ((s, ds) ∈ X → J.atom s ds) ∧ (J.atom s ds → (s, ds) ∈ Y)

def value (t : Term S P F D) (e : Variable S → D) (d : D) : Prop :=
  ∀ p g, Between X Y t.symbols (I.reinterpret p g) → (I.reinterpret p g).value t e = some d

def always (v : Bool) (f : Formula S P F D) (e : Variable S → D) : Prop :=
  ∀ p g, Between X Y f.symbols (I.reinterpret p g) → ((I.reinterpret p g).holds f e ↔ v = true)

def under (v : Bool) : SIGN → Bool
  | .pos => v
  | .neg => !v

mutual

-- the formula certainly has the truth value
def certainly : Bool → Formula S P F D → (Variable S → D) → Prop
  | v, .equiv sign l r, e => ∃ w, certainly w l e ∧ certainly (w == under v sign) r e
  | v, .bool sign conj subs, e =>
    if under v sign = conj then allCertainly (under v sign) subs e else someCertainly (under v sign) subs e
  | v, .quant sign q vars f, e =>
    if under v sign = (q == .univ) then ∀ a : I.Tuple vars, certainly (under v sign) f (I.extend e a)
    else ∃ a : I.Tuple vars, certainly (under v sign) f (I.extend e a)
  | v, .pred sign symbol args, e => always I X Y v (.pred sign symbol args) e
  | v, .eqChain sign conj comps terms, e => always I X Y v (.eqChain sign conj comps terms) e
  | v, .agg sign bound comp g sets, e => always I X Y v (.agg sign bound comp g sets) e

def allCertainly : Bool → List (Formula S P F D) → (Variable S → D) → Prop
  | _, [], _ => True
  | v, f :: fs, e => certainly v f e ∧ allCertainly v fs e

def someCertainly : Bool → List (Formula S P F D) → (Variable S → D) → Prop
  | _, [], _ => False
  | v, f :: fs, e => certainly v f e ∨ someCertainly v fs e

end

variable {I X Y} {X' Y' : Atoms S P F D}

theorem allCertainly_iff {v : Bool} {fs : List (Formula S P F D)} {e : Variable S → D} :
    allCertainly I X Y v fs e ↔ ∀ f ∈ fs, certainly I X Y v f e := by
  induction fs with
  | nil => exact iff_of_true trivial nofun
  | cons f fs ih => rw [allCertainly, ih, List.forall_mem_cons]

theorem someCertainly_iff {v : Bool} {fs : List (Formula S P F D)} {e : Variable S → D} :
    someCertainly I X Y v fs e ↔ ∃ f ∈ fs, certainly I X Y v f e := by
  induction fs with
  | nil => exact iff_of_false id nofun
  | cons f fs ih => rw [someCertainly, ih, List.exists_mem_cons_iff]

theorem certainly_bool {v : Bool} {sign : SIGN} {conj : Bool} {fs : List (Formula S P F D)} {e : Variable S → D} :
    certainly I X Y v (.bool sign conj fs) e ↔
      if under v sign = conj then ∀ f ∈ fs, certainly I X Y (under v sign) f e
      else ∃ f ∈ fs, certainly I X Y (under v sign) f e := by
  rw [certainly, allCertainly_iff, someCertainly_iff]

omit [DecidableEq S] in
theorem Between.refines {symbols : List (PFSymbol S P F)} {J : Structure S P F D} (h : Between X' Y' symbols J)
    (hrefines : Refines symbols X Y X' Y') : Between X Y symbols J :=
  fun s hs ds => ⟨fun hX => (h s hs ds).1 ((hrefines s hs ds).1 hX), fun hJ => (hrefines s hs ds).2 ((h s hs ds).2 hJ)⟩

omit [DecidableEq S] in
theorem between_atoms {symbols : List (PFSymbol S P F)} {J K : Structure S P F D} :
    Between J.atoms J.atoms symbols K ↔ J.AgreeOn K symbols :=
  forall₃_congr fun _ _ _ => iff_iff_implies_and_implies.symm

theorem value_mono {t : Term S P F D} {e : Variable S → D} {d : D} (hrefines : Refines t.symbols X Y X' Y')
    (h : value I X Y t e d) : value I X' Y' t e d :=
  fun p g hbetween => h p g (hbetween.refines hrefines)

theorem always_mono {v : Bool} {f : Formula S P F D} {e : Variable S → D} (hrefines : Refines f.symbols X Y X' Y')
    (h : always I X Y v f e) : always I X' Y' v f e :=
  fun p g hbetween => h p g (hbetween.refines hrefines)

theorem certainly_mono : ∀ (f : Formula S P F D), Refines f.symbols X Y X' Y' →
    ∀ v e, certainly I X Y v f e → certainly I X' Y' v f e := by
  refine (@Formula.induct S P F D (fun _ => True) (fun _ => True) _ ?_ ?_ ?_ ?_ ?_ ?_ ?_ ?_ ?_ ?_ ?_).2.2
  · exact fun _ => trivial
  · exact fun _ _ _ => trivial
  · exact fun _ _ => trivial
  · exact fun _ _ _ => trivial
  · exact fun _ _ _ _ _ => trivial
  · exact fun sign symbol args _ hrefines v e h => always_mono hrefines h
  · exact fun sign conj comps terms _ hrefines v e h => always_mono hrefines h
  · rintro sign l r ihl ihr hrefines v e ⟨w, hl, hr⟩
    exact ⟨w, ihl (hrefines.subset fun s hs => mem_symbols_equiv.mpr (Or.inl hs)) _ _ hl,
      ihr (hrefines.subset fun s hs => mem_symbols_equiv.mpr (Or.inr hs)) _ _ hr⟩
  · intro sign conj subs ih hrefines v e h
    have hsub : ∀ f ∈ subs, ∀ w, certainly I X Y w f e → certainly I X' Y' w f e := fun f hf w =>
      ih f hf (hrefines.subset fun s hs => mem_symbols_bool.mpr ⟨f, hf, hs⟩) w e
    rw [certainly_bool] at h ⊢
    by_cases hall : under v sign = conj
    · rw [if_pos hall] at h ⊢
      exact fun f hf => hsub f hf _ (h f hf)
    · rw [if_neg hall] at h ⊢
      exact h.imp fun f => fun ⟨hf, hcertain⟩ => ⟨hf, hsub f hf _ hcertain⟩
  · intro sign q vars f ih hrefines v e h
    have hsub := ih (hrefines.subset fun s hs => mem_symbols_quant.mpr hs)
    rw [certainly] at h ⊢
    by_cases hall : under v sign = (q == .univ)
    · rw [if_pos hall] at h ⊢
      exact fun a => hsub _ _ (h a)
    · rw [if_neg hall] at h ⊢
      exact h.imp fun a => hsub _ _
  · exact fun sign bound comp g sets _ _ hrefines v e h => always_mono hrefines h

section Exact

variable {p : P → List D → Prop} {g : F → List D → Option D}

theorem value_exact {t : Term S P F D} {e : Variable S → D} {d : D} :
    value I (I.reinterpret p g).atoms (I.reinterpret p g).atoms t e d ↔ (I.reinterpret p g).value t e = some d := by
  constructor
  · exact fun h => h p g (between_atoms.mpr fun _ _ _ => Iff.rfl)
  · intro h p' g' hbetween
    rw [← h]
    exact (Structure.agreeOn.1 t (between_atoms.mp hbetween) e).symm

theorem always_exact {v : Bool} {f : Formula S P F D} {e : Variable S → D} :
    always I (I.reinterpret p g).atoms (I.reinterpret p g).atoms v f e ↔ ((I.reinterpret p g).holds f e ↔ v = true) := by
  constructor
  · exact fun h => h p g (between_atoms.mpr fun _ _ _ => Iff.rfl)
  · intro h p' g' hbetween
    rw [← h]
    exact (Structure.agreeOn.2.2 f (between_atoms.mp hbetween) e).symm

theorem apply_iff {sign : SIGN} {v : Bool} {p : Prop} : (sign.apply p ↔ v = true) ↔ (p ↔ under v sign = true) := by
  cases sign <;> cases v <;> simp [SIGN.apply, under]

theorem certainly_exact : ∀ (f : Formula S P F D) v e,
    certainly I (I.reinterpret p g).atoms (I.reinterpret p g).atoms v f e ↔ ((I.reinterpret p g).holds f e ↔ v = true) := by
  refine (@Formula.induct S P F D (fun _ => True) (fun _ => True) _ ?_ ?_ ?_ ?_ ?_ ?_ ?_ ?_ ?_ ?_ ?_).2.2
  · exact fun _ => trivial
  · exact fun _ _ _ => trivial
  · exact fun _ _ => trivial
  · exact fun _ _ _ => trivial
  · exact fun _ _ _ _ _ => trivial
  · exact fun sign symbol args _ v e => always_exact
  · exact fun sign conj comps terms _ v e => always_exact
  · intro sign l r ihl ihr v e
    rw [certainly, Structure.holds, apply_iff]
    simp only [ihl, ihr]
    cases under v sign <;> by_cases hl : (I.reinterpret p g).holds l e <;> simp [hl]
  · intro sign conj subs ih v e
    rw [certainly_bool, Structure.holds_bool, apply_iff]
    cases conj <;> cases under v sign
    · simpa using forall₂_congr fun f hf => (ih f hf false e).trans (by simp)
    · simpa using exists_congr fun f => and_congr_right fun hf => (ih f hf true e).trans (by simp)
    · simpa using exists_congr fun f => and_congr_right fun hf => (ih f hf false e).trans (by simp)
    · simpa using forall₂_congr fun f hf => (ih f hf true e).trans (by simp)
  · intro sign q vars f ih v e
    have hsub : ∀ w (a : I.Tuple vars), certainly I (I.reinterpret p g).atoms (I.reinterpret p g).atoms w f (I.extend e a) ↔
        ((I.reinterpret p g).holds f (I.extend e a) ↔ w = true) := fun w a => ih w _
    rw [certainly]
    cases q <;> rw [Structure.holds, apply_iff] <;> cases under v sign
    · simp [hsub]
      rfl
    · simp [hsub]
      rfl
    · simp [hsub]
      rfl
    · simp [hsub]
      rfl
  · exact fun sign bound comp g sets _ _ v e => always_exact

end Exact

variable (I)

def semantics : ThreeValuedSemantics I where
  value := value I
  holds X Y := certainly I X Y true
  value_mono := value_mono
  holds_mono := fun hrefines => certainly_mono _ hrefines _ _
  value_exact _ _ _ _ _ := value_exact
  holds_exact _ _ f e := (certainly_exact f true e).trans (by simp)

end Kleene

def Rule.symbols (r : Rule S P F D) : List (PFSymbol S P F) := r.args.flatMap Term.symbols ++ r.body.symbols

def defined (rules : List (Rule S P F D)) : Atoms S P F D := {a | ∃ r ∈ rules, a.1 = r.graphed.head}

namespace ThreeValuedSemantics

open Approximator (Agree)

variable {I : Structure S P F D} (W : ThreeValuedSemantics I)

-- an instance of the rule certainly has the atom as its head, and its body certainly holds
def derives (r : Rule S P F D) (e : Variable S → D) (X Y : Atoms S P F D) (a : PFSymbol S P F × List D) : Prop :=
  a.1 = r.head ∧ ∃ b : I.Tuple r.quantVars, List.Forall₂ (fun t d => W.value X Y t (I.extend e b) d) r.args a.2 ∧
    W.holds X Y r.body (I.extend e b)

theorem derives_mono {r : Rule S P F D} {e : Variable S → D} {X Y X' Y' : Atoms S P F D} {a : PFSymbol S P F × List D}
    (hrefines : Refines r.symbols X Y X' Y') (h : W.derives r e X Y a) : W.derives r e X' Y' a := by
  obtain ⟨hhead, b, hargs, hbody⟩ := h
  refine ⟨hhead, b, ?_, W.holds_mono (hrefines.subset fun s hs => List.mem_append_right _ hs) hbody⟩
  have hterms : ∀ t ∈ r.args, Refines t.symbols X Y X' Y' := fun t ht =>
    hrefines.subset fun s hs => List.mem_append_left _ (List.mem_flatMap.mpr ⟨t, ht, hs⟩)
  generalize r.args = args, a.2 = ds at hargs hterms ⊢
  induction hargs with
  | nil => exact .nil
  | cons hvalue _ ih =>
    obtain ⟨ht, hts⟩ := List.forall_mem_cons.mp hterms
    exact .cons (W.value_mono ht hvalue) (ih hts)

def approximator (rules : List (Rule S P F D)) (e : Variable S → D) : Approximator (PFSymbol S P F × List D) where
  derive X Y := {a | ∃ r ∈ rules, W.derives r.graphed e X Y a}
  mono h _ := fun ⟨r, hr, ha⟩ => ⟨r, hr, W.derives_mono (fun _ _ _ => ⟨fun hX => h hX, id⟩) ha⟩
  anti h _ := fun ⟨r, hr, ha⟩ => ⟨r, hr, W.derives_mono (fun _ _ _ => ⟨id, fun hY => h hY⟩) ha⟩

-- the structure is two-valued and the well-founded model of the definition, given the symbols it does not define
def satisfies (rules : List (Rule S P F D)) (e : Variable S → D) : Prop :=
  (W.approximator rules e).IsModel I.atoms (defined rules)

end ThreeValuedSemantics

end Theory
