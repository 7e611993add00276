import DeclarativeLocalSearch.FoBdd.Quantify
import DeclarativeLocalSearch.FoBdd.Within

namespace FoBdd

open DecisionDiagram

variable {V A S D : Type}

section Indices

-- a value for the index 0, those of the others move up
def push (d : D) (i : ℕ → D) : ℕ → D
  | 0 => d
  | j + 1 => i j

-- the indices without one of them
def skip (n : ℕ) (i : ℕ → D) (j : ℕ) : D := if j < n then i j else i (j + 1)

theorem skip_push_zero (d : D) (i : ℕ → D) : skip 0 (push d i) = i := by
  funext j
  rw [skip, if_neg (Nat.not_lt_zero j), push]

theorem skip_push (n : ℕ) (d : D) (i : ℕ → D) : skip (n + 1) (push d i) = push d (skip n i) := by
  funext j
  cases j with
  | zero => exact if_pos (Nat.succ_pos n)
  | succ j =>
    simp only [skip, push, Nat.add_lt_add_iff_right]

-- the same values but for one index
def AgreeBut (n : ℕ) (i i' : ℕ → D) : Prop := ∀ j, j ≠ n → i j = i' j

theorem AgreeBut.push {n : ℕ} {i i' : ℕ → D} (h : AgreeBut n i i') (d : D) :
    AgreeBut (n + 1) (push d i) (push d i') := by
  intro j hj
  cases j with
  | zero => rfl
  | succ j => exact h j fun hn => hj (congrArg Nat.succ hn)

theorem agreeBut_const (d c : D) : AgreeBut 0 (push d fun _ => c) fun _ => c := by
  intro j hj
  cases j with
  | zero => exact absurd rfl hj
  | succ j => rfl

end Indices

-- what the atoms and the sorts of a language stand for, for values of the variables and the indices
structure Meaning (L : TermLanguage V A S) [DecidableEq V] (D : Type) where
  sort : S → D → Prop
  atom : A → (V → D) → (ℕ → D) → Prop
  simplify_constant : ∀ a v, L.simplify a [] = .inl v → ∀ e i, atom a e i ↔ v = true
  simplify_atom : ∀ a a' sets, L.simplify a [] = .inr (a', sets) → ∀ e i, atom a' e i ↔ atom a e i
  contains : ∀ a n, L.contains a n = false → ∀ e i i', AgreeBut n i i' → (atom a e i ↔ atom a e i')
  builtin : ∀ s empty, L.builtin s = some empty → (empty = true ↔ ∀ d, ¬ sort s d)
  sortAtom : ∀ s e i, atom (L.sortAtom s) e i ↔ sort s (i 0)
  bump : ∀ v n a e i, atom (L.bump v n a) e i ↔ atom a (Function.update e v (i n)) (skip n i)
  solves : ∀ s a, L.solves s a = true → ∀ e i, ∃ d, sort s d ∧ atom a e (push d i)

-- no terms with sets
def KernelContent.plain : KernelContent A S → Prop
  | .atom _ sets => sets = []
  | .agg _ _ _ => False
  | _ => True

namespace FOBDDManager

variable {c : Prop} {s s' : FOBDDManager A S}

section Frame

-- operations that make no kernels and remember no quantification
def Frames {α : Type} (m : Op A S α) : Prop := ∀ s a s', m.run s = some (a, s') →
  s'.order = s.order ∧ s'.content = s.content ∧ s'.quanttable = s.quanttable

def Framed (s s' : FOBDDManager A S) : Prop :=
  s'.order = s.order ∧ s'.content = s.content ∧ s'.quanttable = s.quanttable

instance : IsPreorder (FOBDDManager A S) Framed where
  refl _ := ⟨rfl, rfl, rfl⟩
  trans _ _ _ h h' := ⟨h'.1.trans h.1, h'.2.1.trans h.2.1, h'.2.2.trans h.2.2⟩

theorem framed_kernelwise : Kernelwise (Framed : FOBDDManager A S → FOBDDManager A S → Prop) :=
  fun _ _ h => ⟨h.order, h.content, h.quanttable⟩

theorem Frames.modify {f : FOBDDManager A S → FOBDDManager A S}
    (h : ∀ s, (f s).order = s.order ∧ (f s).content = s.content ∧ (f s).quanttable = s.quanttable) :
    Frames (modify f : Op A S Unit) := Op.Within.modify (R := Framed) h

theorem getBDD_frames (k t f : ℕ) : Frames (getBDD k t f : Op A S ℕ) := getBDD_within framed_kernelwise k t f

theorem negation_frames (n b : ℕ) : Frames (negation n b : Op A S ℕ) := negation_within framed_kernelwise n b

theorem combine_frames (before : ℕ → ℕ → Bool) {op : Connective A S} (hstore : ∀ b b' r, Frames (op.store b b' r))
    (n b b' : ℕ) : Frames (combine before op n b b') := combine_within framed_kernelwise before hstore n b b'

theorem conjunction_frames (before : ℕ → ℕ → Bool) (n b b' : ℕ) : Frames (conjunction before n b b' : Op A S ℕ) :=
  conjunction_within framed_kernelwise before n b b'

theorem disjunction_frames (before : ℕ → ℕ → Bool) (n b b' : ℕ) : Frames (disjunction before n b b' : Op A S ℕ) :=
  disjunction_within framed_kernelwise before n b b'

theorem ifthenelse_frames (n k t f : ℕ) : Frames (ifthenelse n k t f : Op A S ℕ) :=
  ifthenelse_within framed_kernelwise n k t f

end Frame

end FOBDDManager

namespace Meaning

variable [DecidableEq V] {L : TermLanguage V A S} (M : Meaning L D)

-- an environment for the variables and the indices
def interpretation : Interpretation A S where
  Env := (V → D) × (ℕ → D)
  atom a _ e := M.atom a e.1 e.2
  agg _ _ _ _ := False
  quant s p e := ∃ d, M.sort s d ∧ p (e.1, push d e.2)

-- what the kernels and the diagrams mean, once each kernel means its content
abbrev Valuation (V D : Type) : Type := ℕ → (V → D) × (ℕ → D) → Prop

def kernel (v : Valuation V D) (k : ℕ) (e : V → D) (i : ℕ → D) : Prop := truth (fun k => v k (e, i)) k

def bdd (s : FOBDDManager A S) (v : Valuation V D) (b : ℕ) (e : V → D) (i : ℕ → D) : Prop :=
  M.interpretation.meaning s v b (e, i)

def Coherent (s : FOBDDManager A S) (v : Valuation V D) : Prop := M.interpretation.Coherent s v

end Meaning

namespace FOBDDManager

variable {c : Prop} {s s' : FOBDDManager A S} [DecidableEq V] {L : TermLanguage V A S} {M : Meaning L D}

section Coherent

theorem Extends.bdd_meaning (he : Extends s s') (h : Inv c s) {b : ℕ} (hb : s.bdd b ≠ none) (v : Meaning.Valuation V D) :
    M.bdd s' v b = M.bdd s v b := by
  funext e i
  exact propext (he.holds h hb _)

theorem Extends.coherent (he : Extends s s') (h : Inv c s) {v : Meaning.Valuation V D} (hv : M.Coherent s' v) :
    M.Coherent s v := by
  intro k x hx
  rw [hv k x (he.content k x hx)]
  exact M.interpretation.content_congr fun b hb =>
    funext fun e => propext (he.holds h (h.content_valid hx b hb) _)

end Coherent

end FOBDDManager

end FoBdd
