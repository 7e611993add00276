import DeclarativeLocalSearch.FoBdd.Boolean
import DeclarativeLocalSearch.FoBdd.Kernels

namespace FoBdd

open DecisionDiagram

variable {V A S : Type}

namespace Op

-- an operation that leaves the manager as it is
def Reads {α : Type} (m : Op A S α) : Prop := ∀ s a s', m.run s = some (a, s') → s = s'

theorem Reads.pure {α : Type} (a : α) : Reads (pure a : Op A S α) :=
  fun _ _ _ h => (pure_eq_some.mp h).2

theorem Reads.failure {α : Type} : Reads (failure : Op A S α) :=
  fun _ _ _ h => absurd h failure_eq_some

theorem Reads.get_bind {α : Type} {f : FOBDDManager A S → Op A S α} (hf : ∀ s, Reads (f s)) :
    Reads ((get : Op A S _) >>= f) :=
  fun s a s' h => hf s s a s' h

theorem Reads.bind {α β : Type} {m : Op A S α} {f : α → Op A S β} (hm : Reads m)
    (hf : ∀ a, Reads (f a)) : Reads (m >>= f) := by
  intro s b s' h
  obtain ⟨a, s1, h1, h2⟩ := bind_eq_some.mp h
  exact (hm s a s1 h1).trans (hf a s1 b s' h2)

-- every result of the first operation is one of the second
def Refines {α : Type} (m m' : Op A S α) : Prop := ∀ s x, m.run s = some x → m'.run s = some x

theorem Refines.refl {α : Type} (m : Op A S α) : Refines m m := fun _ _ h => h

theorem Refines.failure {α : Type} (m : Op A S α) : Refines failure m :=
  fun _ _ h => absurd h failure_eq_some

theorem Refines.get_bind {α : Type} {f g : FOBDDManager A S → Op A S α}
    (h : ∀ s, Refines (f s) (g s)) : Refines ((get : Op A S _) >>= f) ((get : Op A S _) >>= g) :=
  fun s x hx => h s s x hx

theorem Refines.bind {α β : Type} {m m' : Op A S α} {f f' : α → Op A S β} (hm : Refines m m')
    (hf : ∀ a, Refines (f a) (f' a)) : Refines (m >>= f) (m' >>= f') := by
  rintro s ⟨b, s'⟩ h
  obtain ⟨a, s1, h1, h2⟩ := bind_eq_some.mp h
  exact bind_eq_some.mpr ⟨a, s1, hm s _ h1, hf a s1 _ h2⟩

theorem Refines.bind_left {α β : Type} {m : Op A S α} {f f' : α → Op A S β}
    (hf : ∀ a, Refines (f a) (f' a)) : Refines (m >>= f) (m >>= f') :=
  (Refines.refl m).bind hf

end Op

namespace FOBDDManager

section Reads

open Op

theorem kernelOf_reads (b : ℕ) : Reads (kernelOf b : Op A S ℕ) :=
  fun _ _ _ h => (kernelOf_eq_some h).1

theorem truebranch_reads (b : ℕ) : Reads (truebranch b : Op A S ℕ) :=
  fun _ _ _ h => (truebranch_eq_some h).1

theorem getContent_eq_some {s s' : FOBDDManager A S} {k : ℕ} {x : KernelContent A S}
    (hr : (getContent k).run s = some (x, s')) : s = s' ∧ s.content k = some x := by
  rw [getContent, Op.get_bind] at hr
  cases hx : s.content k with
  | none =>
    rw [hx] at hr
    exact absurd hr Op.failure_eq_some
  | some y =>
    rw [hx] at hr
    obtain ⟨rfl, rfl⟩ := Op.pure_eq_some.mp hr
    exact ⟨rfl, rfl⟩

theorem getContent_reads (k : ℕ) : Reads (getContent k : Op A S _) :=
  fun _ _ _ h => (getContent_eq_some h).1

variable (L : TermLanguage V A S)

theorem setsContain_reads {rec : ℕ → ℕ → Op A S Bool} (hrec : ∀ b i, Reads (rec b i))
    (vars : ℕ → ℕ) (i : ℕ) (sets : List ℕ) (j : ℕ) : Reads (setsContain rec vars i j sets) := by
  induction sets generalizing j with
  | nil => exact Reads.pure false
  | cons b sets ih =>
    refine Reads.bind (hrec _ _) fun v => ?_
    cases v
    · exact ih (j + 1)
    · exact Reads.pure true

theorem contentContains_reads {rec : ℕ → ℕ → Op A S Bool} (hrec : ∀ b i, Reads (rec b i))
    (x : KernelContent A S) (i : ℕ) : Reads (contentContains L rec x i) := by
  cases x with
  | trueKernel => exact Reads.pure false
  | falseKernel => exact Reads.pure false
  | atom terms sets =>
    dsimp only [contentContains]
    split_ifs
    · exact Reads.pure true
    · exact setsContain_reads hrec _ _ _ _
  | quant sort b => exact hrec _ _
  | agg left right sets =>
    dsimp only [contentContains]
    split_ifs
    · exact Reads.pure true
    · exact Reads.pure true
    · exact setsContain_reads hrec _ _ _ _

theorem containsDeBruijnIndex_reads (n b i : ℕ) : Reads (containsDeBruijnIndex L n b i) := by
  induction n generalizing b i with
  | zero => exact Reads.failure
  | succ n ih =>
    refine Reads.get_bind fun s => ?_
    rcases s.bdd b with _ | v | ⟨k, t, f⟩
    · exact Reads.failure
    · exact Reads.pure false
    · refine Reads.bind (Reads.bind (getContent_reads k) fun x =>
        contentContains_reads L ih x i) fun v => ?_
      cases v
      · refine Reads.bind (ih f i) fun v => ?_
        cases v
        · exact ih t i
        · exact Reads.pure true
      · exact Reads.pure true

theorem longestSet_reads {rec : ℕ → Op A S ℕ} (hrec : ∀ b, Reads (rec b)) (sets : List ℕ)
    (result : ℕ) : Reads (longestSet rec result sets) := by
  induction sets generalizing result with
  | nil => exact Reads.pure result
  | cons b sets ih => exact Reads.bind (hrec b) fun l => ih _

theorem longestKernel_reads {rec : ℕ → Op A S ℕ} (hrec : ∀ b, Reads (rec b))
    (x : KernelContent A S) : Reads (longestKernel rec x) := by
  cases x with
  | trueKernel => exact Reads.pure 0
  | falseKernel => exact Reads.pure 0
  | atom terms sets => exact Reads.pure 1
  | quant sort b => exact Reads.bind (hrec b) fun l => Reads.pure _
  | agg left right sets => exact longestSet_reads hrec sets 0

theorem longestbranch_reads (n b : ℕ) : Reads (longestbranch n b : Op A S ℕ) := by
  induction n generalizing b with
  | zero => exact Reads.failure
  | succ n ih =>
    refine Reads.get_bind fun s => ?_
    rcases s.bdd b with _ | v | ⟨k, t, f⟩
    · exact Reads.failure
    · exact Reads.pure 1
    · exact Reads.bind (getContent_reads k) fun x => Reads.bind (longestKernel_reads ih x)
        fun _ => Reads.bind (ih t) fun _ => Reads.bind (ih f) fun _ => Reads.pure _

theorem isSolved_reads (n : ℕ) (sort : S) (b : ℕ) : Reads (isSolved L n sort b) := by
  refine Reads.bind (longestbranch_reads n b) fun l => ?_
  split_ifs
  · refine Reads.bind (kernelOf_reads b) fun k => Reads.bind (getContent_reads k) fun x => ?_
    cases x with
    | atom terms sets => exact Reads.bind (truebranch_reads b) fun t => Reads.pure _
    | _ => exact Reads.pure false
  · exact Reads.pure false

end Reads

section AddKernel

variable {c : Prop} {s s' : FOBDDManager A S}

theorem Inv.order_ne_next (h : Inv c s) {k : ℕ} {o : KernelOrder} (hk : s.order k = some o) :
    k ≠ s.nextkernel := by
  rintro rfl
  rw [(h.freshkernel _ le_rfl).1] at hk
  cases hk

def ContentValid (s : FOBDDManager A S) (x : KernelContent A S) : Prop :=
  ∀ b ∈ x.bdds, s.bdd b ≠ none

theorem Inv.content_valid (h : Inv c s) {k : ℕ} {x : KernelContent A S} (hk : s.content k = some x) :
    s.ContentValid x := by
  intro b hb
  cases x with
  | trueKernel => cases hb
  | falseKernel => cases hb
  | atom terms sets => exact h.atoms k terms sets hk b hb
  | quant sort b' =>
    rw [List.mem_singleton.mp hb]
    exact h.quants k sort b' hk
  | agg left right sets => exact h.aggs k left right sets hk b hb

-- an operation has returned the kernel k in the state s'
structure Gives (c : Prop) (s s' : FOBDDManager A S) (k : ℕ) : Prop where
  inv : Inv c s'
  ext : Extends s s'
  kernel : s'.order k ≠ none

theorem Gives.of_true (h : Inv c s) : Gives c s s truekernel :=
  ⟨h, Extends.refl s, by rw [h.constants.1]; exact Option.some_ne_none _⟩

theorem Gives.of_false (h : Inv c s) : Gives c s s falsekernel :=
  ⟨h, Extends.refl s, by rw [h.constants.2]; exact Option.some_ne_none _⟩

variable [DecidableEq A] [DecidableEq S]

def withKernel (s : FOBDDManager A S) (cat : KernelOrderCategory) (x : KernelContent A S) :
    FOBDDManager A S :=
  { s with
    order := Function.update s.order s.nextkernel (some ⟨cat, s.nextorder cat⟩)
    content := Function.update s.content s.nextkernel (some x)
    nextkernel := s.nextkernel + 1
    nextorder := Function.update s.nextorder cat (s.nextorder cat + 1)
    kernels := Table.insert2 s.kernels cat (s.nextorder cat) s.nextkernel
    kerneltable := Table.insert s.kerneltable x s.nextkernel }

theorem newKernel_eq_some {cat : KernelOrderCategory} {x : KernelContent A S} {k : ℕ} :
    (newOrder cat >>= fun o => addKernel o x).run s = some (k, s') ↔
      s.nextkernel = k ∧ s.withKernel cat x = s' := by
  simp only [newOrder, addKernel, Op.bind_eq_some, Op.get_bind, Op.modify_eq_some,
    Op.pure_eq_some]
  constructor
  · rintro ⟨o, s1, ⟨-, -, rfl, rfl, rfl⟩, -, -, rfl, rfl, rfl⟩
    exact ⟨rfl, rfl⟩
  · rintro ⟨rfl, rfl⟩
    exact ⟨_, _, ⟨(), _, rfl, rfl, rfl⟩, (), _, rfl, rfl, rfl⟩

variable {cat : KernelOrderCategory} {x : KernelContent A S}

theorem withKernel_order_new :
    (s.withKernel cat x).order s.nextkernel = some ⟨cat, s.nextorder cat⟩ :=
  Function.update_self _ _ _

theorem withKernel_order {k : ℕ} {o : KernelOrder} (h : (s.withKernel cat x).order k = some o) :
    (k = s.nextkernel ∧ o = ⟨cat, s.nextorder cat⟩) ∨ (k ≠ s.nextkernel ∧ s.order k = some o) := by
  by_cases hk : k = s.nextkernel
  · subst hk
    rw [withKernel_order_new] at h
    exact Or.inl ⟨rfl, (Option.some.inj h).symm⟩
  · exact Or.inr ⟨hk, (Function.update_of_ne hk _ _).symm.trans h⟩

theorem withKernel_content {k : ℕ} {y : KernelContent A S}
    (h : (s.withKernel cat x).content k = some y) :
    (k = s.nextkernel ∧ y = x) ∨ (k ≠ s.nextkernel ∧ s.content k = some y) := by
  by_cases hk : k = s.nextkernel
  · subst hk
    have : (s.withKernel cat x).content s.nextkernel = some x := Function.update_self _ _ _
    rw [this] at h
    exact Or.inl ⟨rfl, (Option.some.inj h).symm⟩
  · exact Or.inr ⟨hk, (Function.update_of_ne hk _ _).symm.trans h⟩

theorem Inv.withKernel_extends (h : Inv c s) : Extends s (s.withKernel cat x) where
  bdd _ _ hb := hb
  order k o hk := (Function.update_of_ne (h.order_ne_next hk) _ _).trans hk
  content k y hk := by
    have hne : k ≠ s.nextkernel := by
      rintro rfl
      rw [(h.freshkernel _ le_rfl).2] at hk
      cases hk
    exact (Function.update_of_ne hne _ _).trans hk

theorem Inv.withKernel_sorted (h : Inv c s) (hc : c) : (s.withKernel cat x).Sorted where
  ordered b k hi lo hb := by
    obtain ⟨hhi, hlo⟩ := h.closed b k hi lo hb
    obtain ⟨h1, h2⟩ := (h.sorted hc).ordered b k hi lo hb
    exact ⟨h.withKernel_extends.above hhi h1, h.withKernel_extends.above hlo h2⟩
  reduced := (h.sorted hc).reduced
  hashed := (h.sorted hc).hashed

theorem Inv.withKernel_content_valid (h : Inv c s) (hx : s.ContentValid x) {k : ℕ}
    {y : KernelContent A S} (hk : (s.withKernel cat x).content k = some y) : s.ContentValid y := by
  rcases withKernel_content hk with ⟨-, rfl⟩ | ⟨-, hk⟩
  · exact hx
  · exact h.content_valid hk

theorem Inv.withKernel_injective (h : Inv c s) {k k' : ℕ} {o : KernelOrder}
    (hk : (s.withKernel cat x).order k = some o) (hk' : (s.withKernel cat x).order k' = some o) :
    k = k' := by
  have hfresh : ∀ {j o}, s.order j = some o → o ≠ ⟨cat, s.nextorder cat⟩ := by
    rintro j o hj rfl
    exact lt_irrefl _ (h.numbers j _ hj)
  rcases withKernel_order hk with ⟨rfl, rfl⟩ | ⟨-, hk⟩
  · rcases withKernel_order hk' with ⟨rfl, -⟩ | ⟨-, hk'⟩
    · rfl
    · exact absurd rfl (hfresh hk')
  · rcases withKernel_order hk' with ⟨rfl, rfl⟩ | ⟨-, hk'⟩
    · exact absurd rfl (hfresh hk)
    · exact h.injective k k' o hk hk'

theorem Inv.withKernel_kernels (h : Inv c s) (hcat : cat ≠ .trueFalse) (cat' : KernelOrderCategory)
    (n k : ℕ) : (s.withKernel cat x).kernels cat' n = some k ↔
      (s.withKernel cat x).order k = some ⟨cat', n⟩ ∧ cat' ≠ .trueFalse := by
  constructor
  · intro hk
    rcases Table.of_insert2 hk with ⟨rfl, rfl, rfl⟩ | hk
    · exact ⟨withKernel_order_new, hcat⟩
    · obtain ⟨hk, hcat'⟩ := (h.kernels cat' n k).mp hk
      exact ⟨h.withKernel_extends.order k _ hk, hcat'⟩
  · rintro ⟨hk, hcat'⟩
    refine (Table.insert2_apply ..).trans ?_
    rcases withKernel_order hk with ⟨rfl, ho⟩ | ⟨-, hold⟩
    · cases ho
      exact if_pos ⟨rfl, rfl⟩
    · rw [if_neg]
      · exact (h.kernels cat' n k).mpr ⟨hold, hcat'⟩
      · rintro ⟨rfl, rfl⟩
        exact lt_irrefl _ (h.numbers k _ hold)

theorem Inv.withKernel_inv (h : Inv c s) (hcat : cat ≠ .trueFalse) (hx : s.ContentValid x) :
    Inv c (s.withKernel cat x) := by
  have hext : Extends s (s.withKernel cat x) := h.withKernel_extends
  exact { h with
    freshkernel := fun k hk => by
      have hk : s.nextkernel + 1 ≤ k := hk
      have hne : k ≠ s.nextkernel := by omega
      obtain ⟨ho, hc⟩ := h.freshkernel k (by omega)
      exact ⟨(Function.update_of_ne hne _ _).trans ho, (Function.update_of_ne hne _ _).trans hc⟩
    constants := ⟨hext.order _ _ h.constants.1, hext.order _ _ h.constants.2⟩
    constant := fun k o hk ho => by
      rcases withKernel_order hk with ⟨-, rfl⟩ | ⟨-, hk⟩
      · exact absurd ho hcat
      · exact h.constant k o hk ho
    labelled := fun b k hi lo hb => by
      obtain ⟨o, ho, ho'⟩ := h.labelled b k hi lo hb
      exact ⟨o, hext.order k o ho, ho'⟩
    injective := fun k k' o hk hk' => h.withKernel_injective hk hk'
    kernels := h.withKernel_kernels hcat
    numbers := fun k o hk => by
      have hle : ∀ cat', s.nextorder cat' ≤ (s.withKernel cat x).nextorder cat' := by
        intro cat'
        simp only [withKernel, Function.update_apply]
        split_ifs with hcat'
        · rw [hcat']
          omega
        · exact le_rfl
      rcases withKernel_order hk with ⟨-, rfl⟩ | ⟨-, hk⟩
      · simp [withKernel]
      · exact (h.numbers k o hk).trans_le (hle _)
    quants := fun k sort b hk =>
      h.withKernel_content_valid hx hk b (List.mem_singleton.mpr rfl)
    atoms := fun k terms sets hk => h.withKernel_content_valid hx hk
    aggs := fun k left right sets hk => h.withKernel_content_valid hx hk
    kerneltable := fun y k hk => by
      rcases Table.of_insert hk with ⟨rfl, rfl⟩ | hk
      · exact ⟨Function.update_self _ _ _, by
          rw [withKernel_order_new]
          exact Option.some_ne_none _⟩
      · obtain ⟨hy, ho⟩ := h.kerneltable y k hk
        exact ⟨hext.content k y hy, hext.order_ne ho⟩
    sorted := h.withKernel_sorted }

theorem lookupKernelContent_gives {category : Op A S Bool} (hcat : Op.Reads category) {k : ℕ}
    (h : Inv c s) (hx : s.ContentValid x)
    (hr : (lookupKernelContent category x).run s = some (k, s')) :
    Gives c s s' k ∧ s'.bdd = s.bdd ∧ s'.content k = some x := by
  rw [lookupKernelContent, Op.get_bind] at hr
  cases ht : s.kerneltable x with
  | some k' =>
    rw [ht] at hr
    obtain ⟨rfl, rfl⟩ := Op.pure_eq_some.mp hr
    obtain ⟨hk, ho⟩ := h.kerneltable x _ ht
    exact ⟨⟨h, Extends.refl s, ho⟩, rfl, hk⟩
  | none =>
    rw [ht] at hr
    obtain ⟨v, s1, hv, hr⟩ := Op.bind_eq_some.mp hr
    obtain rfl := hcat s v s1 hv
    obtain ⟨rfl, rfl⟩ := newKernel_eq_some.mp hr
    refine ⟨⟨h.withKernel_inv (by cases v <;> simp) hx, h.withKernel_extends, ?_⟩, rfl,
      Function.update_self _ _ _⟩
    rw [withKernel_order_new]
    exact Option.some_ne_none _

variable (L : TermLanguage V A S)

theorem getAtomKernel_gives {n : ℕ} {terms : A} {sets : List ℕ} {k : ℕ} (h : Inv c s)
    (hx : ∀ b ∈ sets, s.bdd b ≠ none) (hr : (getAtomKernel L n terms sets).run s = some (k, s')) :
    Gives c s s' k ∧ s'.bdd = s.bdd := by
  unfold getAtomKernel at hr
  split at hr
  · rename_i v _
    obtain ⟨rfl, rfl⟩ := Op.pure_eq_some.mp hr
    cases v
    · exact ⟨Gives.of_false h, rfl⟩
    · exact ⟨Gives.of_true h, rfl⟩
  · rename_i terms' sets' hs
    obtain ⟨hg, hb, -⟩ := lookupKernelContent_gives (x := .atom terms' sets')
      (contentContains_reads L (containsDeBruijnIndex_reads L n) _ _) h
      (fun b hb => hx b (L.simplify_sets _ _ _ _ hs hb)) hr
    exact ⟨hg, hb⟩

theorem getAggKernel_gives {n : ℕ} {left right : A} {sets : List ℕ} {k : ℕ} (h : Inv c s)
    (hx : ∀ b ∈ sets, s.bdd b ≠ none)
    (hr : (getAggKernel L n left right sets).run s = some (k, s')) :
    Gives c s s' k ∧ s'.bdd = s.bdd := by
  obtain ⟨hg, hb, -⟩ := lookupKernelContent_gives (x := .agg left right sets)
    (contentContains_reads L (containsDeBruijnIndex_reads L n) _ _) h hx hr
  exact ⟨hg, hb⟩

theorem getQuantKernel_gives {n : ℕ} {sort : S} {b k : ℕ} (h : Inv c s) (hb : s.bdd b ≠ none)
    (hr : (getQuantKernel L n sort b).run s = some (k, s')) :
    Gives c s s' k ∧ s'.bdd = s.bdd := by
  unfold getQuantKernel at hr
  split_ifs at hr with h1 h2
  · obtain ⟨rfl, rfl⟩ := Op.pure_eq_some.mp hr
    exact ⟨Gives.of_true h, rfl⟩
  · obtain ⟨rfl, rfl⟩ := Op.pure_eq_some.mp hr
    exact ⟨Gives.of_false h, rfl⟩
  · obtain ⟨v, s1, hv, hr⟩ := Op.bind_eq_some.mp hr
    obtain rfl := isSolved_reads L n sort b s v s1 hv
    split_ifs at hr with hv
    · obtain ⟨rfl, rfl⟩ := Op.pure_eq_some.mp hr
      exact ⟨Gives.of_true h, rfl⟩
    · obtain ⟨hg, hb, -⟩ := lookupKernelContent_gives (containsDeBruijnIndex_reads L n b 1) h
        (fun b' hb' => by rw [List.mem_singleton.mp hb']; exact hb) hr
      exact ⟨hg, hb⟩

end AddKernel

end FOBDDManager

end FoBdd
