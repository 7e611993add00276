import DeclarativeLocalSearch.Theory.Binding
import DeclarativeLocalSearch.Theory.Semantics

namespace Theory

variable {S P F D : Type}

-- what a kind of expressions has in common with the others, for the transformations
structure Kind (S D α β : Type) where
  free : α → List (Variable S)
  bound : α → List (Variable S)
  prepared : α → Prop
  meaning : α → (Variable S → D) → β

namespace Kind

variable {α β γ δ : Type}

def list (K : Kind S D α β) : Kind S D (List α) (List β) where
  free l := l.flatMap K.free
  bound l := l.flatMap K.bound
  prepared l := ∀ x ∈ l, K.prepared x
  meaning l e := l.map fun x => K.meaning x e

def pair (K : Kind S D α β) (L : Kind S D γ δ) : Kind S D (α × γ) (β × δ) where
  free x := K.free x.1 ++ L.free x.2
  bound x := K.bound x.1 ++ L.bound x.2
  prepared x := K.prepared x.1 ∧ L.prepared x.2
  meaning x e := (K.meaning x.1 e, L.meaning x.2 e)

variable (used : S → Prop)

-- the identifiers from n on are not in use
structure Fit (K : Kind S D α β) (n : ℕ) (x : α) : Prop where
  prepared : K.prepared x
  free : ∀ v ∈ K.free x, v.id < n
  bound : ∀ v ∈ K.bound x, v.id < n
  used : ∀ v ∈ K.bound x, used v.sort

structure Becomes (K : Kind S D α β) (n : ℕ) (x : α) (n' : ℕ) (x' : α) : Prop where
  le : n ≤ n'
  fit : K.Fit used n' x'
  free : ∀ v ∈ K.free x', v ∈ K.free x
  bound : ∀ v ∈ K.bound x', v ∈ K.bound x ∨ n ≤ v.id
  meaning : K.meaning x' = K.meaning x

variable {used} {K : Kind S D α β} {L : Kind S D γ δ} {n n' n'' : ℕ}

theorem Fit.mono {x : α} (h : K.Fit used n x) (hn : n ≤ n') : K.Fit used n' x where
  prepared := h.prepared
  free v hv := Nat.lt_of_lt_of_le (h.free v hv) hn
  bound v hv := Nat.lt_of_lt_of_le (h.bound v hv) hn
  used := h.used

theorem Becomes.refl {x : α} (h : K.Fit used n x) : K.Becomes used n x n x where
  le := Nat.le_refl n
  fit := h
  free _ hv := hv
  bound _ hv := Or.inl hv
  meaning := rfl

theorem Becomes.later {x : α} (h : K.Fit used n x) (hn : n ≤ n') : K.Becomes used n x n' x where
  le := hn
  fit := h.mono hn
  free _ hv := hv
  bound _ hv := Or.inl hv
  meaning := rfl

theorem Becomes.trans {x x' x'' : α} (h : K.Becomes used n x n' x')
    (h' : K.Becomes used n' x' n'' x'') : K.Becomes used n x n'' x'' where
  le := Nat.le_trans h.le h'.le
  fit := h'.fit
  free v hv := h.free v (h'.free v hv)
  bound v hv := (h'.bound v hv).elim (h.bound v) fun hn => Or.inr (Nat.le_trans h.le hn)
  meaning := h'.meaning.trans h.meaning

theorem Becomes.here {x x' : α} (h : K.Fit used n x) (hprepared : K.prepared x')
    (hfree : ∀ v ∈ K.free x', v ∈ K.free x) (hbound : ∀ v ∈ K.bound x', v ∈ K.bound x)
    (hmeaning : K.meaning x' = K.meaning x) : K.Becomes used n x n x' where
  le := Nat.le_refl n
  fit :=
    { prepared := hprepared
      free := fun v hv => h.free v (hfree v hv)
      bound := fun v hv => h.bound v (hbound v hv)
      used := fun v hv => h.used v (hbound v hv) }
  free := hfree
  bound v hv := Or.inl (hbound v hv)
  meaning := hmeaning

theorem Becomes.not_bound {x x' : α} {v : Variable S} (h : K.Becomes used n x n' x')
    (hv : v ∉ K.bound x) (hn : v.id < n) : v ∉ K.bound x' :=
  fun hv' => (h.bound v hv').elim hv fun hle => absurd hn (Nat.not_lt.mpr hle)

theorem fit_list_iff {l : List α} : K.list.Fit used n l ↔ ∀ x ∈ l, K.Fit used n x := by
  constructor
  · exact fun h x hx =>
      { prepared := h.prepared x hx
        free := fun v hv => h.free v (List.mem_flatMap_of_mem hx hv)
        bound := fun v hv => h.bound v (List.mem_flatMap_of_mem hx hv)
        used := fun v hv => h.used v (List.mem_flatMap_of_mem hx hv) }
  · intro h
    refine ⟨fun x hx => (h x hx).prepared, fun v hv => ?_, fun v hv => ?_, fun v hv => ?_⟩
    · obtain ⟨x, hx, hv⟩ := List.mem_flatMap.mp hv
      exact (h x hx).free v hv
    · obtain ⟨x, hx, hv⟩ := List.mem_flatMap.mp hv
      exact (h x hx).bound v hv
    · obtain ⟨x, hx, hv⟩ := List.mem_flatMap.mp hv
      exact (h x hx).used v hv

theorem fit_pair_iff {x : α × γ} :
    (K.pair L).Fit used n x ↔ K.Fit used n x.1 ∧ L.Fit used n x.2 := by
  constructor
  · exact fun h =>
      ⟨⟨h.prepared.1, fun v hv => h.free v (List.mem_append_left _ hv),
        fun v hv => h.bound v (List.mem_append_left _ hv),
        fun v hv => h.used v (List.mem_append_left _ hv)⟩,
      ⟨h.prepared.2, fun v hv => h.free v (List.mem_append_right _ hv),
        fun v hv => h.bound v (List.mem_append_right _ hv),
        fun v hv => h.used v (List.mem_append_right _ hv)⟩⟩
  · exact fun ⟨h, h'⟩ =>
      ⟨⟨h.prepared, h'.prepared⟩, fun v hv => (List.mem_append.mp hv).elim (h.free v) (h'.free v),
        fun v hv => (List.mem_append.mp hv).elim (h.bound v) (h'.bound v),
        fun v hv => (List.mem_append.mp hv).elim (h.used v) (h'.used v)⟩

theorem Becomes.cons {x x' : α} {l l' : List α} (h : K.Becomes used n x n' x')
    (h' : K.list.Becomes used n' l n'' l') : K.list.Becomes used n (x :: l) n'' (x' :: l') where
  le := Nat.le_trans h.le h'.le
  fit := fit_list_iff.mpr (List.forall_mem_cons.mpr
    ⟨h.fit.mono h'.le, fit_list_iff.mp h'.fit⟩)
  free v hv := List.mem_append.mpr ((List.mem_append.mp hv).imp (h.free v) (h'.free v))
  bound v hv := by
    rcases List.mem_append.mp hv with hv | hv
    · exact (h.bound v hv).imp_left (List.mem_append_left _)
    · exact (h'.bound v hv).imp (List.mem_append_right _) (Nat.le_trans h.le)
  meaning := funext fun e => congrArg₂ List.cons (congrFun h.meaning e) (congrFun h'.meaning e)

theorem Becomes.pair {x x' : α} {y y' : γ} (h : K.Becomes used n x n' x')
    (h' : L.Becomes used n' y n'' y') : (K.pair L).Becomes used n (x, y) n'' (x', y') where
  le := Nat.le_trans h.le h'.le
  fit := fit_pair_iff.mpr ⟨h.fit.mono h'.le, h'.fit⟩
  free v hv := List.mem_append.mpr ((List.mem_append.mp hv).imp (h.free v) (h'.free v))
  bound v hv := by
    rcases List.mem_append.mp hv with hv | hv
    · exact (h.bound v hv).imp_left (List.mem_append_left _)
    · exact (h'.bound v hv).imp (List.mem_append_right _) (Nat.le_trans h.le)
  meaning := funext fun e => congrArg₂ Prod.mk (congrFun h.meaning e) (congrFun h'.meaning e)

section Wraps

variable [DecidableEq S]

-- a constructor that binds the variables in the part it is given
structure Wraps (I : Structure S P F D) (K : Kind S D α β) (L : Kind S D γ δ)
    (vars : List (Variable S)) (c : α → γ) : Prop where
  free : ∀ x v, v ∈ L.free (c x) ↔ v ∈ K.free x ∧ v ∉ vars
  bound : ∀ x v, v ∈ L.bound (c x) ↔ v ∈ vars ∨ v ∈ K.bound x
  prepared : ∀ x, L.prepared (c x) ↔ (∀ v ∈ vars, v ∉ K.bound x) ∧ K.prepared x
  meaning : ∀ x x' e e',
    (∀ a : I.Tuple vars, K.meaning x (I.extend e a) = K.meaning x' (I.extend e' a)) →
      L.meaning (c x) e = L.meaning (c x') e'

variable {I : Structure S P F D} {vars : List (Variable S)} {c : α → γ}

theorem Wraps.fit_iff (w : Wraps I K L vars c) {x : α} :
    L.Fit used n (c x) ↔ K.Fit used n x ∧
      ∀ v ∈ vars, v ∉ K.bound x ∧ v.id < n ∧ used v.sort := by
  constructor
  · intro h
    obtain ⟨hvars, hprepared⟩ := (w.prepared x).mp h.prepared
    refine ⟨⟨hprepared, fun v hv => ?_, fun v hv => h.bound v ((w.bound x v).mpr (Or.inr hv)),
      fun v hv => h.used v ((w.bound x v).mpr (Or.inr hv))⟩, fun v hv => ⟨hvars v hv, ?_, ?_⟩⟩
    · by_cases hvar : v ∈ vars
      · exact h.bound v ((w.bound x v).mpr (Or.inl hvar))
      · exact h.free v ((w.free x v).mpr ⟨hv, hvar⟩)
    · exact h.bound v ((w.bound x v).mpr (Or.inl hv))
    · exact h.used v ((w.bound x v).mpr (Or.inl hv))
  · rintro ⟨h, hvars⟩
    refine ⟨(w.prepared x).mpr ⟨fun v hv => (hvars v hv).1, h.prepared⟩, fun v hv => ?_,
      fun v hv => ?_, fun v hv => ?_⟩
    · exact h.free v ((w.free x v).mp hv).1
    · exact ((w.bound x v).mp hv).elim (fun hv => (hvars v hv).2.1) (h.bound v)
    · exact ((w.bound x v).mp hv).elim (fun hv => (hvars v hv).2.2) (h.used v)

theorem Wraps.becomes (w : Wraps I K L vars c) {x x' : α} (hfit : L.Fit used n (c x))
    (h : K.Becomes used n x n' x') : L.Becomes used n (c x) n' (c x') := by
  obtain ⟨-, hvars⟩ := w.fit_iff.mp hfit
  refine ⟨h.le, w.fit_iff.mpr ⟨h.fit, fun v hv => ?_⟩, fun v hv => ?_, fun v hv => ?_,
    funext fun e => w.meaning x' x e e fun a => congrFun h.meaning _⟩
  · obtain ⟨hbound, hn, hused⟩ := hvars v hv
    exact ⟨h.not_bound hbound hn, Nat.lt_of_lt_of_le hn h.le, hused⟩
  · obtain ⟨hv, hvar⟩ := (w.free x' v).mp hv
    exact (w.free x v).mpr ⟨h.free v hv, hvar⟩
  · rcases (w.bound x' v).mp hv with hv | hv
    · exact Or.inl ((w.bound x v).mpr (Or.inl hv))
    · exact (h.bound v hv).imp_left fun hv => (w.bound x v).mpr (Or.inr hv)

-- w takes the place of v
structure Substituted (K : Kind S D α β) (v w : Variable S) (x x' : α) : Prop where
  bound : ∀ u, u ∈ K.bound x' ↔ u ∈ K.bound x
  prepared : K.prepared x' ↔ K.prepared x
  free : ∀ u ∈ K.free x', u = w ∨ u ∈ K.free x ∧ u ≠ v
  meaning : v ∉ K.bound x → w ∉ K.bound x →
    ∀ e, K.meaning x' e = K.meaning x (Function.update e v (e w))

variable {v w : Variable S}

theorem Substituted.list {f : α → α} {l : List α} (h : ∀ x ∈ l, K.Substituted v w x (f x)) :
    K.list.Substituted v w l (l.map f) where
  bound u := by
    simp only [Kind.list, List.mem_flatMap, List.mem_map, exists_exists_and_eq_and]
    exact exists_congr fun x => and_congr_right fun hx => (h x hx).bound u
  prepared := by
    simp only [Kind.list, List.mem_map, forall_exists_index, and_imp, forall_apply_eq_imp_iff₂]
    exact forall₂_congr fun x hx => (h x hx).prepared
  free u hu := by
    simp only [Kind.list, List.mem_flatMap, List.mem_map, exists_exists_and_eq_and] at hu ⊢
    obtain ⟨x, hx, hu⟩ := hu
    exact ((h x hx).free u hu).imp_right fun hu => ⟨⟨x, hx, hu.1⟩, hu.2⟩
  meaning hv hw e := by
    simp only [Kind.list, List.map_map]
    exact List.map_congr_left fun x hx => (h x hx).meaning
      (fun hmem => hv (List.mem_flatMap_of_mem hx hmem))
      (fun hmem => hw (List.mem_flatMap_of_mem hx hmem)) e

theorem Substituted.pair {x x' : α} {y y' : γ} (h : K.Substituted v w x x')
    (h' : L.Substituted v w y y') : (K.pair L).Substituted v w (x, y) (x', y') where
  bound u := by
    simp only [Kind.pair, List.mem_append, h.bound, h'.bound]
  prepared := and_congr h.prepared h'.prepared
  free u hu := by
    simp only [Kind.pair, List.mem_append] at hu ⊢
    rcases hu with hu | hu
    · exact (h.free u hu).imp_right fun hu => ⟨Or.inl hu.1, hu.2⟩
    · exact (h'.free u hu).imp_right fun hu => ⟨Or.inr hu.1, hu.2⟩
  meaning hv hw e := by
    simp only [Kind.pair, List.mem_append, not_or] at hv hw ⊢
    rw [h.meaning hv.1 hw.1, h'.meaning hv.2 hw.2]

theorem Wraps.substituted (wr : Wraps I K L vars c) {x x' : α} (h : K.Substituted v w x x') :
    L.Substituted v w (c x) (c x') where
  bound u := by rw [wr.bound, wr.bound, h.bound]
  prepared := by
    rw [wr.prepared, wr.prepared, h.prepared]
    simp only [h.bound]
  free u hu := by
    obtain ⟨hu, hvar⟩ := (wr.free x' u).mp hu
    exact (h.free u hu).imp_right fun hu => ⟨(wr.free x u).mpr ⟨hu.1, hvar⟩, hu.2⟩
  meaning hv hw e := by
    rw [wr.bound, not_or] at hv hw
    refine wr.meaning x' x e _ fun a => ?_
    rw [h.meaning hv.2 hw.2]
    refine congrArg (K.meaning x) (funext fun u => ?_)
    by_cases huv : u = v
    · subst huv
      rw [Function.update_self, Structure.extend_of_not_mem hw.1, Structure.extend_of_not_mem hv.1,
        Function.update_self]
    · rw [Function.update_of_ne huv]
      exact Structure.extend_congr (fun _ => (Function.update_of_ne huv _ _).symm) a

end Wraps

end Kind

end Theory
