import Mathlib

namespace Structure

variable {α : Type}

-- every constituent iterator is the list of the tuples it still has ahead
structure UnionInternalIterator (α : Type) where
  iterators : List (List α)
  curriterator : Option ℕ

namespace UnionInternalIterator

section Iterators

def hasNext (it : UnionInternalIterator α) : Bool := it.curriterator.isSome

def deref (it : UnionInternalIterator α) : Option α :=
  it.curriterator.bind fun c => it.iterators[c]?.bind List.head?

def advance (it : UnionInternalIterator α) : List (List α) :=
  match it.curriterator with
  | none => it.iterators
  | some c => it.iterators.modify c List.tail

variable (contains : α → Bool)

def ready : List α → Bool
  | [] => false
  | t :: _ => contains t

def live (its : List (List α)) : List (List α) := its.dropWhile fun r => !ready contains r

variable {contains}

theorem live_cons_of_ready {r : List α} (its : List (List α)) (h : ready contains r = true) :
    live contains (r :: its) = r :: its := by
  rw [live, List.dropWhile_cons_of_neg (by simp [h])]

theorem live_cons_of_not_ready {r : List α} (its : List (List α)) (h : ready contains r = false) :
    live contains (r :: its) = live contains its := by
  rw [live, List.dropWhile_cons_of_pos (by simp [h]), live]

theorem mem_of_mem_live {its : List (List α)} {t : α} (h : t ∈ (live contains its).flatten) :
    t ∈ its.flatten := by
  obtain ⟨r, hr, ht⟩ := List.mem_flatten.mp h
  exact List.mem_flatten.mpr ⟨r, (List.dropWhile_sublist _).mem hr, ht⟩

theorem flatten_length_le {its' its : List (List α)} (h : List.Forall₂ (· <:+ ·) its' its) :
    its'.flatten.length ≤ its.flatten.length := by
  induction h with
  | nil => exact le_rfl
  | cons h _ ih =>
    simp only [List.flatten_cons, List.length_append]
    exact Nat.add_le_add h.length_le ih

theorem mem_of_suffix {its' its : List (List α)} (h : List.Forall₂ (· <:+ ·) its' its) {t : α}
    (ht : t ∈ its'.flatten) : t ∈ its.flatten := by
  induction h with
  | nil => exact ht
  | cons h _ ih =>
    rw [List.flatten_cons, List.mem_append] at ht ⊢
    exact ht.imp (fun ht => h.mem ht) ih

theorem deref_cons (r : List α) (its : List (List α)) (c : Option ℕ) :
    (⟨r :: its, c.map (· + 1)⟩ : UnionInternalIterator α).deref = deref ⟨its, c⟩ := by
  cases c <;> rfl

theorem advance_cons (r : List α) (its : List (List α)) (c : Option ℕ) :
    (⟨r :: its, c.map (· + 1)⟩ : UnionInternalIterator α).advance = r :: advance ⟨its, c⟩ := by
  cases c <;> rfl

theorem mem_of_mem_modify_tail {its : List (List α)} {k : ℕ} {t : α}
    (h : t ∈ (its.modify k List.tail).flatten) : t ∈ its.flatten := by
  induction its generalizing k with
  | nil => simp at h
  | cons r its ih =>
    cases k with
    | zero =>
      rw [List.modify_zero_cons, List.flatten_cons, List.mem_append] at h
      rw [List.flatten_cons, List.mem_append]
      exact h.imp_left List.mem_of_mem_tail
    | succ k =>
      rw [List.modify_succ_cons, List.flatten_cons, List.mem_append] at h
      rw [List.flatten_cons, List.mem_append]
      exact h.imp_right ih

theorem modify_tail_length {its : List (List α)} {k : ℕ} {v : α}
    (h : its[k]?.bind List.head? = some v) :
    (its.modify k List.tail).flatten.length < its.flatten.length := by
  induction its generalizing k with
  | nil => cases h
  | cons r its ih =>
    cases k with
    | zero =>
      cases r with
      | nil => cases h
      | cons t r => simp
    | succ k =>
      have := ih h
      simp only [List.modify_succ_cons, List.flatten_cons, List.length_append]
      omega

theorem suffix_modify_tail (its : List (List α)) (k : ℕ) :
    List.Forall₂ (· <:+ ·) (its.modify k List.tail) its := by
  induction its generalizing k with
  | nil => simp
  | cons r its ih =>
    cases k with
    | zero =>
      exact List.Forall₂.cons (List.tail_suffix r)
        (List.forall₂_same.mpr fun q _ => List.suffix_refl q)
    | succ k => exact List.Forall₂.cons (List.suffix_refl r) (ih k)

theorem suffix_advance (it : UnionInternalIterator α) :
    List.Forall₂ (· <:+ ·) it.advance it.iterators := by
  unfold advance
  split
  · exact List.forall₂_same.mpr fun q _ => List.suffix_refl q
  · exact suffix_modify_tail _ _

theorem exists_not_ready {its : List (List α)} {t : α} (ht : t ∈ its.flatten)
    (hl : t ∉ (live contains its).flatten) : ∃ r ∈ its, ready contains r = false ∧ t ∈ r := by
  induction its with
  | nil => cases ht
  | cons r its ih =>
    cases hr : ready contains r with
    | true => exact absurd ht (live_cons_of_ready its hr ▸ hl)
    | false =>
      rw [live_cons_of_not_ready its hr] at hl
      rw [List.flatten_cons, List.mem_append] at ht
      rcases ht with ht | ht
      · exact ⟨r, List.mem_cons_self, hr, ht⟩
      · obtain ⟨q, hq, h⟩ := ih ht hl
        exact ⟨q, List.mem_cons_of_mem r hq, h⟩

end Iterators

section Merge

variable [LinearOrder α] (contains : α → Bool)

def settle (curr : α) : List α → List α × Option α
  | [] => ([], none)
  | t :: r =>
    if contains t then
      if t < curr then (t :: r, some t)
      else if ¬ curr < t then (r, none)
      else (t :: r, none)
    else settle curr r

def settleAll (curr : α) : List (List α) → List (List α) × Option ℕ
  | [] => ([], none)
  | r :: its =>
    let (r', passed) := settle contains curr r
    let (its', k) := settleAll (passed.getD curr) its
    (r' :: its', match k with
      | some k => some (k + 1)
      | none => passed.map fun _ => 0)

def setcurriterator : List (List α) → UnionInternalIterator α
  | [] => ⟨[], none⟩
  | r :: its =>
    match r with
    | t :: _ =>
      if contains t then
        let (its', k) := settleAll contains t its
        ⟨r :: its', some ((k.map (· + 1)).getD 0)⟩
      else
        let it := setcurriterator its
        ⟨r :: it.iterators, it.curriterator.map (· + 1)⟩
    | [] =>
      let it := setcurriterator its
      ⟨r :: it.iterators, it.curriterator.map (· + 1)⟩

def next (it : UnionInternalIterator α) : UnionInternalIterator α :=
  setcurriterator contains it.advance

def collect : ℕ → UnionInternalIterator α → Option (List α)
  | 0, _ => none
  | n + 1, it =>
    if it.hasNext then it.deref.bind fun t => (collect n (it.next contains)).map (t :: ·)
    else some []

end Merge

section Settle

variable [LinearOrder α] {contains : α → Bool}

variable (contains) in
theorem settle_suffix (curr : α) (r : List α) : (settle contains curr r).1 <:+ r := by
  induction r with
  | nil => exact List.suffix_refl _
  | cons t r ih =>
    rw [settle]
    split_ifs
    · exact List.suffix_refl _
    · exact List.suffix_refl _
    · exact List.suffix_cons _ _
    · exact ih.trans (List.suffix_cons _ _)

theorem settle_keeps (curr : α) {t : α} {r : List α} (hc : contains t = true) (ht : t ∈ r) :
    t ∈ (settle contains curr r).1 ∨ t = curr := by
  induction r with
  | nil => cases ht
  | cons a r ih =>
    rw [settle]
    rcases List.mem_cons.mp ht with rfl | ht
    · rw [if_pos hc]
      split_ifs with h1 h2
      · exact Or.inl List.mem_cons_self
      · exact Or.inl List.mem_cons_self
      · exact Or.inr (le_antisymm (not_lt.mp h2) (not_lt.mp h1))
    · split_ifs
      · exact Or.inl (List.mem_cons_of_mem _ ht)
      · exact Or.inl (List.mem_cons_of_mem _ ht)
      · exact Or.inl ht
      · exact ih ht

theorem settle_passed {curr t : α} {r : List α} (h : (settle contains curr r).2 = some t) :
    contains t = true ∧ t < curr ∧ ∃ r', (settle contains curr r).1 = t :: r' := by
  induction r with
  | nil => cases h
  | cons a r ih =>
    rw [settle] at h ⊢
    split_ifs at h ⊢ with h1 h2
    · cases h
      exact ⟨h1, h2, r, rfl⟩
    · exact ih h

theorem settle_above {curr t : α} {r : List α} (hs : r.Pairwise (· < ·))
    (h : (settle contains curr r).2 = none) (ht : t ∈ (settle contains curr r).1) :
    curr < t := by
  induction r with
  | nil => cases ht
  | cons a r ih =>
    rw [List.pairwise_cons] at hs
    rw [settle] at h ht
    split_ifs at h ht with h1 h2 h3
    · rcases List.mem_cons.mp ht with rfl | ht
      · exact h3
      · exact h3.trans (hs.1 t ht)
    · exact (not_lt.mp h2).trans_lt (hs.1 t ht)
    · exact ih hs.2 h ht

theorem settle_getD_le {curr : α} {r : List α} : (settle contains curr r).2.getD curr ≤ curr := by
  cases h : (settle contains curr r).2 with
  | none => exact le_rfl
  | some t => exact (settle_passed h).2.1.le

theorem settle_above_getD {curr t : α} {r : List α} (hs : r.Pairwise (· < ·))
    (ht : t ∈ (settle contains curr r).1) : (settle contains curr r).2.getD curr ≤ t := by
  cases h : (settle contains curr r).2 with
  | none => exact (settle_above hs h ht).le
  | some a =>
    obtain ⟨-, -, r', hr⟩ := settle_passed h
    have hs' := hs.sublist (settle_suffix contains curr r).sublist
    rw [hr] at hs' ht
    rcases List.mem_cons.mp ht with rfl | ht
    · exact le_rfl
    · exact ((List.pairwise_cons.mp hs').1 t ht).le

end Settle

section SettleAll

variable [LinearOrder α] {contains : α → Bool}

def rest (its : List (List α)) : Option ℕ → List (List α)
  | none => its
  | some k => its.modify k List.tail

def Sorted (its : List (List α)) : Prop := ∀ r ∈ its, r.Pairwise (· < ·)

structure Settled (contains : α → Bool) (curr v : α) (its : List (List α))
    (res : List (List α) × Option ℕ) : Prop where
  stays : res.2 = none → v = curr
  moves : ∀ k, res.2 = some k → res.1[k]?.bind List.head? = some v ∧ contains v = true ∧
    v < curr ∧ v ∈ its.flatten
  above : ∀ t ∈ (rest res.1 res.2).flatten, v < t
  keeps : ∀ t, contains t = true → t ∈ its.flatten →
    t = v ∨ t = curr ∨ t ∈ (rest res.1 res.2).flatten
  suffix : List.Forall₂ (· <:+ ·) res.1 its

variable (contains) in
theorem settleAll_settled (curr : α) {its : List (List α)} (hs : Sorted its) :
    ∃ v, Settled contains curr v its (settleAll contains curr its) := by
  induction its generalizing curr with
  | nil => exact ⟨curr, fun _ => rfl, nofun, nofun, nofun, List.Forall₂.nil⟩
  | cons r its ih =>
    have hr : r.Pairwise (· < ·) := hs r List.mem_cons_self
    obtain ⟨v, hv⟩ := ih ((settle contains curr r).2.getD curr)
      fun q hq => hs q (List.mem_cons_of_mem r hq)
    rw [settleAll]
    dsimp only
    generalize settleAll contains ((settle contains curr r).2.getD curr) its = res at hv ⊢
    obtain ⟨its', k⟩ := res
    have hsuffix := List.Forall₂.cons (settle_suffix contains curr r) hv.suffix
    refine ⟨v, ?_⟩
    cases k with
    | some k =>
      obtain ⟨hd, hc, hlt, hmem⟩ := hv.moves k rfl
      refine ⟨nofun, ?_, ?_, ?_, hsuffix⟩
      · intro j hj
        cases hj
        exact ⟨hd, hc, hlt.trans_le settle_getD_le, by simp [hmem]⟩
      · intro t ht
        simp only [rest, List.modify_succ_cons, List.flatten_cons, List.mem_append] at ht
        rcases ht with ht | ht
        · exact hlt.trans_le (settle_above_getD hr ht)
        · exact hv.above t ht
      · intro t hct ht
        simp only [rest, List.modify_succ_cons, List.flatten_cons, List.mem_append] at ht ⊢
        rcases ht with ht | ht
        · exact (settle_keeps curr hct ht).elim (fun h => Or.inr (Or.inr (Or.inl h)))
            fun h => Or.inr (Or.inl h)
        · rcases hv.keeps t hct ht with h | h | h
          · exact Or.inl h
          · cases ho : (settle contains curr r).2 with
            | none => exact Or.inr (Or.inl (by rw [h, ho]; rfl))
            | some a =>
              obtain ⟨-, -, r', hr'⟩ := settle_passed ho
              exact Or.inr (Or.inr (Or.inl (by rw [h, ho, hr']; exact List.mem_cons_self)))
          · exact Or.inr (Or.inr (Or.inr h))
    | none =>
      have hstay := hv.stays rfl
      have habove := hv.above
      have hkeeps := hv.keeps
      simp only [rest] at habove hkeeps
      cases ho : (settle contains curr r).2 with
      | none =>
        rw [ho] at hstay hkeeps
        refine ⟨fun _ => hstay, nofun, ?_, ?_, hsuffix⟩
        · intro t ht
          simp only [rest, Option.map_none, List.flatten_cons, List.mem_append] at ht
          rcases ht with ht | ht
          · exact hstay ▸ settle_above hr ho ht
          · exact habove t ht
        · intro t hct ht
          simp only [rest, Option.map_none, List.flatten_cons, List.mem_append] at ht ⊢
          rcases ht with ht | ht
          · exact (settle_keeps curr hct ht).elim (fun h => Or.inr (Or.inr (Or.inl h)))
              fun h => Or.inr (Or.inl h)
          · exact (hkeeps t hct ht).elim Or.inl (Or.elim · (fun h => Or.inr (Or.inl h))
              fun h => Or.inr (Or.inr (Or.inr h)))
      | some a =>
        rw [ho] at hstay hkeeps
        obtain ⟨hc, hlt, r', hr'⟩ := settle_passed ho
        obtain rfl : v = a := hstay
        have hsorted := hr.sublist (settle_suffix contains curr r).sublist
        rw [hr', List.pairwise_cons] at hsorted
        rw [hr'] at hsuffix ⊢
        refine ⟨nofun, ?_, ?_, ?_, hsuffix⟩
        · intro j hj
          cases hj
          refine ⟨rfl, hc, hlt, ?_⟩
          have := (settle_suffix contains curr r).mem
            (hr' ▸ List.mem_cons_self : v ∈ _)
          simp [this]
        · intro t ht
          simp only [rest, Option.map_some, List.modify_zero_cons, List.tail_cons,
            List.flatten_cons, List.mem_append] at ht
          rcases ht with ht | ht
          · exact hsorted.1 t ht
          · exact habove t ht
        · intro t hct ht
          simp only [rest, Option.map_some, List.modify_zero_cons, List.tail_cons,
            List.flatten_cons, List.mem_append] at ht ⊢
          rcases ht with ht | ht
          · rcases settle_keeps curr hct ht with h | h
            · rw [hr'] at h
              exact (List.mem_cons.mp h).elim Or.inl fun h => Or.inr (Or.inr (Or.inl h))
            · exact Or.inr (Or.inl h)
          · exact (hkeeps t hct ht).elim Or.inl (Or.elim · Or.inl
              fun h => Or.inr (Or.inr (Or.inr h)))

end SettleAll

section Current

variable [LinearOrder α] (contains : α → Bool)

def Pool (its : List (List α)) (t : α) : Prop :=
  contains t = true ∧ t ∈ (live contains its).flatten

-- the first loop of setcurriterator walks past an iterator that still has a tuple of the union
-- ahead, and no iterator behind it has that tuple
def Drops (last : Option α) (its : List (List α)) : Prop :=
  ∃ t, contains t = true ∧ (∀ v ∈ last, v < t) ∧ t ∈ its.flatten ∧
    t ∉ (live contains its).flatten

variable {contains}

theorem pool_of_mem {its : List (List α)} {last : Option α} {t : α}
    (hd : ¬ Drops contains last its) (hc : contains t = true) (hl : ∀ v ∈ last, v < t)
    (ht : t ∈ its.flatten) : Pool contains its t :=
  ⟨hc, by_contra fun h => hd ⟨t, hc, hl, ht, h⟩⟩

structure Current (contains : α → Bool) (its : List (List α)) (it : UnionInternalIterator α)
    (v : α) : Prop where
  deref : it.deref = some v
  pool : Pool contains its v
  advances : ∀ t, Pool contains its t → t = v ∨ (v < t ∧ t ∈ it.advance.flatten)
  later : ∀ t, Pool contains it.advance t → Pool contains its t ∧ v < t
  shorter : it.advance.flatten.length < its.flatten.length

theorem setcurriterator_cons_of_ready {t : α} {r : List α} (its : List (List α))
    (h : contains t = true) :
    setcurriterator contains ((t :: r) :: its) =
      ⟨(t :: r) :: (settleAll contains t its).1,
        some (((settleAll contains t its).2.map (· + 1)).getD 0)⟩ := by
  rw [setcurriterator]
  dsimp only
  rw [if_pos h]

theorem setcurriterator_cons_of_not_ready {r : List α} (its : List (List α))
    (h : ready contains r = false) :
    setcurriterator contains (r :: its) =
      ⟨r :: (setcurriterator contains its).iterators,
        (setcurriterator contains its).curriterator.map (· + 1)⟩ := by
  cases r with
  | nil => rfl
  | cons t r =>
    rw [setcurriterator]
    dsimp only
    rw [if_neg (by simpa [ready] using h)]

variable (contains) in
theorem setcurriterator_suffix {its : List (List α)} (hs : Sorted its) :
    List.Forall₂ (· <:+ ·) (setcurriterator contains its).iterators its := by
  induction its with
  | nil => exact List.Forall₂.nil
  | cons r its ih =>
    have hs' : Sorted its := fun q hq => hs q (List.mem_cons_of_mem r hq)
    cases hr : ready contains r with
    | false =>
      rw [setcurriterator_cons_of_not_ready its hr]
      exact List.Forall₂.cons (List.suffix_refl r) (ih hs')
    | true =>
      cases r with
      | nil => cases hr
      | cons t r =>
        rw [setcurriterator_cons_of_ready its hr]
        obtain ⟨v, hv⟩ := settleAll_settled contains t hs'
        exact List.Forall₂.cons (List.suffix_refl _) hv.suffix

theorem current_of_ready {t : α} {r : List α} {its : List (List α)} (hs : Sorted ((t :: r) :: its))
    (h : contains t = true) :
    ∃ v, Current contains ((t :: r) :: its) (setcurriterator contains ((t :: r) :: its)) v := by
  have hs' : Sorted its := fun q hq => hs q (List.mem_cons_of_mem _ hq)
  have hr := List.pairwise_cons.mp (hs (t :: r) List.mem_cons_self)
  obtain ⟨v, hv⟩ := settleAll_settled contains t hs'
  have hlive : live contains ((t :: r) :: its) = (t :: r) :: its := live_cons_of_ready its h
  rw [setcurriterator_cons_of_ready its h]
  generalize settleAll contains t its = res at hv ⊢
  obtain ⟨its', k⟩ := res
  have hsub : ∀ a ∈ its'.flatten, a ∈ its.flatten := fun a => mem_of_suffix hv.suffix
  refine ⟨v, ?_⟩
  cases k with
  | none =>
    obtain rfl : v = t := hv.stays rfl
    refine ⟨rfl, ⟨h, by simp [hlive]⟩, ?_, ?_, ?_⟩
    · rintro a ⟨hca, ha⟩
      rw [hlive, List.flatten_cons, List.mem_append, List.mem_cons] at ha
      simp only [advance, Option.map_none, Option.getD_none, List.modify_zero_cons, List.tail_cons,
        List.flatten_cons, List.mem_append]
      rcases ha with (rfl | ha) | ha
      · exact Or.inl rfl
      · exact Or.inr ⟨hr.1 a ha, Or.inl ha⟩
      · rcases hv.keeps a hca ha with rfl | rfl | ha
        · exact Or.inl rfl
        · exact Or.inl rfl
        · exact Or.inr ⟨hv.above a ha, Or.inr ha⟩
    · rintro a ⟨hca, ha⟩
      have ha := mem_of_mem_live ha
      simp only [advance, Option.map_none, Option.getD_none, List.modify_zero_cons, List.tail_cons,
        List.flatten_cons, List.mem_append] at ha
      rw [Pool, hlive]
      rcases ha with ha | ha
      · exact ⟨⟨hca, by simp [ha]⟩, hr.1 a ha⟩
      · exact ⟨⟨hca, by simp [hsub a ha]⟩, hv.above a ha⟩
    · simp only [advance, Option.map_none, Option.getD_none, List.modify_zero_cons, List.tail_cons,
        List.flatten_cons, List.length_append, List.length_cons]
      have := flatten_length_le hv.suffix
      dsimp only at this
      omega
  | some k =>
    obtain ⟨hd, hc, hlt, hmem⟩ := hv.moves k rfl
    have hadv : advance ⟨(t :: r) :: its', some (k + 1)⟩ = (t :: r) :: its'.modify k List.tail :=
      List.modify_succ_cons _ _ _ _
    refine ⟨(deref_cons (t :: r) its' (some k)).trans hd, ⟨hc, by simp [hlive, hmem]⟩, ?_, ?_, ?_⟩
    · rintro a ⟨hca, ha⟩
      rw [hlive, List.flatten_cons, List.mem_append] at ha
      refine or_iff_not_imp_left.mpr fun hne => ?_
      change v < a ∧ a ∈ (advance ⟨(t :: r) :: its', some (k + 1)⟩).flatten
      rw [hadv, List.flatten_cons, List.mem_append]
      have hcons : ∀ b ∈ t :: r, v < b := by
        intro b hb
        rcases List.mem_cons.mp hb with rfl | hb
        · exact hlt
        · exact hlt.trans (hr.1 b hb)
      rcases ha with ha | ha
      · exact ⟨hcons a ha, Or.inl ha⟩
      · rcases hv.keeps a hca ha with rfl | rfl | ha
        · exact absurd rfl hne
        · exact ⟨hlt, Or.inl List.mem_cons_self⟩
        · exact ⟨hv.above a ha, Or.inr ha⟩
    · rintro a ⟨hca, ha⟩
      have ha := mem_of_mem_live ha
      change a ∈ (advance ⟨(t :: r) :: its', some (k + 1)⟩).flatten at ha
      rw [hadv, List.flatten_cons, List.mem_append] at ha
      rw [Pool, hlive, List.flatten_cons, List.mem_append]
      rcases ha with ha | ha
      · refine ⟨⟨hca, Or.inl ha⟩, ?_⟩
        rcases List.mem_cons.mp ha with rfl | ha
        · exact hlt
        · exact hlt.trans (hr.1 a ha)
      · exact ⟨⟨hca, Or.inr (hsub a (mem_of_mem_modify_tail ha))⟩, hv.above a ha⟩
    · change (advance ⟨(t :: r) :: its', some (k + 1)⟩).flatten.length < _
      rw [hadv, List.flatten_cons, List.flatten_cons, List.length_append, List.length_append]
      have := modify_tail_length hd
      have := flatten_length_le hv.suffix
      dsimp only at *
      omega

theorem setcurriterator_spec {its : List (List α)} (hs : Sorted its) :
    ((setcurriterator contains its).curriterator = none ∧ live contains its = []) ∨
      ∃ v, Current contains its (setcurriterator contains its) v := by
  induction its with
  | nil => exact Or.inl ⟨rfl, rfl⟩
  | cons r its ih =>
    cases hr : ready contains r with
    | true =>
      cases r with
      | nil => cases hr
      | cons t r => exact Or.inr (current_of_ready hs hr)
    | false =>
      have hs' : Sorted its := fun q hq => hs q (List.mem_cons_of_mem _ hq)
      rw [setcurriterator_cons_of_not_ready its hr, live_cons_of_not_ready its hr]
      rcases ih hs' with ⟨hnone, hlive⟩ | ⟨v, hv⟩
      · exact Or.inl ⟨by rw [hnone]; rfl, hlive⟩
      · refine Or.inr ⟨v, (deref_cons _ _ _).trans hv.deref, ?_, ?_, ?_, ?_⟩
        · exact ⟨hv.pool.1, (live_cons_of_not_ready its hr).symm ▸ hv.pool.2⟩
        · rintro a ⟨hca, ha⟩
          rw [live_cons_of_not_ready its hr] at ha
          rw [advance_cons, List.flatten_cons, List.mem_append]
          exact (hv.advances a ⟨hca, ha⟩).imp_right fun h => ⟨h.1, Or.inr h.2⟩
        · rintro a ⟨hca, ha⟩
          rw [advance_cons, live_cons_of_not_ready _ hr] at ha
          rw [Pool, live_cons_of_not_ready its hr]
          exact hv.later a ⟨hca, ha⟩
        · rw [advance_cons, List.flatten_cons, List.flatten_cons, List.length_append,
            List.length_append]
          exact Nat.add_lt_add_left hv.shorter _

end Current

end UnionInternalIterator

end Structure
