import DeclarativeLocalSearch.FoBdd.Swap

namespace FoBdd

open DecisionDiagram

variable {A S : Type}

namespace FOBDDManager

-- the kernel n comes right after the kernel k
structure Adjacent (s : FOBDDManager A S) (k n : ℕ) : Prop where
  lt : s.lt k n
  below : ∀ x, s.lt k x → x = n ∨ s.lt n x
  above : ∀ x, s.lt x n → x = k ∨ s.lt x k

-- an old diagram with its root below n: the swap does not touch it
def Below (s0 : FOBDDManager A S) (n x : ℕ) : Prop :=
  s0.bdd x ≠ none ∧ Above s0.lt s0.bdd n x

-- what may stand under n after the swap
def Placed (s0 s : FOBDDManager A S) (k n x : ℕ) : Prop :=
  Below s0 n x ∨ ∃ t f, s.bdd x = some (.branch k t f) ∧ Below s0 n t ∧ Below s0 n f

-- an old node, which is still to be visited or needs no swap; a new node; a rewritten node
inductive Stage (s0 s : FOBDDManager A S) (k n : ℕ) (visited : List (ℕ × ℕ)) (b k' hi lo : ℕ) :
    Prop where
  | kept (h : s0.bdd b = some (.branch k' hi lo))
      (hv : k' = k → (lo, hi) ∈ visited → ¬ s0.Root n hi ∧ ¬ s0.Root n lo) :
      Stage s0 s k n visited b k' hi lo
  | fresh (hk : k' = k) (h : s0.bdd b = none) (hhi : Below s0 n hi) (hlo : Below s0 n lo) :
      Stage s0 s k n visited b k' hi lo
  | rewritten (hn : k' = n) (h : s0.Root k b) (hhi : Placed s0 s k n hi)
      (hlo : Placed s0 s k n lo) : Stage s0 s k n visited b k' hi lo

structure SwappingSorted (s0 s : FOBDDManager A S) (k n : ℕ) (erase visited : List (ℕ × ℕ)) :
    Prop where
  keep : ∀ b k' hi lo, s0.bdd b = some (.branch k' hi lo) → k' ≠ k →
    s.bdd b = some (.branch k' hi lo)
  stage : ∀ b k' hi lo, s.bdd b = some (.branch k' hi lo) → Stage s0 s k n visited b k' hi lo
  reduced : ∀ b k' hi lo, s.bdd b = some (.branch k' hi lo) → hi ≠ lo
  hashed : ∀ b k' hi lo, s.bdd b = some (.branch k' hi lo) → s.bddtable k' lo hi = some b
  erased : ∀ f t, (f, t) ∈ erase → s0.Root n f ∨ s0.Root n t

variable {s s' s0 s1 : FOBDDManager A S} {k n : ℕ} {erase visited : List (ℕ × ℕ)} {W : ℕ → ℕ}

theorem Below.not_root {x : ℕ} (h : Below s0 n x) : ¬ s0.Root n x := by
  rintro ⟨hi, lo, hx⟩
  exact irrefl_of s0.lt n (h.2 n hi lo hx)

theorem below_of_above (ha : Adjacent s0 k n) {x : ℕ} (hv : s0.bdd x ≠ none)
    (hx : Above s0.lt s0.bdd k x) (hr : ¬ s0.Root n x) : Below s0 n x := by
  refine ⟨hv, fun k' hi lo hn => ?_⟩
  rcases ha.below k' (hx k' hi lo hn) with rfl | hlt
  · exact absurd ⟨hi, lo, hn⟩ hr
  · exact hlt

theorem Stage.mono {b k' hi lo : ℕ} (h : Stage s0 s k n visited b k' hi lo)
    (he : ∀ x, Placed s0 s k n x → Placed s0 s' k n x) : Stage s0 s' k n visited b k' hi lo := by
  cases h with
  | kept h hv => exact .kept h hv
  | fresh hk h hhi hlo => exact .fresh hk h hhi hlo
  | rewritten hn h hhi hlo => exact .rewritten hn h (he hi hhi) (he lo hlo)

theorem swappingSorted_refl (hs : s0.Sorted) : SwappingSorted s0 s0 k n [] [] where
  keep _ _ _ _ hb _ := hb
  stage _ _ _ _ hb := .kept hb fun _ hv => absurd hv List.not_mem_nil
  reduced := hs.reduced
  hashed := hs.hashed
  erased _ _ hx := absurd hx List.not_mem_nil

section Step

variable (h : Swapping s0 s k n erase W) (hs : SwappingSorted s0 s k n erase visited)

include h hs in
-- a diagram with its root below k is as it was
theorem SwappingSorted.old {x : ℕ} (hv : s0.bdd x ≠ none) (hx : Above s0.lt s0.bdd k x) :
    s.bdd x = s0.bdd x := by
  obtain ⟨y, hy⟩ := Option.ne_none_iff_exists'.mp hv
  rw [hy]
  cases y with
  | leaf v => exact (h.leaves x v).mpr hy
  | branch k' hi lo =>
    refine hs.keep x k' hi lo hy ?_
    rintro rfl
    exact irrefl_of s0.lt k' (hx k' hi lo hy)

include h hs in
theorem SwappingSorted.withBDD {t f : ℕ} (ht : Below s0 n t) (hf : Below s0 n f) (hne : f ≠ t)
    (hnew : s.bddtable k f t = none) :
    SwappingSorted s0 (s.withBDD k t f) k n erase visited := by
  have hext : ∀ b x, s.bdd b = some x → (s.withBDD k t f).bdd b = some x := fun b x hb =>
    (withBDD_bdd_old (h.next_none (by rw [hb]; exact Option.some_ne_none x))).trans hb
  refine ⟨fun b k' hi lo hb hk' => hext b _ (hs.keep b k' hi lo hb hk'), fun b k' hi lo hb => ?_,
    fun b k' hi lo hb => ?_, fun b k' hi lo hb => ?_, hs.erased⟩
  · rcases withBDD_bdd hb with ⟨rfl, hx⟩ | ⟨-, hb⟩
    · cases hx
      refine .fresh rfl ?_ ht hf
      by_contra hne
      exact h.valid _ hne (h.freshbdd _ le_rfl)
    · exact (hs.stage b k' hi lo hb).mono fun x => Or.imp_right fun ⟨t', f', hx, hb⟩ =>
        ⟨t', f', hext x _ hx, hb⟩
  · rcases withBDD_bdd hb with ⟨-, hx⟩ | ⟨-, hb⟩
    · cases hx
      exact hne.symm
    · exact hs.reduced b k' hi lo hb
  · rcases withBDD_bdd hb with ⟨rfl, hx⟩ | ⟨-, hb⟩
    · cases hx
      exact (Table.insert3_apply ..).trans (if_pos ⟨rfl, rfl, rfl⟩)
    · have htab := hs.hashed b k' hi lo hb
      refine (Table.insert3_apply ..).trans ((if_neg ?_).trans htab)
      rintro ⟨rfl, rfl, rfl⟩
      rw [hnew] at htab
      cases htab

-- r is t or f, if they are the same, and else a node over them
def NodeOver (s : FOBDDManager A S) (k t f r : ℕ) : Prop :=
  f = t ∧ r = f ∨ f ≠ t ∧ s.bdd r = some (.branch k t f)

include h hs in
theorem SwappingSorted.getBDD {t f r : ℕ} (h1 : k ≠ truekernel) (h2 : k ≠ falsekernel)
    (ht : Below s0 n t) (hf : Below s0 n f) (hr : (getBDD k t f).run s = some (r, s1)) :
    SwappingSorted s0 s1 k n erase visited ∧ s1.NodeOver k t f r := by
  rcases getBDD_cases h1 h2 hr with ⟨rfl, rfl, rfl⟩ | ⟨hne, htab, rfl⟩ | ⟨hne, htab, rfl, rfl⟩
  · exact ⟨hs, Or.inl ⟨rfl, rfl⟩⟩
  · rcases h.bddtable k f t r htab with hb | ⟨-, he⟩
    · exact ⟨hs, Or.inr ⟨hne, hb⟩⟩
    · rcases hs.erased f t he with hroot | hroot
      · exact absurd hroot hf.not_root
      · exact absurd hroot ht.not_root
  · exact ⟨hs.withBDD h ht hf hne htab, Or.inr ⟨hne, withBDD_bdd_new⟩⟩

theorem NodeOver.placed {t f r : ℕ} (hr : s.NodeOver k t f r) (ht : Below s0 n t)
    (hf : Below s0 n f) : Placed s0 s k n r := by
  rcases hr with ⟨-, rfl⟩ | ⟨-, hb⟩
  · exact Or.inl hf
  · exact Or.inr ⟨t, f, hb, ht, hf⟩

theorem Placed.replaced {b t f nt nf x : ℕ} (hb : s.bdd b = some (.branch k t f))
    (hroot : s0.Root n f ∨ s0.Root n t) (hx : Placed s0 s k n x) :
    Placed s0 (s.withReplaced b n nt nf) k n x := by
  rcases hx with hx | ⟨t', f', hx, ht, hf⟩
  · exact Or.inl hx
  · refine Or.inr ⟨t', f', (withReplaced_of_ne ?_).trans hx, ht, hf⟩
    rintro rfl
    rw [hb] at hx
    cases hx
    rcases hroot with hr | hr
    · exact hf.not_root hr
    · exact ht.not_root hr

include h hs in
theorem SwappingSorted.replace (hinv : Inv True s0) {b t f nt nf : ℕ} (hnk : n ≠ k)
    (hb : s.bdd b = some (.branch k t f)) (hb0 : s0.bdd b = some (.branch k t f))
    (hroot : s0.Root n f ∨ s0.Root n t) (hnt : Placed s0 s k n nt) (hnf : Placed s0 s k n nf)
    (hne : nt ≠ nf)
    (hw : ∀ w, Holds s.bdd w b ↔ Choice (w n) (Holds s.bdd w nt) (Holds s.bdd w nf)) :
    SwappingSorted s0 (s.withReplaced b n nt nf) k n ((f, t) :: erase) ((f, t) :: visited) := by
  have hplaced : ∀ x, Placed s0 s k n x → Placed s0 (s.withReplaced b n nt nf) k n x :=
    fun x hx => hx.replaced hb hroot
  -- the node b is the only one with these branches
  have honly : ∀ b', s.bdd b' = some (.branch k t f) → b' = b := fun b' hb' =>
    Option.some.inj ((hs.hashed b' k t f hb').symm.trans (hs.hashed b k t f hb))
  have hbv : s0.bdd b ≠ none := by rw [hb0]; exact Option.some_ne_none _
  refine ⟨fun b' k' hi lo hb' hk' => ?_, fun b' k' hi lo hb' => ?_, fun b' k' hi lo hb' => ?_,
    fun b' k' hi lo hb' => ?_, fun f' t' hx => ?_⟩
  · rw [withReplaced_of_ne]
    · exact hs.keep b' k' hi lo hb' hk'
    · rintro rfl
      rw [hb0] at hb'
      cases hb'
      exact hk' rfl
  · rcases withReplaced_bdd hb' with ⟨rfl, hx⟩ | ⟨hne, hb'⟩
    · cases hx
      exact .rewritten rfl ⟨t, f, hb0⟩ (hplaced nt hnt) (hplaced nf hnf)
    · have hst := (hs.stage b' k' hi lo hb').mono hplaced
      cases hst with
      | kept h0 hv =>
        refine .kept h0 ?_
        rintro rfl hmem
        rcases List.mem_cons.mp hmem with hx | hx
        · cases hx
          exact absurd (honly b' hb') hne
        · exact hv rfl hx
      | fresh hk h0 hhi hlo => exact .fresh hk h0 hhi hlo
      | rewritten hn h0 hhi hlo => exact .rewritten hn h0 hhi hlo
  · rcases withReplaced_bdd hb' with ⟨-, hx⟩ | ⟨-, hb'⟩
    · cases hx
      exact hne
    · exact hs.reduced b' k' hi lo hb'
  · rcases withReplaced_bdd hb' with ⟨rfl, hx⟩ | ⟨hbb', hold⟩
    · cases hx
      exact (Table.insert3_apply ..).trans (if_pos ⟨rfl, rfl, rfl⟩)
    · refine (Table.insert3_apply ..).trans ((if_neg ?_).trans (hs.hashed b' k' hi lo hold))
      rintro ⟨rfl, rfl, rfl⟩
      -- a node that means the same as b is b: no entry is overwritten
      have hv : s0.bdd b' ≠ none := by
        cases hs.stage b' k' hi lo hold with
        | kept h0 hv => rw [h0]; exact Option.some_ne_none _
        | fresh hk => exact absurd hk hnk
        | rewritten hn h0 =>
          obtain ⟨_, _, h0⟩ := h0
          rw [h0]
          exact Option.some_ne_none _
      refine hbb' ((hinv.canonical trivial).eq_of_agree s0.lt_wf hv hbv fun w => ?_)
      rw [← h.holds b' hv, ← h.holds b hbv, hw, holds_branch hold]
  · rcases List.mem_cons.mp hx with hx | hx
    · cases hx
      exact hroot
    · exact hs.erased f' t' hx

end Step

section Rebuild

variable {b t f t1 t0 f1 f0 : ℕ}

theorem Splits.below (hinv : Inv True s0) (ha : Adjacent s0 k n) (hv : s0.bdd b ≠ none)
    (hb : Above s0.lt s0.bdd k b) {b1 b0 : ℕ} (h : s0.Splits n b b1 b0) :
    Below s0 n b1 ∧ Below s0 n b0 := by
  rcases h with hn | ⟨hr, rfl, rfl⟩
  · obtain ⟨h1, h0⟩ := hinv.closed b n b1 b0 hn
    obtain ⟨ha1, ha0⟩ := (hinv.sorted trivial).ordered b n b1 b0 hn
    exact ⟨⟨h1, ha1⟩, ⟨h0, ha0⟩⟩
  · exact ⟨below_of_above ha hv hb hr, below_of_above ha hv hb hr⟩

theorem Splits.reduced (hinv : Inv True s0) {b1 b0 : ℕ} (h : s0.Splits n b b1 b0)
    (hr : s0.Root n b) : b1 ≠ b0 := by
  rcases h with hn | ⟨hnr, -⟩
  · exact (hinv.sorted trivial).reduced b n b1 b0 hn
  · exact absurd hr hnr

-- the two new branches differ: the pairs they are made of do
theorem NodeOver.ne {s2 : FOBDDManager A S} {newfalse newtrue : ℕ} (ha : Adjacent s0 k n)
    (h2 : Swapping s0 s2 k n erase W) (hs2 : SwappingSorted s0 s2 k n erase visited)
    (ht1 : Below s0 n t1) (ht0 : Below s0 n t0) (hf1 : Below s0 n f1) (hf0 : Below s0 n f0)
    (hne : t1 ≠ t0 ∨ f1 ≠ f0) (hfalse : s2.NodeOver k t0 f0 newfalse)
    (htrue : s2.NodeOver k t1 f1 newtrue) : newtrue ≠ newfalse := by
  have hnode : ∀ {x t f}, Below s0 n x → ¬ s2.bdd x = some (.branch k t f) := by
    intro x t f hx hb
    rw [hs2.old h2 hx.1 (hx.2.trans ha.lt)] at hb
    exact irrefl_of s0.lt k (trans_of s0.lt ha.lt (hx.2 k t f hb))
  rintro rfl
  rcases hfalse with ⟨rfl, rfl⟩ | ⟨-, hb⟩
  · rcases htrue with ⟨rfl, rfl⟩ | ⟨-, hb⟩
    · simp at hne
    · exact hnode hf0 hb
  · rcases htrue with ⟨rfl, rfl⟩ | ⟨-, hb'⟩
    · exact hnode hf1 hb
    · rw [hb] at hb'
      cases hb'
      simp at hne

theorem root_iff {x : ℕ} (hx : s.bdd x = s0.bdd x) : s.Root n x ↔ s0.Root n x := by
  rw [Root, Root, hx]

theorem splits_iff {x x1 x0 : ℕ} (hx : s.bdd x = s0.bdd x) :
    s.Splits n x x1 x0 ↔ s0.Splits n x x1 x0 := by
  rw [Splits, Splits, root_iff hx, hx]

theorem SwappingSorted.rebuild {newfalse newtrue : ℕ} {s1 s2 : FOBDDManager A S} {W1 W2 : ℕ → ℕ}
    (h : Swapping s0 s k n erase W) (hs : SwappingSorted s0 s k n erase visited)
    (hinv : Inv True s0) (ha : Adjacent s0 k n) (h1 : k ≠ truekernel) (h2 : k ≠ falsekernel)
    (hb : s.bdd b = some (.branch k t f)) (ht : s.Splits n t t1 t0) (hf : s.Splits n f f1 f0)
    (hroot : s.Root n f ∨ s.Root n t)
    (hr : Rebuilds s0 s s' k n erase b t f t1 t0 f1 f0 newfalse newtrue s1 s2 W1 W2) :
    SwappingSorted s0 s' k n ((f, t) :: erase) ((f, t) :: visited) := by
  have hnk : n ≠ k := by
    rintro rfl
    exact irrefl_of s0.lt n ha.lt
  have hb0 : s0.bdd b = some (.branch k t f) := by
    cases hs.stage b k t f hb with
    | kept h0 => exact h0
    | fresh _ _ ht hf =>
      rw [root_iff (hs.old h hf.1 (hf.2.trans ha.lt)),
        root_iff (hs.old h ht.1 (ht.2.trans ha.lt))] at hroot
      exact absurd hroot (not_or.mpr ⟨hf.not_root, ht.not_root⟩)
    | rewritten hn => exact absurd hn.symm hnk
  obtain ⟨htv, hfv⟩ := hinv.closed b k t f hb0
  obtain ⟨hta, hfa⟩ := (hinv.sorted trivial).ordered b k t f hb0
  have htold := hs.old h htv hta
  have hfold := hs.old h hfv hfa
  rw [splits_iff htold] at ht
  rw [splits_iff hfold] at hf
  rw [root_iff hfold, root_iff htold] at hroot
  obtain ⟨ht1, ht0⟩ := ht.below hinv ha htv hta
  obtain ⟨hf1, hf0⟩ := hf.below hinv ha hfv hfa
  obtain ⟨hs1, hfalse⟩ := hs.getBDD h h1 h2 ht0 hf0 hr.lookupfalse
  obtain ⟨hs2, htrue⟩ := hs1.getBDD hr.first h1 h2 ht1 hf1 hr.lookuptrue
  have hfalse' : s2.NodeOver k t0 f0 newfalse :=
    hfalse.imp_right fun hx => ⟨hx.1, hr.bdd _ _ hx.2⟩
  have hne : t1 ≠ t0 ∨ f1 ≠ f0 := by
    rcases hroot with hx | hx
    · exact Or.inr (hf.reduced hinv hx)
    · exact Or.inl (ht.reduced hinv hx)
  rw [hr.replaced]
  exact hs2.replace hr.second hinv hnk hr.node hb0 hroot (htrue.placed ht1 hf1)
    (hfalse'.placed ht0 hf0) (NodeOver.ne ha hr.second hs2 ht1 ht0 hf1 hf0 hne hfalse' htrue)
    hr.holds

theorem SwappingSorted.pass (h : Swapping s0 s k n erase W)
    (hs : SwappingSorted s0 s k n erase visited) (hinv : Inv True s0)
    (hpass : s.bddtable k f t = none ∨ ¬ s.Root n f ∧ ¬ s.Root n t) :
    SwappingSorted s0 s k n erase ((f, t) :: visited) := by
  refine ⟨hs.keep, fun b k' hi lo hb => ?_, hs.reduced, hs.hashed, hs.erased⟩
  cases hs.stage b k' hi lo hb with
  | kept h0 hv =>
    refine .kept h0 ?_
    rintro rfl hmem
    rcases List.mem_cons.mp hmem with hx | hx
    · cases hx
      rcases hpass with hnone | ⟨hf, ht⟩
      · rw [hs.hashed b k' t f hb] at hnone
        cases hnone
      · obtain ⟨htv, hfv⟩ := hinv.closed b k' t f h0
        obtain ⟨hta, hfa⟩ := (hinv.sorted trivial).ordered b k' t f h0
        rw [root_iff (hs.old h htv hta)] at ht
        rw [root_iff (hs.old h hfv hfa)] at hf
        exact ⟨ht, hf⟩
    · exact hv rfl hx
  | fresh hk h0 hhi hlo => exact .fresh hk h0 hhi hlo
  | rewritten hn h0 hhi hlo => exact .rewritten hn h0 hhi hlo

end Rebuild

section Loop

variable {c : Prop}

theorem Inv.not_constant (hinv : Inv c s0) {x : ℕ}
    (hx : ∃ o, s0.order x = some o ∧ o.category ≠ .trueFalse) :
    x ≠ truekernel ∧ x ≠ falsekernel := by
  obtain ⟨o, ho, hcat⟩ := hx
  constructor
  · rintro rfl
    rw [hinv.constants.1] at ho
    cases ho
    exact hcat rfl
  · rintro rfl
    rw [hinv.constants.2] at ho
    cases ho
    exact hcat rfl

variable (hinv : Inv c s0) (ha : Adjacent s0 k n)
  (hk : ∃ o, s0.order k = some o ∧ o.category ≠ .trueFalse)
  (hn : ∃ o, s0.order n = some o ∧ o.category ≠ .trueFalse)

include hinv ha hk hn in
theorem swapEntry_swapping {f t : ℕ} {result : List (ℕ × ℕ)}
    (h : Swapping s0 s k n erase W) (hs : c → SwappingSorted s0 s k n erase visited)
    (hnew : (f, t) ∉ erase) (hr : (swapEntry k n f t).run s = some (result, s')) :
    (∃ W', Swapping s0 s' k n (result ++ erase) W') ∧
      (c → SwappingSorted s0 s' k n (result ++ erase) ((f, t) :: visited)) ∧
      ∀ x ∈ result, x = (f, t) := by
  have hnk : n ≠ k := by
    rintro rfl
    exact irrefl_of s0.lt n ha.lt
  obtain ⟨hk1, hk2⟩ := hinv.not_constant hk
  obtain ⟨hn1, hn2⟩ := hinv.not_constant hn
  rcases swapEntry_cases hn1 hn2 hr with
    ⟨rfl, rfl, hpass⟩ | ⟨b, t1, t0, f1, f0, htab, rfl, hst, hsf, hroot, hreb⟩
  · exact ⟨⟨W, h⟩, fun hc => (hs hc).pass h (hinv.weaken fun _ => hc) hpass,
      fun x hx => absurd hx List.not_mem_nil⟩
  · have hb : s.bdd b = some (.branch k t f) :=
      (h.bddtable k f t b htab).resolve_right fun he => hnew he.2
    obtain ⟨newfalse, newtrue, s1, s2, W1, W2, hreb⟩ :=
      h.rebuilds hk hk1 hk2 hb hst hsf hroot hreb
    exact ⟨⟨W2, hreb.swapping hnk hn⟩, fun hc => (hs hc).rebuild h (hinv.weaken fun _ => hc) ha
      hk1 hk2 hb hst hsf hroot hreb, fun x hx => List.mem_singleton.mp hx⟩

-- an entry of the list stays new: only the entries before it have been visited
theorem new_of_nodup {f t : ℕ} {entries result : List (ℕ × ℕ)} (hnodup : ((f, t) :: entries).Nodup)
    (hnew : ∀ x ∈ (f, t) :: entries, x ∉ erase) (hres : ∀ x ∈ result, x = (f, t)) :
    ∀ x ∈ entries, x ∉ result ++ erase := by
  intro x hx hmem
  rcases List.mem_append.mp hmem with he | he
  · exact (List.nodup_cons.mp hnodup).1 (hres x he ▸ hx)
  · exact hnew x (List.mem_cons_of_mem _ hx) he

include hinv ha hk hn in
theorem swapEntries_swapping {entries result : List (ℕ × ℕ)}
    (h : Swapping s0 s k n erase W) (hs : c → SwappingSorted s0 s k n erase visited)
    (hnodup : entries.Nodup) (hnew : ∀ x ∈ entries, x ∉ erase)
    (hr : (swapEntries k n entries).run s = some (result, s')) :
    ∃ erase' visited' W', Swapping s0 s' k n erase' W' ∧
      (c → SwappingSorted s0 s' k n erase' visited') ∧
      (∀ x, x ∈ erase' ↔ x ∈ result ∨ x ∈ erase) ∧
      ∀ x, x ∈ entries ∨ x ∈ visited → x ∈ visited' := by
  induction entries generalizing s erase visited W result with
  | nil =>
    obtain ⟨rfl, rfl⟩ := Op.pure_eq_some.mp hr
    exact ⟨erase, visited, W, h, hs, by simp, by simp⟩
  | cons x entries ih =>
    obtain ⟨f, t⟩ := x
    simp only [swapEntries, Op.bind_eq_some, Op.pure_eq_some] at hr
    obtain ⟨e1, s1, he1, e2, s2, he2, rfl, rfl⟩ := hr
    obtain ⟨⟨W1, h1⟩, hs1, hres⟩ := swapEntry_swapping hinv ha hk hn h hs
      (hnew _ List.mem_cons_self) he1
    obtain ⟨erase', visited', W', h', hs', he', hv'⟩ := ih h1 hs1 (List.nodup_cons.mp hnodup).2
      (new_of_nodup hnodup hnew hres) he2
    refine ⟨erase', visited', W', h', hs', fun y => ?_, fun y hy => hv' y ?_⟩
    · rw [he', List.mem_append, List.mem_append]
      tauto
    · simp only [List.mem_cons] at hy ⊢
      tauto

section Returns

theorem getBDD_total (k t f : ℕ) : ∃ r s', (getBDD k t f).run s = some (r, s') := by
  unfold FOBDDManager.getBDD
  split_ifs
  · exact ⟨_, _, rfl⟩
  · exact ⟨_, _, rfl⟩
  · exact ⟨_, _, rfl⟩
  · rw [Op.get_bind]
    cases s.bddtable k f t with
    | some b => exact ⟨_, _, rfl⟩
    | none => exact ⟨_, _, addBDD_eq_some.mpr ⟨rfl, rfl⟩⟩

theorem rebuild_total (k n b t0 f0 t1 f1 : ℕ) :
    ∃ s', (rebuild k n b t0 f0 t1 f1).run s = some ((), s') := by
  obtain ⟨newfalse, s1, h1⟩ := getBDD_total (s := s) k t0 f0
  obtain ⟨newtrue, s2, h2⟩ := getBDD_total (s := s1) k t1 f1
  exact ⟨_, Op.bind_eq_some.mpr ⟨newfalse, s1, h1, Op.bind_eq_some.mpr ⟨newtrue, s2, h2, rfl⟩⟩⟩

theorem kernelOf_total {b : ℕ} (hb : s.bdd b ≠ none) :
    ∃ k, (kernelOf b).run s = some (k, s) := by
  rw [kernelOf, Op.get_bind]
  cases hn : s.bdd b with
  | none => exact absurd hn hb
  | some x => cases x <;> exact ⟨_, rfl⟩

theorem truebranch_total {b k t f : ℕ} (hb : s.bdd b = some (.branch k t f)) :
    (truebranch b).run s = some (t, s) := by
  rw [truebranch, Op.get_bind, hb]
  rfl

theorem falsebranch_total {b k t f : ℕ} (hb : s.bdd b = some (.branch k t f)) :
    (falsebranch b).run s = some (f, s) := by
  rw [falsebranch, Op.get_bind, hb]
  rfl

theorem swapBranches_total {k n b f t : ℕ} {swapfalse swaptrue : Bool}
    (hf : swapfalse = true → s.Root n f) (ht : swaptrue = true → s.Root n t) :
    ∃ s', (swapBranches k n b f t swapfalse swaptrue).run s = some ((), s') := by
  have hbranch : ∀ {x}, s.Root n x → ∃ x1 x0, (truebranch x).run s = some (x1, s) ∧
      (falsebranch x).run s = some (x0, s) := by
    rintro x ⟨x1, x0, hx⟩
    exact ⟨x1, x0, truebranch_total hx, falsebranch_total hx⟩
  cases swapfalse <;> cases swaptrue
  · exact ⟨s, rfl⟩
  · obtain ⟨t1, t0, ht1, ht0⟩ := hbranch (ht rfl)
    obtain ⟨s', hs'⟩ := rebuild_total (s := s) k n b t0 f t1 f
    exact ⟨s', by
      simp only [swapBranches, Op.bind_eq_some]
      exact ⟨t0, s, ht0, t1, s, ht1, hs'⟩⟩
  · obtain ⟨f1, f0, hf1, hf0⟩ := hbranch (hf rfl)
    obtain ⟨s', hs'⟩ := rebuild_total (s := s) k n b t f0 t f1
    exact ⟨s', by
      simp only [swapBranches, Op.bind_eq_some]
      exact ⟨f0, s, hf0, f1, s, hf1, hs'⟩⟩
  · obtain ⟨t1, t0, ht1, ht0⟩ := hbranch (ht rfl)
    obtain ⟨f1, f0, hf1, hf0⟩ := hbranch (hf rfl)
    obtain ⟨s', hs'⟩ := rebuild_total (s := s) k n b t0 f0 t1 f1
    exact ⟨s', by
      simp only [swapBranches, Op.bind_eq_some]
      exact ⟨t0, s, ht0, f0, s, hf0, t1, s, ht1, f1, s, hf1, hs'⟩⟩

theorem swapEntry_total (h : Swapping s0 s k n erase W) (hn1 : n ≠ truekernel)
    (hn2 : n ≠ falsekernel) (f t : ℕ) :
    ∃ result s', (swapEntry k n f t).run s = some (result, s') := by
  rw [swapEntry, Op.get_bind]
  cases htab : s.bddtable k f t with
  | none => exact ⟨_, _, rfl⟩
  | some b =>
    obtain ⟨-, ht, hf, -⟩ := h.entries f t b htab
    obtain ⟨kf, hkf⟩ := kernelOf_total hf
    obtain ⟨kt, hkt⟩ := kernelOf_total ht
    obtain ⟨s', hs'⟩ := swapBranches_total (k := k) (b := b)
      (kernelOf_root hn1 hn2 hkf).2.mp (kernelOf_root hn1 hn2 hkt).2.mp
    refine ⟨if n == kf || n == kt then [(f, t)] else [], s', ?_⟩
    simp only [Op.bind_eq_some, Op.pure_eq_some]
    exact ⟨kf, s, hkf, kt, s, hkt, (), s', hs', rfl, rfl⟩

include hinv ha hk hn in
theorem swapEntries_total {entries : List (ℕ × ℕ)} (h : Swapping s0 s k n erase W)
    (hnodup : entries.Nodup) (hnew : ∀ x ∈ entries, x ∉ erase) :
    ∃ result s', (swapEntries k n entries).run s = some (result, s') := by
  induction entries generalizing s erase W with
  | nil => exact ⟨_, _, rfl⟩
  | cons x entries ih =>
    obtain ⟨f, t⟩ := x
    obtain ⟨hn1, hn2⟩ := hinv.not_constant hn
    obtain ⟨e1, s1, he1⟩ := swapEntry_total h hn1 hn2 f t
    have hs : False → SwappingSorted s0 s k n erase [] := False.elim
    obtain ⟨⟨W1, h1⟩, -, hres⟩ := swapEntry_swapping (hinv.weaken False.elim) ha hk hn h hs
      (hnew _ List.mem_cons_self) he1
    obtain ⟨e2, s2, he2⟩ := ih h1 (List.nodup_cons.mp hnodup).2 (new_of_nodup hnodup hnew hres)
    exact ⟨e1 ++ e2, s2, by
      simp only [swapEntries, Op.bind_eq_some, Op.pure_eq_some]
      exact ⟨e1, s1, he1, e2, s2, he2, rfl, rfl⟩⟩

end Returns

end Loop

end FOBDDManager

end FoBdd
