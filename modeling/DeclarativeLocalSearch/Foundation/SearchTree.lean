import Mathlib.Data.List.Basic

namespace SearchTree

inductive Tree (α β : Type) where
  | leaf
  | node (l : Tree α β) (key : α) (value : β) (r : Tree α β)

namespace Tree

variable {α β : Type}

def toList : Tree α β → List (α × β)
  | leaf => []
  | node l key value r => toList l ++ (key, value) :: toList r

section Search

variable (lt : α → α → Bool) (k : α)

-- the first entry that is not below k, on the path of a search; best is the last one where the path has gone left
def lowerBound : Tree α β → Option (α × β) → Option (α × β)
  | leaf, best => best
  | node l key value r, best => if lt key k then lowerBound r best else lowerBound l (some (key, value))

def find (t : Tree α β) : Option (α × β) :=
  match lowerBound lt k t none with
  | some e => if lt k e.1 then none else some e
  | none => none

def insert (v : β) : Tree α β → Tree α β
  | leaf => node leaf k v leaf
  | node l key value r => if lt key k then node l key value (insert v r) else node (insert v l) key value r

variable {lt k} {t : Tree α β} {best : Option (α × β)} {e : α × β} {v : β}

theorem mem_lowerBound (h : lowerBound lt k t best = some e) :
    e ∈ t.toList ∧ lt e.1 k = false ∨ best = some e := by
  induction t generalizing best with
  | leaf => exact .inr h
  | node l key value r ihl ihr =>
    rw [lowerBound] at h
    rw [toList, List.mem_append, List.mem_cons]
    split at h
    case isTrue hlt =>
      obtain ⟨hmem, he⟩ | hbest := ihr h
      · exact .inl ⟨.inr (.inr hmem), he⟩
      · exact .inr hbest
    case isFalse hlt =>
      obtain ⟨hmem, he⟩ | hbest := ihl h
      · exact .inl ⟨.inl hmem, he⟩
      · obtain rfl := Option.some.inj hbest
        exact .inl ⟨.inr (.inl rfl), eq_false_of_ne_true hlt⟩

theorem mem_of_find (h : find lt k t = some e) : e ∈ t.toList ∧ lt e.1 k = false ∧ lt k e.1 = false := by
  unfold find at h
  cases hbound : lowerBound lt k t none with
  | none =>
    rw [hbound] at h
    cases h
  | some e' =>
    rw [hbound] at h
    dsimp only at h
    split at h
    case isTrue => cases h
    case isFalse hlt =>
      obtain rfl := Option.some.inj h
      obtain ⟨hmem, he⟩ | hbest := mem_lowerBound hbound
      · exact ⟨hmem, he, eq_false_of_ne_true hlt⟩
      · cases hbest

theorem mem_insert : e ∈ (insert lt k v t).toList ↔ e = (k, v) ∨ e ∈ t.toList := by
  induction t with
  | leaf => simp [insert, toList]
  | node l key value r ihl ihr =>
    rw [insert]
    split
    · simp only [toList, List.mem_append, List.mem_cons, ihr]
      tauto
    · simp only [toList, List.mem_append, List.mem_cons, ihl]
      tauto

end Search

section Sorted

-- what is needed of the order among the keys that occur
structure Orders (lt : α → α → Bool) (S : Set α) : Prop where
  trans : ∀ a ∈ S, ∀ b ∈ S, ∀ c ∈ S, lt a b = true → lt b c = true → lt a c = true
  incomparable_left : ∀ a ∈ S, ∀ b ∈ S, ∀ c ∈ S, lt b c = false → lt c b = false → lt a b = true → lt a c = true

def Sorted (lt : α → α → Bool) (t : Tree α β) : Prop := t.toList.Pairwise fun e e' => lt e.1 e'.1 = true

variable {lt : α → α → Bool} {S : Set α} {k : α} {t : Tree α β} {best : Option (α × β)} {e : α × β} {v : β}

theorem Sorted.eq_of_incomparable {e' : α × β} (ht : Sorted lt t) (he : e ∈ t.toList) (he' : e' ∈ t.toList)
    (h : lt e.1 e'.1 = false) (h' : lt e'.1 e.1 = false) : e = e' := by
  obtain ⟨i, hi, rfl⟩ := List.getElem_of_mem he
  obtain ⟨j, hj, rfl⟩ := List.getElem_of_mem he'
  obtain hlt | rfl | hlt := Nat.lt_trichotomy i j
  · rw [List.pairwise_iff_getElem.mp ht i j hi hj hlt] at h
    cases h
  · rfl
  · rw [List.pairwise_iff_getElem.mp ht j i hj hi hlt] at h'
    cases h'

theorem lowerBound_of_below (h : ∀ e ∈ t.toList, lt e.1 k = true) : lowerBound lt k t best = best := by
  induction t generalizing best with
  | leaf => rfl
  | node l key value r ihl ihr =>
    rw [lowerBound, if_pos (h (key, value) (by simp [toList]))]
    exact ihr fun e he => h e (by simp [toList, he])

variable (hlt : Orders lt S) (hk : k ∈ S) (ht : ∀ e ∈ t.toList, e.1 ∈ S) (hsorted : Sorted lt t)
include hlt hk ht hsorted

theorem lowerBound_of_mem (he : e ∈ t.toList) (hek : lt e.1 k = false) (hke : lt k e.1 = false) :
    lowerBound lt k t best = some e := by
  induction t generalizing best with
  | leaf => cases he
  | node l key value r ihl ihr =>
    obtain ⟨hl, hr, hcross⟩ := List.pairwise_append.mp hsorted
    obtain ⟨hkey, hr⟩ := List.pairwise_cons.mp hr
    have hSl (e) (h : e ∈ l.toList) : e.1 ∈ S := ht e (List.mem_append_left _ h)
    have hSr (e) (h : e ∈ r.toList) : e.1 ∈ S := ht e (List.mem_append_right _ (List.mem_cons_of_mem _ h))
    have hSkey : key ∈ S := ht (key, value) (by simp [toList])
    rw [lowerBound]
    obtain hmem | rfl | hmem : e ∈ l.toList ∨ e = (key, value) ∨ e ∈ r.toList := by
      simpa [toList] using he
    · have hbelow : lt e.1 key = true := hcross e hmem (key, value) List.mem_cons_self
      rw [if_neg fun hkeyk => ?_]
      · exact ihl hSl hl hmem
      · rw [hlt.trans _ (hSl e hmem) _ hSkey _ hk hbelow hkeyk] at hek
        cases hek
    · rw [if_neg (by simp [hek])]
      refine lowerBound_of_below fun e' he' => ?_
      exact hlt.incomparable_left _ (hSl e' he') _ hSkey _ hk hek hke (hcross e' he' _ List.mem_cons_self)
    · have habove : lt key e.1 = true := hkey e hmem
      rw [if_pos (hlt.incomparable_left _ hSkey _ (hSr e hmem) _ hk hek hke habove)]
      exact ihr hSr hr hmem

theorem find_of_mem (he : e ∈ t.toList) (hek : lt e.1 k = false) (hke : lt k e.1 = false) : find lt k t = some e := by
  rw [find, lowerBound_of_mem hlt hk ht hsorted he hek hke]
  simp [hke]

theorem sorted_insert (hnew : ∀ e ∈ t.toList, lt e.1 k = true ∨ lt k e.1 = true) : Sorted lt (insert lt k v t) := by
  induction t with
  | leaf => exact List.pairwise_singleton _ _
  | node l key value r ihl ihr =>
    obtain ⟨hl, hr, hcross⟩ := List.pairwise_append.mp hsorted
    obtain ⟨hkey, hr⟩ := List.pairwise_cons.mp hr
    have hmeml (e) (h : e ∈ l.toList) : e ∈ (node l key value r).toList := List.mem_append_left _ h
    have hmemr (e) (h : e ∈ r.toList) : e ∈ (node l key value r).toList :=
      List.mem_append_right _ (List.mem_cons_of_mem _ h)
    have hSkey : key ∈ S := ht (key, value) (by simp [toList])
    rw [insert]
    split
    case isTrue hkeyk =>
      have hbelow (e) (he : e ∈ l.toList) : lt e.1 k = true :=
        hlt.trans _ (ht e (hmeml e he)) _ hSkey _ hk (hcross e he _ List.mem_cons_self) hkeyk
      refine List.pairwise_append.mpr ⟨hl, List.pairwise_cons.mpr ⟨?_, ?_⟩, ?_⟩
      · intro e he
        obtain rfl | he := mem_insert.mp he
        · exact hkeyk
        · exact hkey e he
      · exact ihr (fun e he => ht e (hmemr e he)) hr fun e he => hnew e (hmemr e he)
      · intro e he e' he'
        obtain rfl | he' := List.mem_cons.mp he'
        · exact hcross e he _ List.mem_cons_self
        · obtain rfl | he' := mem_insert.mp he'
          · exact hbelow e he
          · exact hcross e he _ (List.mem_cons_of_mem _ he')
    case isFalse hkeyk =>
      have hkkey : lt k key = true := (hnew (key, value) (by simp [toList])).resolve_left hkeyk
      have habove (e) (he : e ∈ r.toList) : lt k e.1 = true :=
        hlt.trans _ hk _ hSkey _ (ht e (hmemr e he)) hkkey (hkey e he)
      refine List.pairwise_append.mpr ⟨?_, List.pairwise_cons.mpr ⟨hkey, hr⟩, ?_⟩
      · exact ihl (fun e he => ht e (hmeml e he)) hl fun e he => hnew e (hmeml e he)
      · intro e he e' he'
        obtain rfl | he := mem_insert.mp he
        · obtain rfl | he' := List.mem_cons.mp he'
          · exact hkkey
          · exact habove e' he'
        · exact hcross e he e' he'

end Sorted

end Tree

end SearchTree
