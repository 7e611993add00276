import DeclarativeLocalSearch.Grounding.TseitinMeaning

namespace LazyGrounding

open Grounding (Lit TsType bodyHolds bodyHolds_single)

-- the translator, as far as a rule with several bodies asks it for Tseitins
structure Tseitin where
  head : ℕ
  type : TsType
  body : List Lit
  conj : Bool

structure Translator where
  next : ℕ
  atom2TsBody : List Tseitin

def Translator.reify (body : List Lit) (conj : Bool) (tstype : TsType) (T : Translator) : Lit × Translator :=
  (⟨true, T.next⟩, ⟨T.next + 1, T.atom2TsBody ++ [⟨T.next, tstype, body, conj⟩]⟩)

structure PCGroundRule (H : Type) where
  head : H
  conj : Bool
  body : List Lit
  recursive : Bool

namespace PCGroundRule

variable {H : Type}

def isFalse (r : PCGroundRule H) : Bool := r.body.isEmpty && ! r.conj

def isTrue (r : PCGroundRule H) : Bool := r.body.isEmpty && r.conj

def tstype (recursive : Bool) : TsType := if recursive then .rule else .eq

-- a rule is added for a head that has one
def merge (head : H) (body : List Lit) (conj recursive : Bool) (r : PCGroundRule H) (T : Translator) :
    PCGroundRule H × Translator :=
  if r.isFalse then (⟨head, conj, body, recursive⟩, T)
  else if body.isEmpty then (if conj then ⟨head, true, body, false⟩ else r, T)
  else if r.isTrue then (r, T)
  else if ! r.conj then
    if ! conj || body.length = 1 then
      ({ r with body := r.body ++ body, recursive := r.recursive || recursive }, T)
    else
      let (ts, T) := T.reify body conj (tstype recursive)
      ({ r with body := r.body ++ [ts], recursive := r.recursive || recursive }, T)
  else if r.body.length = 1 && (! conj || body.length = 1) then
    (⟨r.head, false, r.body ++ body, r.recursive || recursive⟩, T)
  else if ! conj || body.length = 1 then
    let (ts, T) := T.reify r.body true (tstype r.recursive)
    (⟨r.head, false, body ++ [ts], r.recursive || recursive⟩, T)
  else
    let (ts1, T) := T.reify r.body true (tstype r.recursive)
    let (ts2, T) := T.reify body conj (tstype recursive)
    (⟨r.head, false, [ts1, ts2], r.recursive || recursive⟩, T)

end PCGroundRule

-- a map from heads to rules, by the heads of the rules
abbrev GroundDefinition (H : Type) := List (PCGroundRule H)

def GroundDefinition.addPCRule {H : Type} [DecidableEq H] (head : H) (body : List Lit) (conj recursive : Bool) :
    GroundDefinition H → Translator → GroundDefinition H × Translator
  | [], T => ([⟨head, conj, body, recursive⟩], T)
  | r :: rules, T =>
    if r.head = head then
      let (r, T) := r.merge head body conj recursive T
      (r :: rules, T)
    else
      let (rules, T) := addPCRule head body conj recursive rules T
      (r :: rules, T)

section Meaning

variable {H : Type} {ν : ℕ → Prop} {T T' : Translator}

-- each Tseitin has the value of its body
def Translator.Meant (ν : ℕ → Prop) (T : Translator) : Prop :=
  ∀ t ∈ T.atom2TsBody, ν t.head ↔ bodyHolds ν t.body t.conj

def Translator.Le (T T' : Translator) : Prop := ∀ t ∈ T.atom2TsBody, t ∈ T'.atom2TsBody

theorem Translator.Le.refl : T.Le T := fun _ h => h

theorem Translator.Le.trans {T'' : Translator} (h : T.Le T') (h' : T'.Le T'') : T.Le T'' := fun t ht => h' t (h t ht)

theorem Translator.Meant.mono (h : T'.Meant ν) (hle : T.Le T') : T.Meant ν := fun t ht => h t (hle t ht)

variable {body : List Lit} {conj : Bool} {tstype : TsType}

theorem Translator.le_reify : T.Le (T.reify body conj tstype).2 := fun _ h => List.mem_append_left _ h

theorem Translator.Meant.reify (h : (T.reify body conj tstype).2.Meant ν) :
    (T.reify body conj tstype).1.holds ν ↔ bodyHolds ν body conj := by
  rw [Translator.reify, Grounding.Lit.holds_pos]
  exact h _ (List.mem_append_right _ (List.mem_singleton_self _))

def PCGroundRule.holds (ν : ℕ → Prop) (r : PCGroundRule H) : Prop := bodyHolds ν r.body r.conj

theorem bodyHolds_append {body' : List Lit} :
    bodyHolds ν (body ++ body') false ↔ bodyHolds ν body false ∨ bodyHolds ν body' false := by
  simp [bodyHolds, or_and_right, exists_or]

theorem bodyHolds_disj (h : (! conj || body.length = 1) = true) : bodyHolds ν body conj ↔ bodyHolds ν body false := by
  cases conj with
  | false => rfl
  | true =>
    obtain ⟨l, rfl⟩ := List.length_eq_one_iff.mp (by simpa using h)
    rw [bodyHolds_single, bodyHolds_single]

namespace PCGroundRule

variable {head : H} {recursive : Bool} {r : PCGroundRule H}

theorem isFalse_holds (h : r.isFalse = true) : ¬ r.holds ν := by
  simp only [isFalse, Bool.and_eq_true, List.isEmpty_iff, Bool.not_eq_true'] at h
  simp [PCGroundRule.holds, bodyHolds, h]

theorem isTrue_holds (h : r.isTrue = true) : r.holds ν := by
  simp only [isTrue, Bool.and_eq_true, List.isEmpty_iff] at h
  simp [PCGroundRule.holds, bodyHolds, h]

theorem merge_le : T.Le (r.merge head body conj recursive T).2 := by
  unfold merge
  split_ifs
  any_goals exact .refl
  any_goals exact Translator.le_reify
  exact Translator.le_reify.trans Translator.le_reify

theorem merge_head (h : r.head = head) : (r.merge head body conj recursive T).1.head = head := by
  unfold merge
  split_ifs <;> first | rfl | exact h

theorem merge_holds (h : (r.merge head body conj recursive T).2.Meant ν) :
    (r.merge head body conj recursive T).1.holds ν ↔ r.holds ν ∨ bodyHolds ν body conj := by
  unfold merge at h ⊢
  by_cases hfalse : r.isFalse = true
  · rw [if_pos hfalse]
    exact (or_iff_right (isFalse_holds hfalse)).symm
  rw [if_neg hfalse] at h ⊢
  by_cases hempty : body.isEmpty = true
  · rw [if_pos hempty]
    obtain rfl := List.isEmpty_iff.mp hempty
    cases conj <;> simp [PCGroundRule.holds, bodyHolds]
  rw [if_neg hempty] at h ⊢
  by_cases htrue : r.isTrue = true
  · rw [if_pos htrue]
    exact iff_of_true (isTrue_holds htrue) (Or.inl (isTrue_holds htrue))
  rw [if_neg htrue] at h ⊢
  by_cases hdisj : (! conj || body.length = 1) = true
  · rw [bodyHolds_disj hdisj]
    by_cases hr : (! r.conj) = true
    · rw [if_pos hr, if_pos hdisj]
      have hr : r.conj = false := by simpa using hr
      simp only [PCGroundRule.holds, hr, bodyHolds_append]
    · rw [if_neg hr] at h ⊢
      have hr : r.conj = true := by simpa using hr
      by_cases hone : (r.body.length = 1 && (! conj || body.length = 1)) = true
      · rw [if_pos hone]
        have hlength : r.body.length = 1 := by
          rw [Bool.and_eq_true] at hone
          simpa using hone.1
        rw [PCGroundRule.holds, PCGroundRule.holds, bodyHolds_append, @bodyHolds_disj _ _ r.conj (by simp [hlength])]
      · rw [if_neg hone, if_pos hdisj] at h ⊢
        rw [PCGroundRule.holds, PCGroundRule.holds, bodyHolds_append, bodyHolds_single, Translator.Meant.reify h, hr, or_comm]
  · have hone : ¬ (r.body.length = 1 && (! conj || body.length = 1)) = true := fun hone =>
      hdisj (Bool.and_eq_true .. ▸ hone).2
    by_cases hr : (! r.conj) = true
    · rw [if_pos hr, if_neg hdisj] at h ⊢
      have hr : r.conj = false := by simpa using hr
      rw [PCGroundRule.holds, PCGroundRule.holds, hr, bodyHolds_append, bodyHolds_single, Translator.Meant.reify h]
    · rw [if_neg hr, if_neg hone, if_neg hdisj] at h ⊢
      have hr : r.conj = true := by simpa using hr
      have hfirst := Translator.Meant.reify (h.mono Translator.le_reify)
      have hsecond := Translator.Meant.reify h
      rw [PCGroundRule.holds, PCGroundRule.holds, hr]
      simp only [bodyHolds, Bool.false_eq_true, if_false, List.mem_cons, List.not_mem_nil, or_false, exists_eq_or_imp,
        exists_eq_left]
      exact or_congr hfirst hsecond

end PCGroundRule

section AddPCRule

variable [DecidableEq H] {head : H} {recursive : Bool} {rules : GroundDefinition H}

theorem GroundDefinition.addPCRule_le : T.Le (rules.addPCRule head body conj recursive T).2 := by
  induction rules with
  | nil => exact .refl
  | cons r rules ih =>
    rw [GroundDefinition.addPCRule]
    split
    · exact PCGroundRule.merge_le
    · exact ih

theorem GroundDefinition.filter_addPCRule_of_not {q : H → Bool} (hq : q head = false) :
    (rules.addPCRule head body conj recursive T).1.filter (fun r => q r.head) = rules.filter fun r => q r.head := by
  induction rules with
  | nil => simp [GroundDefinition.addPCRule, hq]
  | cons r rules ih =>
    rw [GroundDefinition.addPCRule]
    split
    · next heq =>
      have hmerge : q (r.merge head body conj recursive T).1.head = false := by rw [PCGroundRule.merge_head heq, hq]
      rw [List.filter_cons_of_neg (by simp [hmerge]), List.filter_cons_of_neg (by simp [heq, hq])]
    · rw [List.filter_cons, List.filter_cons, ih]

theorem GroundDefinition.filter_addPCRule {q : H → Bool} (hq : q head = true)
    (hold : ∀ r ∈ rules, q r.head = true → r.head = head) (hone : (rules.filter fun r => q r.head).length ≤ 1) :
    ∃ r', (rules.addPCRule head body conj recursive T).1.filter (fun r => q r.head) = [r'] ∧ r'.head = head ∧
      ∀ ν, (rules.addPCRule head body conj recursive T).2.Meant ν →
        (r'.holds ν ↔ (∃ r ∈ rules.filter fun r => q r.head, r.holds ν) ∨ bodyHolds ν body conj) := by
  induction rules with
  | nil => exact ⟨⟨head, conj, body, recursive⟩, by simp [GroundDefinition.addPCRule, hq], rfl, fun ν _ => by
      simp [PCGroundRule.holds]⟩
  | cons r rules ih =>
    rw [GroundDefinition.addPCRule]
    by_cases heq : r.head = head
    · rw [if_pos heq]
      have hr : q r.head = true := heq ▸ hq
      have hmerge := @PCGroundRule.merge_head _ T body conj _ recursive _ heq
      rw [List.filter_cons, if_pos hr, List.length_cons] at hone
      have hempty : (rules.filter fun r => q r.head) = [] := List.eq_nil_of_length_eq_zero (by omega)
      refine ⟨_, ?_, hmerge, fun ν hν => ?_⟩
      · rw [List.filter_cons, if_pos (by rw [hmerge, hq]), hempty]
      · rw [PCGroundRule.merge_holds hν, List.filter_cons, if_pos hr, hempty]
        simp
    · rw [if_neg heq]
      have hr : ¬ q r.head = true := fun hr => heq (hold r List.mem_cons_self hr)
      have hrest : ∀ l : List (PCGroundRule H), (r :: l).filter (fun r => q r.head) = l.filter fun r => q r.head :=
        fun l => List.filter_cons_of_neg hr
      rw [hrest] at hone
      obtain ⟨r', hfilter, hhead, hholds⟩ := ih (fun r hr => hold r (List.mem_cons_of_mem _ hr)) hone
      refine ⟨r', (hrest _).trans hfilter, hhead, fun ν hν => ?_⟩
      rw [hrest]
      exact hholds ν hν

end AddPCRule

end Meaning

end LazyGrounding
