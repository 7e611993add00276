import DeclarativeLocalSearch.Grounding.Emission

namespace Grounding

variable {W B : Type}

-- the elements of the queue that have been handled, latest first, and where the addition stands
structure Config (W B : Type) where
  trace : List TseitinInfo
  state : Adding W B

section Conditions

variable (translator : GroundTranslator W B)

-- the literal at the root is replaced by the other one
def RootSucc (addedTseitins : List ℕ) (l' l : Lit) : Prop :=
  ∃ type body conj cls, translator.getTsBody l.atom = some (.pc type body conj) ∧ type ≠ .rule ∧
    l.atom ∉ addedTseitins ∧ GroundTheory.elimination l type body conj = some cls ∧ [l'] ∈ cls

-- no clause is left out, a Tseitin of one direction that is eliminated does not come back but as the same literal at
-- the root, and a Tseitin that is a rule belongs to one definition
structure HarmlessElem (trace : List TseitinInfo) (g : GroundTheory W B) (e : TseitinInfo) : Prop where
  dropped : ∀ tsbody, translator.getTsBody e.lit.atom = some tsbody → e.lit.atom ∉ g.addedTseitins →
    e.rootlevel = false → ¬ tsbody.Dropped
  again : ∀ tsbody, translator.getTsBody e.lit.atom = some tsbody → e.lit.atom ∉ g.addedTseitins →
    tsbody.type = .impl ∨ tsbody.type = .rimpl → ∀ e' ∈ trace, e'.rootlevel = true → e'.lit.atom = e.lit.atom →
      e.rootlevel = true ∧ e.lit = e'.lit
  definition : ∀ tsbody, translator.getTsBody e.lit.atom = some tsbody → tsbody.type = .rule →
    ∀ e' ∈ trace, e'.lit.atom = e.lit.atom → ∀ defid defid', e.defid = some defid → e'.defid = some defid' →
      defid = defid'

-- a literal that is added as a unit does not lead to itself through Tseitins that are not added yet
def HarmlessPart (g : GroundTheory W B) : Part W B → Prop
  | .push vi _ true => ∀ l ∈ vi, Acc (RootSucc translator g.addedTseitins) l
  | _ => True

def Config.Harmless (c : Config W B) : Prop :=
  match c.state.theory.tseitinqueue, c.state.parts with
  | e :: _, _ => HarmlessElem translator c.trace c.state.theory e
  | [], part :: _ => HarmlessPart translator c.state.theory part
  | [], [] => True

variable (nbModelsEquivalent : Bool)

def Config.next (c : Config W B) : Option (Config W B) :=
  (c.state.step translator nbModelsEquivalent).map fun s => ⟨c.state.theory.tseitinqueue.take 1 ++ c.trace, s⟩

def Config.after : ℕ → Config W B → Option (Config W B)
  | 0, c => some c
  | n + 1, c => (c.next translator nbModelsEquivalent).bind (Config.after n)

-- a step that meets the condition
def Follows (c c' : Config W B) : Prop := c.Harmless translator ∧ c.next translator nbModelsEquivalent = some c'

end Conditions

section Inversion

variable {translator : GroundTranslator W B} {nbModelsEquivalent : Bool}

namespace GroundTheory

def rootClause (e : TseitinInfo) : List (Constraint W B) := if e.rootlevel then [.clause [e.lit]] else []

theorem polAddRoot_eq (e : TseitinInfo) (g : GroundTheory W B) : polAddRoot e g = g.emit (rootClause e) [] [] := by
  unfold polAddRoot rootClause
  split_ifs
  · exact polAdd_eq _ _
  · exact (emit_nil g).symm

def insert (t : ℕ) (g : GroundTheory W B) : GroundTheory W B := { g with addedTseitins := t :: g.addedTseitins }

theorem insertTseitin_eq (e : TseitinInfo) (g : GroundTheory W B) :
    insertTseitin e g = insert e.lit.atom (g.emit (rootClause e) [] []) := by
  rw [← polAddRoot_eq]
  unfold insertTseitin insert polAddRoot polAdd
  split_ifs <;> rfl

end GroundTheory

open GroundTheory in
-- what a step can do
inductive Did (translator : GroundTranslator W B) (c : Config W B) : Config W B → Prop
  | known (e : TseitinInfo) (queue : List TseitinInfo) (hqueue : c.state.theory.tseitinqueue = e :: queue)
      (harmless : HarmlessElem translator c.trace c.state.theory e)
      (h : translator.getTsBody e.lit.atom = none ∨ e.lit.atom ∈ c.state.theory.addedTseitins) :
      Did translator c ⟨e :: c.trace,
        ⟨({ c.state.theory with tseitinqueue := queue }.emit (rootClause e) [] []), c.state.parts⟩⟩
  | eliminated (e : TseitinInfo) (queue : List TseitinInfo) (type : TsType) (body : List Lit) (conj : Bool)
      (cls : List (List Lit)) (hqueue : c.state.theory.tseitinqueue = e :: queue)
      (harmless : HarmlessElem translator c.trace c.state.theory e)
      (hbody : translator.getTsBody e.lit.atom = some (.pc type body conj)) (htype : type ≠ .rule)
      (hnew : e.lit.atom ∉ c.state.theory.addedTseitins) (hroot : e.rootlevel = true)
      (hcls : elimination e.lit type body conj = some cls) :
      Did translator c ⟨e :: c.trace,
        ⟨({ c.state.theory with tseitinqueue := queue }.emit (clauseConstraints cls) (clauseInfos cls) []),
          c.state.parts⟩⟩
  | root (e : TseitinInfo) (queue : List TseitinInfo) (type : TsType) (body : List Lit) (conj : Bool)
      (hqueue : c.state.theory.tseitinqueue = e :: queue)
      (harmless : HarmlessElem translator c.trace c.state.theory e)
      (hbody : translator.getTsBody e.lit.atom = some (.pc type body conj)) (htype : type ≠ .rule)
      (hnew : e.lit.atom ∉ c.state.theory.addedTseitins) (hroot : e.rootlevel = true)
      (hcls : elimination e.lit type body conj = none) :
      Did translator c ⟨e :: c.trace,
        ⟨insert e.lit.atom ({ c.state.theory with tseitinqueue := queue }.emit (rootClause e) [] []), c.state.parts⟩⟩
  | added (e : TseitinInfo) (queue : List TseitinInfo) (tsbody : TsBody W B) (cs : List (Constraint W B))
      (q : List TseitinInfo) (sets : List ℕ) (hqueue : c.state.theory.tseitinqueue = e :: queue)
      (harmless : HarmlessElem translator c.trace c.state.theory e)
      (hbody : translator.getTsBody e.lit.atom = some tsbody) (hnew : e.lit.atom ∉ c.state.theory.addedTseitins)
      (hemission : Emission translator e tsbody c.state.theory.addedSets cs q sets) (hdropped : ¬ tsbody.Dropped) :
      Did translator c ⟨e :: c.trace, ⟨insert e.lit.atom
        ({ c.state.theory with tseitinqueue := queue }.emit (cs ++ rootClause e) q sets), c.state.parts⟩⟩
  | polAdd (k : Constraint W B) (parts : List (Part W B)) (hqueue : c.state.theory.tseitinqueue = [])
      (hparts : c.state.parts = .polAdd k :: parts) : Did translator c ⟨c.trace, ⟨c.state.theory.emit [k] [] [], parts⟩⟩
  | push (vi : List Lit) (defnr : Option ℕ) (propagated : Bool) (parts : List (Part W B))
      (hqueue : c.state.theory.tseitinqueue = []) (hparts : c.state.parts = .push vi defnr propagated :: parts)
      (harmless : HarmlessPart translator c.state.theory (.push vi defnr propagated)) :
      Did translator c ⟨c.trace, ⟨c.state.theory.emit [] (vi.map (⟨·, defnr, propagated⟩)) [], parts⟩⟩
  | sent (setnr : ℕ) (defnr : Option ℕ) (weighted : Bool) (parts : List (Part W B))
      (hqueue : c.state.theory.tseitinqueue = []) (hparts : c.state.parts = .set setnr defnr weighted :: parts)
      (hset : setnr ∈ c.state.theory.addedSets) : Did translator c ⟨c.trace, ⟨c.state.theory, parts⟩⟩
  | set (setnr : ℕ) (defnr : Option ℕ) (weighted : Bool) (parts : List (Part W B))
      (hqueue : c.state.theory.tseitinqueue = []) (hparts : c.state.parts = .set setnr defnr weighted :: parts)
      (hset : setnr ∉ c.state.theory.addedSets) :
      Did translator c ⟨c.trace, ⟨c.state.theory.emit [] [] [setnr],
        .push (translator.groundset setnr).literals defnr false ::
          .polAdd (.set setnr (translator.groundset setnr) weighted) :: parts⟩⟩

open GroundTheory in
theorem handle_did {c : Config W B} {e : TseitinInfo} {queue : List TseitinInfo} {theory : GroundTheory W B}
    (hqueue : c.state.theory.tseitinqueue = e :: queue) (harmless : HarmlessElem translator c.trace c.state.theory e)
    (h : handle translator nbModelsEquivalent e { c.state.theory with tseitinqueue := queue } = some theory) :
    Did translator c ⟨e :: c.trace, ⟨theory, c.state.parts⟩⟩ := by
  unfold handle at h
  cases hbody : translator.getTsBody e.lit.atom with
  | none =>
    rw [hbody] at h
    obtain rfl := Option.some.inj h
    rw [polAddRoot_eq]
    exact .known e queue hqueue harmless (Or.inl hbody)
  | some tsbody =>
    rw [hbody] at h
    dsimp only at h
    by_cases hnew : e.lit.atom ∈ c.state.theory.addedTseitins
    · rw [if_pos hnew] at h
      obtain rfl := Option.some.inj h
      rw [polAddRoot_eq]
      exact .known e queue hqueue harmless (Or.inr hnew)
    · rw [if_neg hnew] at h
      have hadd : ∀ {tsbody : TsBody W B}, translator.getTsBody e.lit.atom = some tsbody → ¬ tsbody.Dropped →
          (addBody translator nbModelsEquivalent e.lit.atom e.defid { c.state.theory with tseitinqueue := queue }
            tsbody).map (insertTseitin e) = some theory → Did translator c ⟨e :: c.trace, ⟨theory, c.state.parts⟩⟩ := by
        intro tsbody hbody hdropped h
        obtain ⟨g, hg, rfl⟩ := Option.map_eq_some_iff.mp h
        obtain ⟨cs, q, sets, rfl, hemission⟩ := addBody_emits hg
        rw [insertTseitin_eq, emit_emit, List.append_nil, List.nil_append]
        exact .added e queue tsbody cs q sets hqueue harmless hbody hnew hemission hdropped
      cases tsbody with
      | agg body => exact hadd hbody id h
      | other type form => exact hadd hbody id h
      | pc type body conj =>
        dsimp only at h
        split_ifs at h with hroot
        · rw [Bool.and_eq_true, decide_eq_true_eq] at hroot
          cases hcls : elimination e.lit type body conj with
          | none =>
            rw [hcls] at h
            obtain rfl := Option.some.inj h
            rw [insertTseitin_eq]
            exact .root e queue type body conj hqueue harmless hbody hroot.2 hnew hroot.1 hcls
          | some cls =>
            rw [hcls] at h
            obtain rfl := Option.some.inj h
            rw [addClauses_eq]
            exact .eliminated e queue type body conj cls hqueue harmless hbody hroot.2 hnew hroot.1 hcls
        · refine hadd hbody (fun hdropped => ?_) h
          rw [Bool.and_eq_true, decide_eq_true_eq, not_and_or, not_not, Bool.not_eq_true] at hroot
          refine hroot.elim (fun hroot => harmless.dropped _ hbody hnew hroot hdropped) fun hrule => ?_
          obtain ⟨-, ⟨htype, -⟩ | ⟨htype, -⟩⟩ := hdropped
          · exact absurd (hrule.symm.trans htype) nofun
          · exact absurd (hrule.symm.trans htype) nofun

theorem Follows.did {c c' : Config W B} (h : Follows translator nbModelsEquivalent c c') : Did translator c c' := by
  obtain ⟨harmless, hnext⟩ := h
  obtain ⟨s, hstep, rfl⟩ := Option.map_eq_some_iff.mp hnext
  unfold Config.Harmless at harmless
  unfold Adding.step at hstep
  cases hqueue : c.state.theory.tseitinqueue with
  | cons e queue =>
    rw [hqueue] at hstep harmless
    obtain ⟨theory, htheory, rfl⟩ := Option.map_eq_some_iff.mp hstep
    exact handle_did hqueue harmless htheory
  | nil =>
    rw [hqueue] at hstep harmless
    cases hparts : c.state.parts with
    | nil =>
      rw [hparts] at hstep
      cases hstep
    | cons part parts =>
      rw [hparts] at hstep harmless
      obtain rfl := Option.some.inj hstep
      cases part with
      | polAdd k =>
        dsimp only [Adding.addPart]
        rw [GroundTheory.polAdd_eq]
        exact .polAdd k parts hqueue hparts
      | push vi defnr propagated =>
        dsimp only [Adding.addPart]
        rw [GroundTheory.push_eq]
        exact .push vi defnr propagated parts hqueue hparts harmless
      | set setnr defnr weighted =>
        dsimp only [Adding.addPart]
        split_ifs with hset
        · exact .sent setnr defnr weighted parts hqueue hparts hset
        · have hdid : Did translator c _ := .set setnr defnr weighted parts hqueue hparts hset
          rw [GroundTheory.emit, List.append_nil, List.append_nil] at hdid
          exact hdid

end Inversion

end Grounding

namespace Grounding

variable {W B : Type} {translator : GroundTranslator W B} {c c' : Config W B}

-- the constraint is sent, or a part of what is added
def Config.Comes (c : Config W B) (k : Constraint W B) : Prop :=
  k ∈ c.state.theory.constraints ∨ .polAdd k ∈ c.state.parts

variable (translator) in
-- a Tseitin that is reached gets its constraints
def Config.Reached (c : Config W B) (a : ℕ) : Prop :=
  translator.getTsBody a = none ∨ a ∈ c.state.theory.addedTseitins ∨
    (∃ e ∈ c.state.theory.tseitinqueue, e.rootlevel = false ∧ e.lit.atom = a) ∨
    ∃ vi defnr, .push vi defnr false ∈ c.state.parts ∧ ∃ l ∈ vi, l.atom = a

section Fields

open GroundTheory

variable {g : GroundTheory W B} {cs : List (Constraint W B)} {q : List TseitinInfo} {sets : List ℕ} {t : ℕ}

@[simp] theorem emit_constraints : (g.emit cs q sets).constraints = g.constraints ++ cs := rfl

@[simp] theorem emit_tseitinqueue : (g.emit cs q sets).tseitinqueue = g.tseitinqueue ++ q := rfl

@[simp] theorem emit_addedTseitins : (g.emit cs q sets).addedTseitins = g.addedTseitins := rfl

@[simp] theorem emit_addedSets : (g.emit cs q sets).addedSets = sets ++ g.addedSets := rfl

@[simp] theorem insert_constraints : (insert t g).constraints = g.constraints := rfl

@[simp] theorem insert_tseitinqueue : (insert t g).tseitinqueue = g.tseitinqueue := rfl

@[simp] theorem insert_addedTseitins : (insert t g).addedTseitins = t :: g.addedTseitins := rfl

@[simp] theorem insert_addedSets : (insert t g).addedSets = g.addedSets := rfl

theorem mem_rootClause {e : TseitinInfo} {k : Constraint W B} (h : k ∈ rootClause e) :
    e.rootlevel = true ∧ k = .clause [e.lit] := by
  unfold rootClause at h
  split_ifs at h with hroot
  · exact ⟨hroot, List.mem_singleton.mp h⟩
  · exact absurd h List.not_mem_nil

theorem mem_clauseConstraints {cls : List (List Lit)} {k : Constraint W B} :
    k ∈ clauseConstraints cls ↔ ∃ cl ∈ cls, cl.length ≠ 1 ∧ k = .clause cl := by
  unfold clauseConstraints
  rw [List.mem_flatMap]
  refine exists_congr fun cl => and_congr_right fun _ => ?_
  split_ifs with h
  · simp [h]
  · simp [h]

theorem mem_clauseInfos {cls : List (List Lit)} {e : TseitinInfo} :
    e ∈ clauseInfos cls ↔ ∃ cl ∈ cls, e.lit ∈ cl ∧ e.defid = none ∧ e.rootlevel = decide (cl.length = 1) := by
  unfold clauseInfos
  rw [List.mem_flatMap]
  refine exists_congr fun cl => and_congr_right fun _ => ?_
  rw [List.mem_map]
  constructor
  · rintro ⟨l, hl, rfl⟩
    exact ⟨hl, rfl, rfl⟩
  · rintro ⟨hl, hdefid, hroot⟩
    exact ⟨e.lit, hl, by rw [← hdefid, ← hroot]⟩

end Fields

section Atoms

open GroundTheory

theorem Config.Reached.step (hdid : Did translator c c') {a : ℕ} (h : c.Reached translator a) :
    c'.Reached translator a := by
  rcases h with h | h | ⟨e', he', hroot', ha⟩ | ⟨vi, defnr, hpart, l, hl, ha⟩
  · exact Or.inl h
  · refine Or.inr (Or.inl ?_)
    cases hdid with
    | root e queue type body conj hqueue harmless hbody htype hnew hroot hcls => exact List.mem_cons_of_mem _ h
    | added e queue tsbody cs q sets hqueue harmless hbody hnew hemission hdropped => exact List.mem_cons_of_mem _ h
    | _ => exact h
  · have hhead : ∀ {e : TseitinInfo} {queue : List TseitinInfo}, c.state.theory.tseitinqueue = e :: queue →
        e' = e ∨ e' ∈ queue := fun hqueue => List.mem_cons.mp (hqueue ▸ he')
    cases hdid with
    | known e queue hqueue harmless h =>
      rcases hhead hqueue with rfl | he
      · rw [ha] at h
        exact h.imp id Or.inl
      · exact Or.inr (Or.inr (Or.inl ⟨e', List.mem_append_left _ he, hroot', ha⟩))
    | eliminated e queue type body conj cls hqueue harmless hbody htype hnew hroot hcls =>
      rcases hhead hqueue with rfl | he
      · rw [hroot] at hroot'
        cases hroot'
      · exact Or.inr (Or.inr (Or.inl ⟨e', List.mem_append_left _ he, hroot', ha⟩))
    | root e queue type body conj hqueue harmless hbody htype hnew hroot hcls =>
      rcases hhead hqueue with rfl | he
      · exact Or.inr (Or.inl (ha ▸ List.mem_cons_self))
      · exact Or.inr (Or.inr (Or.inl ⟨e', List.mem_append_left _ he, hroot', ha⟩))
    | added e queue tsbody cs q sets hqueue harmless hbody hnew hemission hdropped =>
      rcases hhead hqueue with rfl | he
      · exact Or.inr (Or.inl (ha ▸ List.mem_cons_self))
      · exact Or.inr (Or.inr (Or.inl ⟨e', List.mem_append_left _ he, hroot', ha⟩))
    | polAdd k parts hqueue hparts =>
      rw [hqueue] at he'
      cases he'
    | push vi defnr propagated parts hqueue hparts harmless =>
      rw [hqueue] at he'
      cases he'
    | sent setnr defnr weighted parts hqueue hparts hset =>
      rw [hqueue] at he'
      cases he'
    | set setnr defnr weighted parts hqueue hparts hset =>
      rw [hqueue] at he'
      cases he'
  · have hhead : ∀ {part : Part W B} {parts : List (Part W B)}, c.state.parts = part :: parts →
        .push vi defnr false = part ∨ .push vi defnr false ∈ parts := fun hparts => List.mem_cons.mp (hparts ▸ hpart)
    cases hdid with
    | polAdd k parts hqueue hparts =>
      have hmem := (hhead hparts).resolve_left nofun
      exact Or.inr (Or.inr (Or.inr ⟨vi, defnr, hmem, l, hl, ha⟩))
    | push vi' defnr' propagated parts hqueue hparts harmless =>
      rcases hhead hparts with h | h
      · cases h
        refine Or.inr (Or.inr (Or.inl ⟨⟨l, defnr, false⟩, ?_, rfl, ha⟩))
        exact List.mem_append_right _ (List.mem_map_of_mem hl)
      · exact Or.inr (Or.inr (Or.inr ⟨vi, defnr, h, l, hl, ha⟩))
    | sent setnr defnr' weighted parts hqueue hparts hset =>
      have hmem := (hhead hparts).resolve_left nofun
      exact Or.inr (Or.inr (Or.inr ⟨vi, defnr, hmem, l, hl, ha⟩))
    | set setnr defnr' weighted parts hqueue hparts hset =>
      have hmem := (hhead hparts).resolve_left nofun
      exact Or.inr (Or.inr (Or.inr ⟨vi, defnr, List.mem_cons_of_mem _ (List.mem_cons_of_mem _ hmem), l, hl, ha⟩))
    | _ => exact Or.inr (Or.inr (Or.inr ⟨vi, defnr, hpart, l, hl, ha⟩))

theorem Config.Comes.step (hdid : Did translator c c') {k : Constraint W B} (h : c.Comes k) : c'.Comes k := by
  have hpart : ∀ {part : Part W B} {parts : List (Part W B)}, c.state.parts = part :: parts →
      .polAdd k ∈ c.state.parts → .polAdd k = part ∨ .polAdd k ∈ parts := fun hparts h => List.mem_cons.mp (hparts ▸ h)
  rcases h with h | h
  · left
    cases hdid with
    | sent setnr defnr weighted parts hqueue hparts hset => exact h
    | _ => exact List.mem_append_left _ h
  · cases hdid with
    | polAdd k' parts hqueue hparts =>
      rcases hpart hparts h with heq | h
      · cases heq
        exact Or.inl (List.mem_append_right _ (List.mem_singleton.mpr rfl))
      · exact Or.inr h
    | push vi defnr propagated parts hqueue hparts harmless => exact Or.inr ((hpart hparts h).resolve_left nofun)
    | sent setnr defnr weighted parts hqueue hparts hset => exact Or.inr ((hpart hparts h).resolve_left nofun)
    | set setnr defnr weighted parts hqueue hparts hset =>
      exact Or.inr (List.mem_cons_of_mem _ (List.mem_cons_of_mem _ ((hpart hparts h).resolve_left nofun)))
    | _ => exact Or.inr h

-- a constraint whose atoms are reached, whose set is there and is the one of the translator
structure Config.Founded (translator : GroundTranslator W B) (c : Config W B) (k : Constraint W B) : Prop where
  atoms : ∀ a ∈ k.atoms, c.Reached translator a
  setnr : ∀ n, k.setnr = some n →
    n ∈ c.state.theory.addedSets ∨ ∃ defnr weighted, .set n defnr weighted ∈ c.state.parts
  set : ∀ n tsset weighted, k = .set n tsset weighted → tsset = translator.groundset n

theorem Config.Founded.clause {cl : List Lit} (h : ∀ l ∈ cl, c.Reached translator l.atom) :
    c.Founded translator (.clause cl) := by
  refine ⟨fun a ha => ?_, nofun, nofun⟩
  obtain ⟨l, hl, rfl⟩ := List.mem_map.mp ha
  exact h l hl

theorem Config.Founded.rootClause {e : TseitinInfo} {k : Constraint W B} (hk : k ∈ GroundTheory.rootClause e)
    (h : c.Reached translator e.lit.atom) : c.Founded translator k := by
  obtain ⟨-, rfl⟩ := mem_rootClause hk
  exact .clause fun l hl => List.mem_singleton.mp hl ▸ h

theorem Config.Founded.step (hdid : Did translator c c') {k : Constraint W B} (h : c.Founded translator k) :
    c'.Founded translator k := by
  refine ⟨fun a ha => (h.atoms a ha).step hdid, fun n hn => ?_, h.set⟩
  have hpart : ∀ {part : Part W B} {parts : List (Part W B)} {defnr weighted}, c.state.parts = part :: parts →
      .set n defnr weighted ∈ c.state.parts → .set n defnr weighted = part ∨ .set n defnr weighted ∈ parts :=
    fun hparts h => List.mem_cons.mp (hparts ▸ h)
  rcases h.setnr n hn with h | ⟨defnr, weighted, h⟩
  · left
    cases hdid with
    | added e queue tsbody cs q sets hqueue harmless hbody hnew hemission hdropped => exact List.mem_append_right _ h
    | set setnr defnr weighted parts hqueue hparts hset => exact List.mem_append_right _ h
    | _ => exact h
  · cases hdid with
    | polAdd k' parts hqueue hparts => exact Or.inr ⟨_, _, (hpart hparts h).resolve_left nofun⟩
    | push vi defnr' propagated parts hqueue hparts harmless =>
      exact Or.inr ⟨_, _, (hpart hparts h).resolve_left nofun⟩
    | sent setnr defnr' weighted' parts hqueue hparts hset =>
      rcases hpart hparts h with heq | h
      · cases heq
        exact Or.inl hset
      · exact Or.inr ⟨_, _, h⟩
    | set setnr defnr' weighted' parts hqueue hparts hset =>
      rcases hpart hparts h with heq | h
      · cases heq
        exact Or.inl List.mem_cons_self
      · exact Or.inr ⟨_, _, List.mem_cons_of_mem _ (List.mem_cons_of_mem _ h)⟩
    | _ => exact Or.inr ⟨_, _, h⟩

theorem Did.founded (hdid : Did translator c c') {k : Constraint W B} (h : c'.Comes k) :
    c.Comes k ∨ c'.Founded translator k := by
  have hsent : ∀ {cs : List (Constraint W B)}, k ∈ c.state.theory.constraints ++ cs → c.Comes k ∨ k ∈ cs :=
    fun h => (List.mem_append.mp h).imp_left Or.inl
  cases hdid with
  | known e queue hqueue harmless hknown =>
    rcases h with h | h
    · refine (hsent h).imp_right fun h => .rootClause h ?_
      exact hknown.imp id Or.inl
    · exact Or.inl (Or.inr h)
  | eliminated e queue type body conj cls hqueue harmless hbody htype hnew hroot hcls =>
    rcases h with h | h
    · refine (hsent h).imp_right fun h => ?_
      obtain ⟨cl, hcl, hlength, rfl⟩ := mem_clauseConstraints.mp h
      refine .clause fun l hl => Or.inr (Or.inr (Or.inl ⟨⟨l, none, false⟩, List.mem_append_right _ ?_, rfl, rfl⟩))
      exact mem_clauseInfos.mpr ⟨cl, hcl, hl, rfl, (decide_eq_false hlength).symm⟩
    · exact Or.inl (Or.inr h)
  | root e queue type body conj hqueue harmless hbody htype hnew hroot hcls =>
    rcases h with h | h
    · exact (hsent h).imp_right fun h => .rootClause h (Or.inr (Or.inl List.mem_cons_self))
    · exact Or.inl (Or.inr h)
  | added e queue tsbody cs q sets hqueue harmless hbody hnew hemission hdropped =>
    rcases h with h | h
    · refine (hsent h).imp_right fun h => ?_
      rcases List.mem_append.mp h with h | h
      · refine ⟨fun a ha => ?_, fun n hn => ?_, fun n tsset weighted hk => ?_⟩
        · rcases hemission.covered k h a ha with rfl | ⟨e', he', hatom⟩
          · exact Or.inr (Or.inl List.mem_cons_self)
          · exact Or.inr (Or.inr (Or.inl ⟨e', List.mem_append_right _ he', hemission.nonroot e' he', hatom⟩))
        · exact Or.inl (List.mem_append.mpr (hemission.setnr_mem k h n hn))
        · subst hk
          exact hemission.set_mem n tsset weighted h
      · exact .rootClause h (Or.inr (Or.inl List.mem_cons_self))
    · exact Or.inl (Or.inr h)
  | polAdd k' parts hqueue hparts =>
    rcases h with h | h
    · exact Or.inl ((hsent h).elim id fun h => Or.inr (by rw [List.mem_singleton.mp h, hparts]; exact List.mem_cons_self))
    · exact Or.inl (Or.inr (by rw [hparts]; exact List.mem_cons_of_mem _ h))
  | push vi defnr propagated parts hqueue hparts harmless =>
    rcases h with h | h
    · exact Or.inl ((hsent h).resolve_right List.not_mem_nil)
    · exact Or.inl (Or.inr (by rw [hparts]; exact List.mem_cons_of_mem _ h))
  | sent setnr defnr weighted parts hqueue hparts hset =>
    rcases h with h | h
    · exact Or.inl (Or.inl h)
    · exact Or.inl (Or.inr (by rw [hparts]; exact List.mem_cons_of_mem _ h))
  | set setnr defnr weighted parts hqueue hparts hset =>
    rcases h with h | h
    · exact Or.inl ((hsent h).resolve_right List.not_mem_nil)
    · rcases List.mem_cons.mp ((List.mem_cons.mp h).resolve_left nofun) with heq | h
      · cases heq
        refine Or.inr ⟨fun a ha => ?_, nofun, fun n tsset weighted' heq => ?_⟩
        · obtain ⟨l, hl, rfl⟩ := List.mem_map.mp ha
          exact Or.inr (Or.inr (Or.inr ⟨_, _, List.mem_cons_self, l, hl, rfl⟩))
        · cases heq
          rfl
      · exact Or.inl (Or.inr (by rw [hparts]; exact List.mem_cons_of_mem _ h))

-- the sets that are recorded as added are sent
def Config.SetsSent (translator : GroundTranslator W B) (c : Config W B) : Prop :=
  ∀ n ∈ c.state.theory.addedSets, ∃ weighted, c.Comes (.set n (translator.groundset n) weighted)

theorem Config.SetsSent.step (hdid : Did translator c c') (h : c.SetsSent translator) : c'.SetsSent translator := by
  intro n hn
  have hold : n ∈ c.state.theory.addedSets → ∃ weighted, c'.Comes (.set n (translator.groundset n) weighted) :=
    fun hn => (h n hn).imp fun _ hcomes => hcomes.step hdid
  cases hdid with
  | added e queue tsbody cs q sets hqueue harmless hbody hnew hemission hdropped =>
    rcases List.mem_append.mp hn with hn | hn
    · obtain ⟨weighted, hmem⟩ := hemission.set_sent n hn
      exact ⟨weighted, Or.inl (List.mem_append_right _ (List.mem_append_left _ hmem))⟩
    · exact hold hn
  | set setnr defnr weighted parts hqueue hparts hset =>
    rcases List.mem_append.mp hn with hn | hn
    · rw [List.mem_singleton.mp hn]
      exact ⟨weighted, Or.inr (List.mem_cons_of_mem _ List.mem_cons_self)⟩
    · exact hold hn
  | _ => exact hold hn

end Atoms

section Roots

-- the literal is at the root: it has been handled, is in the queue or is still to be added
def Config.RootMet (c : Config W B) (l : Lit) : Prop :=
  (∃ e ∈ c.trace, e.rootlevel = true ∧ e.lit = l) ∨ (∃ e ∈ c.state.theory.tseitinqueue, e.rootlevel = true ∧ e.lit = l) ∨
    ∃ vi defnr, .push vi defnr true ∈ c.state.parts ∧ l ∈ vi

theorem Config.RootMet.step (hdid : Did translator c c') {l : Lit} (h : c.RootMet l) : c'.RootMet l := by
  have htrace : ∀ e ∈ c.trace, e ∈ c'.trace := fun e he => by
    cases hdid <;> first | exact he | exact List.mem_cons_of_mem _ he
  rcases h with ⟨e, he, hroot, hl⟩ | ⟨e', he', hroot', hl⟩ | ⟨vi, defnr, hpart, hl⟩
  · exact Or.inl ⟨e, htrace e he, hroot, hl⟩
  · have hhead : ∀ {e : TseitinInfo} {queue q : List TseitinInfo}, c.state.theory.tseitinqueue = e :: queue →
        e' ∈ e :: c.trace ∨ e' ∈ queue ++ q := fun hqueue =>
      (List.mem_cons.mp (hqueue ▸ he')).imp (fun h => by rw [h]; exact List.mem_cons_self) (List.mem_append_left _)
    have hrest : e' ∈ c'.trace ∨ e' ∈ c'.state.theory.tseitinqueue := by
      cases hdid with
      | known e queue hqueue harmless h => exact hhead hqueue
      | eliminated e queue type body conj cls hqueue harmless hbody htype hnew hroot hcls => exact hhead hqueue
      | root e queue type body conj hqueue harmless hbody htype hnew hroot hcls => exact hhead hqueue
      | added e queue tsbody cs q sets hqueue harmless hbody hnew hemission hdropped => exact hhead hqueue
      | polAdd k parts hqueue hparts => exact absurd he' (hqueue ▸ List.not_mem_nil)
      | push vi defnr propagated parts hqueue hparts harmless => exact absurd he' (hqueue ▸ List.not_mem_nil)
      | sent setnr defnr weighted parts hqueue hparts hset => exact absurd he' (hqueue ▸ List.not_mem_nil)
      | set setnr defnr weighted parts hqueue hparts hset => exact absurd he' (hqueue ▸ List.not_mem_nil)
    exact hrest.imp (fun h => ⟨e', h, hroot', hl⟩) fun h => Or.inl ⟨e', h, hroot', hl⟩
  · have hhead : ∀ {part : Part W B} {parts : List (Part W B)}, c.state.parts = part :: parts →
        .push vi defnr true = part ∨ .push vi defnr true ∈ parts := fun hparts => List.mem_cons.mp (hparts ▸ hpart)
    cases hdid with
    | polAdd k parts hqueue hparts =>
      exact Or.inr (Or.inr ⟨vi, defnr, (hhead hparts).resolve_left nofun, hl⟩)
    | push vi' defnr' propagated parts hqueue hparts harmless =>
      rcases hhead hparts with h | h
      · cases h
        exact Or.inr (Or.inl ⟨⟨l, defnr, true⟩, List.mem_append_right _ (List.mem_map_of_mem hl), rfl, rfl⟩)
      · exact Or.inr (Or.inr ⟨vi, defnr, h, hl⟩)
    | sent setnr defnr' weighted parts hqueue hparts hset =>
      exact Or.inr (Or.inr ⟨vi, defnr, (hhead hparts).resolve_left nofun, hl⟩)
    | set setnr defnr' weighted parts hqueue hparts hset =>
      exact Or.inr (Or.inr ⟨vi, defnr, List.mem_cons_of_mem _ (List.mem_cons_of_mem _
        ((hhead hparts).resolve_left nofun)), hl⟩)
    | _ => exact Or.inr (Or.inr ⟨vi, defnr, hpart, hl⟩)

-- a literal is new at the root when it replaces one
theorem Did.rootMet (hdid : Did translator c c') {l : Lit} (h : c'.RootMet l) :
    c.RootMet l ∨ ∃ l₀, c.RootMet l₀ ∧ RootSucc translator c.state.theory.addedTseitins l l₀ := by
  have hqueue' : ∀ {e : TseitinInfo} {queue q : List TseitinInfo}, c.state.theory.tseitinqueue = e :: queue →
      (∀ e' ∈ q, e'.rootlevel = false) → ((∃ e' ∈ e :: c.trace, e'.rootlevel = true ∧ e'.lit = l) ∨
        (∃ e' ∈ queue ++ q, e'.rootlevel = true ∧ e'.lit = l) ∨ ∃ vi defnr, .push vi defnr true ∈ c.state.parts ∧ l ∈ vi) →
      c.RootMet l := by
    rintro e queue q hqueue hq (⟨e', he', hroot, hl⟩ | ⟨e', he', hroot, hl⟩ | h)
    · rcases List.mem_cons.mp he' with rfl | he'
      · exact Or.inr (Or.inl ⟨e', hqueue ▸ List.mem_cons_self, hroot, hl⟩)
      · exact Or.inl ⟨e', he', hroot, hl⟩
    · rcases List.mem_append.mp he' with he' | he'
      · exact Or.inr (Or.inl ⟨e', hqueue ▸ List.mem_cons_of_mem _ he', hroot, hl⟩)
      · rw [hq e' he'] at hroot
        cases hroot
    · exact Or.inr (Or.inr h)
  cases hdid with
  | known e queue hqueue harmless hknown => exact Or.inl (hqueue' (q := []) hqueue nofun h)
  | root e queue type body conj hqueue harmless hbody htype hnew hroot hcls => exact Or.inl (hqueue' (q := []) hqueue nofun h)
  | added e queue tsbody cs q sets hqueue harmless hbody hnew hemission hdropped =>
    exact Or.inl (hqueue' hqueue hemission.nonroot h)
  | eliminated e queue type body conj cls hqueue harmless hbody htype hnew hroot hcls =>
    rcases h with h | ⟨e', he', hroot', rfl⟩ | h
    · exact Or.inl (hqueue' (q := []) hqueue nofun (Or.inl h))
    · rcases List.mem_append.mp he' with he' | he'
      · exact Or.inl (hqueue' (q := []) hqueue nofun (Or.inr (Or.inl ⟨e', List.mem_append_left _ he', hroot', rfl⟩)))
      · obtain ⟨cl, hcl, hl, -, hlength⟩ := mem_clauseInfos.mp he'
        rw [hroot'] at hlength
        obtain ⟨l', rfl⟩ := List.length_eq_one_iff.mp (of_decide_eq_true hlength.symm)
        refine Or.inr ⟨e.lit, Or.inr (Or.inl ⟨e, hqueue ▸ List.mem_cons_self, hroot, rfl⟩),
          type, body, conj, cls, hbody, htype, hnew, hcls, ?_⟩
        rwa [List.mem_singleton.mp hl]
    · exact Or.inl (Or.inr (Or.inr h))
  | polAdd k parts hqueue hparts =>
    rcases h with h | ⟨e', he', h⟩ | ⟨vi, defnr, h, hl⟩
    · exact Or.inl (Or.inl h)
    · exact Or.inl (Or.inr (Or.inl ⟨e', (List.mem_append.mp he').resolve_right List.not_mem_nil, h⟩))
    · exact Or.inl (Or.inr (Or.inr ⟨vi, defnr, hparts ▸ List.mem_cons_of_mem _ h, hl⟩))
  | push vi' defnr' propagated parts hqueue hparts harmless =>
    rcases h with h | ⟨e', he', hroot', rfl⟩ | ⟨vi, defnr, h, hl⟩
    · exact Or.inl (Or.inl h)
    · rcases List.mem_append.mp he' with he' | he'
      · exact Or.inl (Or.inr (Or.inl ⟨e', he', hroot', rfl⟩))
      · obtain ⟨l, hl, rfl⟩ := List.mem_map.mp he'
        obtain rfl : propagated = true := hroot'
        exact Or.inl (Or.inr (Or.inr ⟨vi', defnr', hparts ▸ List.mem_cons_self, hl⟩))
    · exact Or.inl (Or.inr (Or.inr ⟨vi, defnr, hparts ▸ List.mem_cons_of_mem _ h, hl⟩))
  | sent setnr defnr' weighted parts hqueue hparts hset =>
    rcases h with h | h | ⟨vi, defnr, h, hl⟩
    · exact Or.inl (Or.inl h)
    · exact Or.inl (Or.inr (Or.inl h))
    · exact Or.inl (Or.inr (Or.inr ⟨vi, defnr, hparts ▸ List.mem_cons_of_mem _ h, hl⟩))
  | set setnr defnr' weighted parts hqueue hparts hset =>
    rcases h with h | ⟨e', he', h⟩ | ⟨vi, defnr, h, hl⟩
    · exact Or.inl (Or.inl h)
    · exact Or.inl (Or.inr (Or.inl ⟨e', (List.mem_append.mp he').resolve_right List.not_mem_nil, h⟩))
    · refine Or.inl (Or.inr (Or.inr ⟨vi, defnr, ?_, hl⟩))
      have hmem := (List.mem_cons.mp ((List.mem_cons.mp h).resolve_left nofun)).resolve_left nofun
      exact hparts ▸ List.mem_cons_of_mem _ hmem

end Roots

end Grounding
