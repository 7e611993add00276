import DeclarativeLocalSearch.Grounding.Runs

namespace Grounding

variable {W B : Type} {translator : GroundTranslator W B} {c c' : Config W B} {additions : List (Addition W)}

section Elimination

variable {l : Lit} {type : TsType} {body : List Lit} {conj : Bool} {cls : List (List Lit)} {ν : ℕ → Prop}

theorem elimination_eq_some (h : GroundTheory.elimination l type body conj = some cls) :
    ((l.positive = true → type ≠ .rimpl) ∧ (l.positive = false → type ≠ .impl)) ∧
      cls = if l.positive then if conj then body.map ([·]) else [body]
        else if conj then [body.map (- ·)] else body.map ([- ·]) := by
  unfold GroundTheory.elimination at h
  cases hl : l.positive with
  | true =>
    rw [hl, if_pos rfl] at h
    by_cases htype : type = .rimpl
    · rw [if_pos htype] at h
      cases h
    · rw [if_neg htype] at h
      exact ⟨⟨fun _ => htype, nofun⟩, (Option.some.inj h).symm⟩
  | false =>
    rw [hl, if_neg Bool.false_ne_true] at h
    by_cases htype : type = .impl
    · rw [if_pos htype] at h
      cases h
    · rw [if_neg htype] at h
      exact ⟨⟨nofun, fun _ => htype⟩, (Option.some.inj h).symm⟩

-- nothing replaces the literal where it is all that its body asks for
theorem relates_of_elimination_eq_none {p : Prop} (h : GroundTheory.elimination l type body conj = none)
    (hl : l.holds ν) : type.relates (ν l.atom) p := by
  unfold GroundTheory.elimination at h
  unfold Lit.holds at hl
  cases hpositive : l.positive with
  | true =>
    rw [hpositive, if_pos rfl] at h hl
    by_cases htype : type = .rimpl
    · subst htype
      exact fun _ => hl
    · rw [if_neg htype] at h
      cases h
  | false =>
    rw [hpositive, if_neg Bool.false_ne_true] at h hl
    by_cases htype : type = .impl
    · subst htype
      exact fun hhead => absurd hhead hl
    · rw [if_neg htype] at h
      cases h

theorem elimination_holds (h : GroundTheory.elimination l type body conj = some cls) :
    (∀ cl ∈ cls, clauseHolds ν cl) ↔ if l.positive then bodyHolds ν body conj else ¬ bodyHolds ν body conj := by
  rw [(elimination_eq_some h).2]
  cases l.positive <;> cases conj <;> simp [clauseHolds, bodyHolds]

theorem elimination_of_relates (h : GroundTheory.elimination l type body conj = some cls) (htype : type ≠ .rule)
    (hrelates : type.relates (ν l.atom) (bodyHolds ν body conj)) (hl : l.holds ν) : ∀ cl ∈ cls, clauseHolds ν cl := by
  rw [elimination_holds h]
  have htypes := (elimination_eq_some h).1
  unfold Lit.holds at hl
  cases hpositive : l.positive with
  | true =>
    rw [hpositive, if_pos rfl] at hl
    rw [if_pos rfl]
    cases type with
    | eq => exact hrelates.mp hl
    | impl => exact hrelates hl
    | rimpl => exact absurd rfl (htypes.1 hpositive)
    | rule => exact absurd rfl htype
  | false =>
    rw [hpositive, if_neg Bool.false_ne_true] at hl
    rw [if_neg Bool.false_ne_true]
    cases type with
    | eq => exact mt hrelates.mpr hl
    | impl => exact absurd rfl (htypes.2 hpositive)
    | rimpl => exact mt hrelates hl
    | rule => exact absurd rfl htype

end Elimination

section Sound

variable (translator additions) in
-- an assignment in which what is added and the bodies hold, and the rules of the Tseitins that have been added
structure Constrained (X : Semantics W B) (addedTseitins : List ℕ) (ν : ℕ → Prop) : Prop where
  clause : ∀ cl, .clause cl ∈ additions → clauseHolds ν cl
  relates : ∀ t tsbody, translator.getTsBody t = some tsbody → tsbody.type.relates (ν t) (tsbody.value X translator ν)
  rule : ∀ t ∈ addedTseitins, ∀ tsbody, translator.getTsBody t = some tsbody → tsbody.type = .rule →
    (∃ r, tsbody.groundRule translator 0 t = some r) → tsbody.value X translator ν → ν t

variable (translator additions) in
def Config.Sound (c : Config W B) : Prop :=
  ∀ X ν, Constrained translator additions X c.state.theory.addedTseitins ν →
    (∀ k, c.Comes k → k.means X translator ν) ∧ ∀ l, c.RootMet l → l.holds ν

theorem Config.Sound.step (hdid : Did translator c c') (h : c.Sound translator additions) :
    c'.Sound translator additions := by
  intro X ν hν
  have hadded : ∀ t ∈ c.state.theory.addedTseitins, t ∈ c'.state.theory.addedTseitins := fun t ht => by
    cases hdid <;> first | exact ht | exact List.mem_cons_of_mem _ ht
  obtain ⟨hcomes, hroots⟩ := h X ν ⟨hν.clause, hν.relates, fun t ht => hν.rule t (hadded t ht)⟩
  have hroots' : ∀ l, c'.RootMet l → l.holds ν := by
    intro l hl
    rcases hdid.rootMet hl with hl | ⟨l₀, hl₀, type, body, conj, cls, hbody, htype, -, hcls, hmem⟩
    · exact hroots l hl
    · obtain ⟨l', hl', hholds⟩ :=
        elimination_of_relates hcls htype (hν.relates _ _ hbody) (hroots l₀ hl₀) _ hmem
      rwa [List.mem_singleton.mp hl'] at hholds
  refine ⟨fun k hk => ?_, hroots'⟩
  have hrootClause : ∀ {e : TseitinInfo} {queue : List TseitinInfo}, c.state.theory.tseitinqueue = e :: queue →
      k ∈ GroundTheory.rootClause e → k.means X translator ν := fun hqueue hk => by
    obtain ⟨hroot, rfl⟩ := mem_rootClause hk
    exact ⟨_, List.mem_singleton.mpr rfl, hroots _ (Or.inr (Or.inl ⟨_, hqueue ▸ List.mem_cons_self, hroot, rfl⟩))⟩
  have hsent : ∀ {cs : List (Constraint W B)}, (k ∈ c.state.theory.constraints ++ cs ∨ .polAdd k ∈ c.state.parts) →
      (k ∈ cs → k.means X translator ν) → k.means X translator ν := by
    rintro cs (hk | hk) hnew
    · exact (List.mem_append.mp hk).elim (fun hk => hcomes k (Or.inl hk)) hnew
    · exact hcomes k (Or.inr hk)
  cases hdid with
  | known e queue hqueue harmless hknown => exact hsent hk (hrootClause hqueue)
  | root e queue type body conj hqueue harmless hbody htype hnew hroot hcls => exact hsent hk (hrootClause hqueue)
  | eliminated e queue type body conj cls hqueue harmless hbody htype hnew hroot hcls =>
    refine hsent hk fun hk => ?_
    obtain ⟨cl, hcl, -, rfl⟩ := mem_clauseConstraints.mp hk
    exact elimination_of_relates hcls htype (hν.relates _ _ hbody)
      (hroots _ (Or.inr (Or.inl ⟨e, hqueue ▸ List.mem_cons_self, hroot, rfl⟩))) cl hcl
  | added e queue tsbody cs q sets hqueue harmless hbody hnew hemission hdropped =>
    refine hsent hk fun hk => ?_
    rcases List.mem_append.mp hk with hk | hk
    · exact hemission.means X ν (hν.relates _ _ hbody) (hν.rule _ List.mem_cons_self tsbody hbody) k hk
    · exact hrootClause hqueue hk
  | polAdd k' parts hqueue hparts =>
    rcases hk with hk | hk
    · rcases List.mem_append.mp hk with hk | hk
      · exact hcomes k (Or.inl hk)
      · exact hcomes k (Or.inr (by rw [List.mem_singleton.mp hk, hparts]; exact List.mem_cons_self))
    · exact hcomes k (Or.inr (hparts ▸ List.mem_cons_of_mem _ hk))
  | push vi defnr propagated parts hqueue hparts harmless =>
    rcases hk with hk | hk
    · exact hcomes k (Or.inl ((List.mem_append.mp hk).resolve_right List.not_mem_nil))
    · exact hcomes k (Or.inr (hparts ▸ List.mem_cons_of_mem _ hk))
  | sent setnr defnr weighted parts hqueue hparts hset =>
    rcases hk with hk | hk
    · exact hcomes k (Or.inl hk)
    · exact hcomes k (Or.inr (hparts ▸ List.mem_cons_of_mem _ hk))
  | set setnr defnr weighted parts hqueue hparts hset =>
    rcases hk with hk | hk
    · exact hcomes k (Or.inl ((List.mem_append.mp hk).resolve_right List.not_mem_nil))
    · rcases List.mem_cons.mp ((List.mem_cons.mp hk).resolve_left nofun) with heq | hk
      · cases heq
        trivial
      · exact hcomes k (Or.inr (hparts ▸ List.mem_cons_of_mem _ hk))

end Sound

section Complete

-- the clause comes, or its only literal is at the root
def Config.Covers (c : Config W B) (cl : List Lit) : Prop :=
  c.Comes (.clause cl) ∨ ∃ l, cl = [l] ∧ c.RootMet l

theorem Config.Covers.step (hdid : Did translator c c') {cl : List Lit} (h : c.Covers cl) : c'.Covers cl :=
  h.imp (·.step hdid) fun ⟨l, hcl, hl⟩ => ⟨l, hcl, hl.step hdid⟩

variable (translator) in
-- the literal has been replaced by clauses; one with a single literal came to the root afterwards
def Config.Eliminated (c : Config W B) (later : List TseitinInfo) (l : Lit) : Prop :=
  ∃ type body conj cls, translator.getTsBody l.atom = some (.pc type body conj) ∧ type ≠ .rule ∧
    GroundTheory.elimination l type body conj = some cls ∧
      ∀ cl ∈ cls, c.Comes (.clause cl) ∨ ∃ l', cl = [l'] ∧
        ((∃ e ∈ later, e.rootlevel = true ∧ e.lit = l') ∨
          ∃ e ∈ c.state.theory.tseitinqueue, e.rootlevel = true ∧ e.lit = l')

theorem Config.Eliminated.step (hdid : Did translator c c') {later later' : List TseitinInfo} {l : Lit}
    (h : c.Eliminated translator later l) (hlater : ∀ e ∈ later, e ∈ later')
    (hqueue : ∀ e ∈ c.state.theory.tseitinqueue, e ∈ later' ∨ e ∈ c'.state.theory.tseitinqueue) :
    c'.Eliminated translator later' l := by
  obtain ⟨type, body, conj, cls, hbody, htype, hcls, hcovers⟩ := h
  refine ⟨type, body, conj, cls, hbody, htype, hcls, fun cl hcl => ?_⟩
  rcases hcovers cl hcl with h | ⟨l', rfl, ⟨e, he, h⟩ | ⟨e, he, h⟩⟩
  · exact Or.inl (h.step hdid)
  · exact Or.inr ⟨l', rfl, Or.inl ⟨e, hlater e he, h⟩⟩
  · exact Or.inr ⟨l', rfl, (hqueue e he).imp (fun he => ⟨e, he, h⟩) fun he => ⟨e, he, h⟩⟩

theorem Did.queue (hdid : Did translator c c') {later : List TseitinInfo}
    (hlater : ∀ e queue, c.state.theory.tseitinqueue = e :: queue → e ∈ later) :
    ∀ e ∈ c.state.theory.tseitinqueue, e ∈ later ∨ e ∈ c'.state.theory.tseitinqueue := by
  intro e' he'
  have hhead : ∀ {e : TseitinInfo} {queue q : List TseitinInfo}, c.state.theory.tseitinqueue = e :: queue →
      e' ∈ later ∨ e' ∈ queue ++ q := fun hqueue =>
    (List.mem_cons.mp (hqueue ▸ he')).imp (fun h => by rw [h]; exact hlater _ _ hqueue) (List.mem_append_left _)
  cases hdid with
  | known e queue hqueue harmless h => exact hhead hqueue
  | eliminated e queue type body conj cls hqueue harmless hbody htype hnew hroot hcls => exact hhead hqueue
  | root e queue type body conj hqueue harmless hbody htype hnew hroot hcls => exact hhead hqueue
  | added e queue tsbody cs q sets hqueue harmless hbody hnew hemission hdropped => exact hhead hqueue
  | polAdd k parts hqueue hparts => exact absurd he' (hqueue ▸ List.not_mem_nil)
  | push vi defnr propagated parts hqueue hparts harmless => exact absurd he' (hqueue ▸ List.not_mem_nil)
  | sent setnr defnr weighted parts hqueue hparts hset => exact absurd he' (hqueue ▸ List.not_mem_nil)
  | set setnr defnr weighted parts hqueue hparts hset => exact absurd he' (hqueue ▸ List.not_mem_nil)

variable (translator) in
-- what becomes of an element of the queue
inductive Handled (c c' : Config W B) (e : TseitinInfo) : Prop
  | known (h : translator.getTsBody e.lit.atom = none ∨ e.lit.atom ∈ c.state.theory.addedTseitins)
      (hadded : c'.state.theory.addedTseitins = c.state.theory.addedTseitins)
      (hroot : e.rootlevel = true → c'.Comes (.clause [e.lit]))
  | eliminated (hnew : e.lit.atom ∉ c.state.theory.addedTseitins) (hroot : e.rootlevel = true)
      (hadded : c'.state.theory.addedTseitins = c.state.theory.addedTseitins)
      (heliminated : c'.Eliminated translator [] e.lit)
  | added (tsbody : TsBody W B) (hbody : translator.getTsBody e.lit.atom = some tsbody)
      (hnew : e.lit.atom ∉ c.state.theory.addedTseitins)
      (hadded : c'.state.theory.addedTseitins = e.lit.atom :: c.state.theory.addedTseitins)
      (hroot : e.rootlevel = true → c'.Comes (.clause [e.lit]))
      (hrelates : ∀ X ν, (∀ k, c'.Comes k → k.means X translator ν) →
        tsbody.type.relates (ν e.lit.atom) (tsbody.value X translator ν))
      (hrule : tsbody.type = .rule → ∀ defid r, tsbody.groundRule translator defid e.lit.atom = some r →
        ∃ defid', e.defid = some defid' ∧ ∃ k, c'.Comes k ∧
          k.groundRule translator = tsbody.groundRule translator defid' e.lit.atom)

theorem Did.handled (hdid : Did translator c c') :
    (c'.trace = c.trace ∧ c'.state.theory.addedTseitins = c.state.theory.addedTseitins ∧
      c.state.theory.tseitinqueue = []) ∨
      ∃ e queue, c.state.theory.tseitinqueue = e :: queue ∧ c'.trace = e :: c.trace ∧
        HarmlessElem translator c.trace c.state.theory e ∧ Handled translator c c' e := by
  have hrootClause : ∀ {e : TseitinInfo}, e.rootlevel = true →
      (.clause [e.lit] : Constraint W B) ∈ GroundTheory.rootClause e := fun hroot => by
    rw [GroundTheory.rootClause, if_pos hroot]
    exact List.mem_singleton.mpr rfl
  cases hdid with
  | known e queue hqueue harmless hknown =>
    exact Or.inr ⟨e, queue, hqueue, rfl, harmless, .known hknown rfl fun hroot =>
      Or.inl (List.mem_append_right _ (hrootClause hroot))⟩
  | eliminated e queue type body conj cls hqueue harmless hbody htype hnew hroot hcls =>
    refine Or.inr ⟨e, queue, hqueue, rfl, harmless, .eliminated hnew hroot rfl
      ⟨type, body, conj, cls, hbody, htype, hcls, fun cl hcl => ?_⟩⟩
    by_cases hlength : cl.length = 1
    · obtain ⟨l, rfl⟩ := List.length_eq_one_iff.mp hlength
      refine Or.inr ⟨l, rfl, Or.inr ⟨⟨l, none, true⟩, List.mem_append_right _ ?_, rfl, rfl⟩⟩
      exact mem_clauseInfos.mpr ⟨[l], hcl, List.mem_singleton.mpr rfl, rfl, rfl⟩
    · exact Or.inl (Or.inl (List.mem_append_right _ (mem_clauseConstraints.mpr ⟨cl, hcl, hlength, rfl⟩)))
  | root e queue type body conj hqueue harmless hbody htype hnew hroot hcls =>
    have hsent : (.clause [e.lit] : Constraint W B) ∈ c.state.theory.constraints ++ GroundTheory.rootClause e :=
      List.mem_append_right _ (hrootClause hroot)
    refine Or.inr ⟨e, queue, hqueue, rfl, harmless, .added _ hbody hnew rfl (fun _ => Or.inl hsent)
      (fun X ν h => ?_) fun hrule => absurd hrule htype⟩
    obtain ⟨l, hl, hholds⟩ := h _ (Or.inl hsent)
    rw [List.mem_singleton.mp hl] at hholds
    exact relates_of_elimination_eq_none hcls hholds
  | added e queue tsbody cs q sets hqueue harmless hbody hnew hemission hdropped =>
    have hsent : ∀ {k}, k ∈ cs → k ∈ c.state.theory.constraints ++ (cs ++ GroundTheory.rootClause e) := fun hk =>
      List.mem_append_right _ (List.mem_append_left _ hk)
    refine Or.inr ⟨e, queue, hqueue, rfl, harmless, .added tsbody hbody hnew rfl (fun hroot => ?_) (fun X ν h => ?_)
      fun hrule defid r hr => ?_⟩
    · exact Or.inl (List.mem_append_right _ (List.mem_append_right _ (hrootClause hroot)))
    · exact hemission.relates hdropped X ν fun k hk => h k (Or.inl (hsent hk))
    · obtain ⟨defid', hdefid, k, hk, heq⟩ := hemission.rule_sent hrule defid r hr
      exact ⟨defid', hdefid, k, Or.inl (hsent hk), heq⟩
  | polAdd k parts hqueue hparts => exact Or.inl ⟨rfl, rfl, hqueue⟩
  | push vi defnr propagated parts hqueue hparts harmless => exact Or.inl ⟨rfl, rfl, hqueue⟩
  | sent setnr defnr weighted parts hqueue hparts hset => exact Or.inl ⟨rfl, rfl, hqueue⟩
  | set setnr defnr weighted parts hqueue hparts hset => exact Or.inl ⟨rfl, rfl, hqueue⟩

variable (translator additions) in
structure Config.Complete (c : Config W B) : Prop where
  clause : ∀ cl, .clause cl ∈ additions → c.Covers cl
  added : ∀ t ∈ c.state.theory.addedTseitins, ∃ tsbody, translator.getTsBody t = some tsbody ∧
    ∀ X ν, (∀ k, c.Comes k → k.means X translator ν) → tsbody.type.relates (ν t) (tsbody.value X translator ν)
  root : ∀ later e earlier, c.trace = later ++ e :: earlier → e.rootlevel = true →
    c.Comes (.clause [e.lit]) ∨ c.Eliminated translator later e.lit
  met : ∀ e ∈ c.trace, translator.getTsBody e.lit.atom = none ∨ e.lit.atom ∈ c.state.theory.addedTseitins ∨
    e.rootlevel = true
  single : ∀ e ∈ c.trace, e.rootlevel = true → ∀ tsbody, translator.getTsBody e.lit.atom = some tsbody →
    tsbody.type = .impl ∨ tsbody.type = .rimpl → e.lit.atom ∈ c.state.theory.addedTseitins →
      c.Comes (.clause [e.lit])

theorem Config.Complete.step (hdid : Did translator c c') (h : c.Complete translator additions) :
    c'.Complete translator additions := by
  have hadded : ∀ {t : ℕ}, (∃ tsbody, translator.getTsBody t = some tsbody ∧
      ∀ X ν, (∀ k, c.Comes k → k.means X translator ν) → tsbody.type.relates (ν t) (tsbody.value X translator ν)) →
      ∃ tsbody, translator.getTsBody t = some tsbody ∧
        ∀ X ν, (∀ k, c'.Comes k → k.means X translator ν) → tsbody.type.relates (ν t) (tsbody.value X translator ν) :=
    fun ⟨tsbody, hbody, hrelates⟩ => ⟨tsbody, hbody, fun X ν hν => hrelates X ν fun k hk => hν k (hk.step hdid)⟩
  have hsingleStep : ∀ {e : TseitinInfo}, e ∈ c.trace → e.rootlevel = true → ∀ {tsbody : TsBody W B},
      translator.getTsBody e.lit.atom = some tsbody → tsbody.type = .impl ∨ tsbody.type = .rimpl →
        e.lit.atom ∈ c.state.theory.addedTseitins → c'.Comes (.clause [e.lit]) := fun he hroot _ hbody htype hmem =>
    (h.single _ he hroot _ hbody htype hmem).step hdid
  rcases hdid.handled with ⟨htrace, hsame, hempty⟩ | ⟨e, queue, hqueue, htrace, harmless, hhandled⟩
  · refine ⟨fun cl hcl => (h.clause cl hcl).step hdid, fun t ht => hadded (h.added t (hsame ▸ ht)),
      fun later e earlier heq hroot => ?_, fun e he => ?_, fun e he hroot tsbody hbody htype hmem =>
        hsingleStep (htrace ▸ he) hroot hbody htype (hsame ▸ hmem)⟩
    · refine (h.root later e earlier (htrace.symm.trans heq) hroot).imp (·.step hdid) fun heliminated => ?_
      exact heliminated.step hdid (fun _ he => he) fun e he => absurd he (hempty ▸ List.not_mem_nil)
    · rw [hsame]
      exact h.met e (htrace ▸ he)
  · have hcases : ∀ {e' : TseitinInfo}, e' ∈ c'.trace → e' = e ∨ e' ∈ c.trace := fun he =>
      List.mem_cons.mp (htrace ▸ he)
    have hrootStep : (c'.Comes (.clause [e.lit]) ∨ c'.Eliminated translator [] e.lit ∨ e.rootlevel = false) →
        ∀ later e' earlier, c'.trace = later ++ e' :: earlier → e'.rootlevel = true →
          c'.Comes (.clause [e'.lit]) ∨ c'.Eliminated translator later e'.lit := fun hnew later e' earlier heq hroot => by
      rw [htrace] at heq
      cases later with
      | nil =>
        obtain ⟨rfl, rfl⟩ := List.cons.inj heq
        exact hnew.imp_right fun h => h.resolve_right (by rw [hroot]; exact nofun)
      | cons e₀ later =>
        obtain ⟨rfl, hrest⟩ := List.cons.inj heq
        refine (h.root later e' earlier hrest hroot).imp (·.step hdid) fun heliminated => ?_
        refine heliminated.step hdid (fun _ he => List.mem_cons_of_mem _ he) (hdid.queue fun e₁ queue₁ hqueue₁ => ?_)
        rw [hqueue] at hqueue₁
        obtain ⟨rfl, -⟩ := List.cons.inj hqueue₁
        exact List.mem_cons_self
    have hmetStep : ∀ {e' : TseitinInfo}, e' ∈ c.trace → translator.getTsBody e'.lit.atom = none ∨
        e'.lit.atom ∈ c'.state.theory.addedTseitins ∨ e'.rootlevel = true := fun {e'} he => by
      refine (h.met e' he).imp_right (Or.imp_left fun hmem => ?_)
      cases hhandled with
      | known _ hsame _ => exact hsame ▸ hmem
      | eliminated _ _ hsame _ => exact hsame ▸ hmem
      | added _ _ _ hsame _ _ _ => exact hsame ▸ List.mem_cons_of_mem _ hmem
    cases hhandled with
    | known hknown hsame hroot =>
      refine ⟨fun cl hcl => (h.clause cl hcl).step hdid, fun t ht => hadded (h.added t (hsame ▸ ht)),
        hrootStep ?_, fun e' he' => ?_, fun e' he' hroot' tsbody hbody htype hmem => ?_⟩
      · cases hlevel : e.rootlevel with
        | true => exact Or.inl (hroot hlevel)
        | false => exact Or.inr (Or.inr rfl)
      · rcases hcases he' with rfl | he'
        · exact hknown.imp id fun hmem => Or.inl (hsame ▸ hmem)
        · exact hmetStep he'
      · rcases hcases he' with rfl | he'
        · exact hroot hroot'
        · exact hsingleStep he' hroot' hbody htype (hsame ▸ hmem)
    | eliminated hnew hroot hsame heliminated =>
      refine ⟨fun cl hcl => (h.clause cl hcl).step hdid, fun t ht => hadded (h.added t (hsame ▸ ht)),
        hrootStep (Or.inr (Or.inl heliminated)), fun e' he' => ?_,
        fun e' he' hroot' tsbody hbody htype hmem => ?_⟩
      · rcases hcases he' with rfl | he'
        · exact Or.inr (Or.inr hroot)
        · exact hmetStep he'
      · rcases hcases he' with rfl | he'
        · exact absurd (hsame ▸ hmem) hnew
        · exact hsingleStep he' hroot' hbody htype (hsame ▸ hmem)
    | added tsbody hbody hnew hsame hroot hrelates hrule =>
      refine ⟨fun cl hcl => (h.clause cl hcl).step hdid, fun t ht => ?_,
        hrootStep ?_, fun e' he' => ?_, fun e' he' hroot' tsbody' hbody' htype hmem => ?_⟩
      · rcases List.mem_cons.mp (hsame ▸ ht) with rfl | ht
        · exact ⟨tsbody, hbody, hrelates⟩
        · exact hadded (h.added t ht)
      · cases hlevel : e.rootlevel with
        | true => exact Or.inl (hroot hlevel)
        | false => exact Or.inr (Or.inr rfl)
      · rcases hcases he' with rfl | he'
        · exact Or.inr (Or.inl (hsame ▸ List.mem_cons_self))
        · exact hmetStep he'
      · rcases hcases he' with rfl | he'
        · exact hroot hroot'
        · rcases List.mem_cons.mp (hsame ▸ hmem) with hatom | hmem
          · rw [hatom] at hbody'
            obtain ⟨hrootlevel, hlit⟩ := harmless.again tsbody' hbody' hnew htype e' he' hroot' hatom
            rw [← hlit]
            exact hroot hrootlevel
          · exact hsingleStep he' hroot' hbody' htype hmem

end Complete

end Grounding
