import DeclarativeLocalSearch.Grounding.TseitinMeaning

namespace Grounding

variable {W B : Type}

namespace GroundTheory

-- what an addition appends while the queue is handled
def emit (cs : List (Constraint W B)) (q : List TseitinInfo) (sets : List ℕ) (g : GroundTheory W B) : GroundTheory W B :=
  ⟨g.constraints ++ cs, g.tseitinqueue ++ q, g.addedTseitins, sets ++ g.addedSets⟩

theorem emit_emit (cs cs' : List (Constraint W B)) (q q' : List TseitinInfo) (sets sets' : List ℕ)
    (g : GroundTheory W B) :
    (g.emit cs q sets).emit cs' q' sets' = g.emit (cs ++ cs') (q ++ q') (sets' ++ sets) := by
  simp [emit]

theorem emit_nil (g : GroundTheory W B) : g.emit [] [] [] = g := by
  simp [emit]

theorem polAdd_eq (c : Constraint W B) (g : GroundTheory W B) : g.polAdd c = g.emit [c] [] [] := by
  simp [emit, polAdd]

theorem push_eq (vi : List Lit) (defnr : Option ℕ) (propagated : Bool) (g : GroundTheory W B) :
    g.push vi defnr false propagated = g.emit [] (vi.map (⟨·, defnr, propagated⟩)) [] := by
  simp [emit, push]

theorem addClause_eq (cl : List Lit) (g : GroundTheory W B) :
    g.addClause cl false =
      g.emit (if cl.length = 1 then [] else [.clause cl]) (cl.map (⟨·, none, decide (cl.length = 1)⟩)) [] := by
  unfold addClause
  split_ifs with h
  · simp [h, push_eq]
  · simp [h, push_eq, polAdd_eq, emit_emit]

theorem addClause_skip (l : Lit) (rest : List Lit) (g : GroundTheory W B) (h : rest ≠ []) :
    g.addClause (l :: rest) true = g.emit [.clause (l :: rest)] (rest.map (⟨·, none, false⟩)) [] := by
  simp [addClause, h, push, polAdd, emit]

theorem addClause_skip_nil (l : Lit) (g : GroundTheory W B) : g.addClause [l] true = g := by
  simp [addClause, push]

def clauseConstraints (cls : List (List Lit)) : List (Constraint W B) :=
  cls.flatMap fun cl => if cl.length = 1 then [] else [.clause cl]

def clauseInfos (cls : List (List Lit)) : List TseitinInfo :=
  cls.flatMap fun cl => cl.map (⟨·, none, decide (cl.length = 1)⟩)

theorem addClauses_eq (cls : List (List Lit)) (g : GroundTheory W B) :
    cls.foldl (fun g cl => addClause cl false g) g = g.emit (clauseConstraints cls) (clauseInfos cls) [] := by
  induction cls generalizing g with
  | nil => exact (emit_nil g).symm
  | cons cl cls ih =>
    rw [List.foldl_cons, ih, addClause_eq, emit_emit]
    rfl

theorem addPairs_eq (l : Lit) (f : Lit → Lit) (body : List Lit) (g : GroundTheory W B) :
    body.foldl (fun g lit => addClause [l, f lit] true g) g =
      g.emit (body.map fun lit => .clause [l, f lit]) (body.map fun lit => ⟨f lit, none, false⟩) [] := by
  induction body generalizing g with
  | nil => exact (emit_nil g).symm
  | cons lit body ih =>
    rw [List.foldl_cons, ih, addClause_skip _ _ _ (List.cons_ne_nil _ _), emit_emit]
    rfl

variable (translator : GroundTranslator W B)

theorem addSet_eq (setnr : ℕ) (defnr : Option ℕ) (weighted : Bool) (g : GroundTheory W B) :
    g.addSet translator setnr defnr weighted = if setnr ∈ g.addedSets then g
      else g.emit [.set setnr (translator.groundset setnr) weighted]
        ((translator.groundset setnr).literals.map (⟨·, defnr, false⟩)) [setnr] := by
  unfold addSet
  split_ifs
  · rfl
  · simp [push, polAdd, emit]

-- the clauses of an implication that has the literal first; the one that has nothing else is left out
def impliedClauses (first : Lit) (body : List Lit) (conj : Bool) : List (List Lit) :=
  if conj then body.map ([first, ·]) else if body = [] then [] else [first :: body]

theorem addPC_impl (head : ℕ) (body : List Lit) (conj : Bool) (defnr : Option ℕ) (g : GroundTheory W B) :
    addPC head .impl body conj defnr g =
      some (g.emit ((impliedClauses ⟨false, head⟩ body conj).map .clause) (body.map (⟨·, none, false⟩)) []) := by
  unfold addPC impliedClauses
  cases conj with
  | true =>
    have hpairs := addPairs_eq (W := W) (B := B) ⟨false, head⟩ id body g
    dsimp only [id] at hpairs ⊢
    rw [if_pos rfl, if_pos rfl, hpairs, List.map_map]
    rfl
  | false =>
    dsimp only
    rw [if_neg Bool.false_ne_true, if_neg Bool.false_ne_true]
    by_cases h : body = []
    · subst h
      rw [addClause_skip_nil, if_pos rfl]
      exact congrArg some (emit_nil g).symm
    · rw [addClause_skip _ _ _ h, if_neg h]
      rfl

theorem addPC_rimpl (head : ℕ) (body : List Lit) (conj : Bool) (defnr : Option ℕ) (g : GroundTheory W B) :
    addPC head .rimpl body conj defnr g =
      some (g.emit ((impliedClauses ⟨true, head⟩ (body.map (- ·)) (! conj)).map .clause)
        (body.map fun lit => ⟨-lit, none, false⟩) []) := by
  unfold addPC impliedClauses
  cases conj with
  | true =>
    dsimp only
    rw [if_pos rfl, Bool.not_true, if_neg Bool.false_ne_true]
    by_cases h : body = []
    · subst h
      rw [List.map_nil, if_pos rfl, addClause_skip_nil]
      exact congrArg some (emit_nil g).symm
    · have hmap : body.map (- ·) ≠ [] := by simpa using h
      rw [addClause_skip _ _ _ hmap, if_neg hmap, List.map_map]
      rfl
  | false =>
    dsimp only
    rw [if_neg Bool.false_ne_true, Bool.not_false, if_pos rfl, addPairs_eq (W := W) (B := B) ⟨true, head⟩ (- ·),
      List.map_map, List.map_map]
    rfl

section Implied

variable {ν : ℕ → Prop} {first : Lit} {body : List Lit} {conj : Bool}

theorem impliedClauses_hold (h : ¬ first.holds ν → bodyHolds ν body conj) :
    ∀ cl ∈ impliedClauses first body conj, clauseHolds ν cl := by
  intro cl hcl
  unfold impliedClauses at hcl
  by_cases hfirst : first.holds ν
  · have hmem : first ∈ cl := by
      split_ifs at hcl
      · obtain ⟨lit, -, rfl⟩ := List.mem_map.mp hcl
        exact List.mem_cons_self
      · exact absurd hcl List.not_mem_nil
      · rw [List.mem_singleton.mp hcl]
        exact List.mem_cons_self
    exact ⟨first, hmem, hfirst⟩
  · have hbody := h hfirst
    cases conj with
    | true =>
      obtain ⟨lit, hlit, rfl⟩ := List.mem_map.mp hcl
      exact ⟨lit, by simp, hbody lit hlit⟩
    | false =>
      obtain ⟨lit, hlit, hholds⟩ := hbody
      rw [if_neg Bool.false_ne_true, if_neg (List.ne_nil_of_mem hlit)] at hcl
      rw [List.mem_singleton.mp hcl]
      exact ⟨lit, List.mem_cons_of_mem _ hlit, hholds⟩

theorem bodyHolds_of_impliedClauses (hbody : conj = false → body ≠ [])
    (h : ∀ cl ∈ impliedClauses first body conj, clauseHolds ν cl) (hfirst : ¬ first.holds ν) :
    bodyHolds ν body conj := by
  unfold impliedClauses at h
  cases conj with
  | true =>
    intro lit hlit
    obtain ⟨l, hl, hholds⟩ := h _ (List.mem_map_of_mem hlit)
    rcases List.mem_cons.mp hl with rfl | hl
    · exact absurd hholds hfirst
    · rwa [List.mem_singleton.mp hl] at hholds
  | false =>
    rw [if_neg Bool.false_ne_true, if_neg (hbody rfl), List.forall_mem_singleton] at h
    obtain ⟨l, hl, hholds⟩ := h
    rcases List.mem_cons.mp hl with rfl | hl
    · exact absurd hholds hfirst
    · exact ⟨l, hl, hholds⟩

theorem impliedClauses_atoms : ∀ cl ∈ impliedClauses first body conj, ∀ l ∈ cl, l = first ∨ l ∈ body := by
  intro cl hcl l hl
  unfold impliedClauses at hcl
  split_ifs at hcl
  · obtain ⟨lit, hlit, rfl⟩ := List.mem_map.mp hcl
    rcases List.mem_cons.mp hl with rfl | hl
    · exact Or.inl rfl
    · exact Or.inr (List.mem_singleton.mp hl ▸ hlit)
  · exact absurd hcl List.not_mem_nil
  · rw [List.mem_singleton.mp hcl] at hl
    exact List.mem_cons.mp hl

end Implied

end GroundTheory

-- the atoms of a constraint; those of the set of an aggregate come with the set
def Constraint.atoms : Constraint W B → List ℕ
  | .clause cl => cl.map Lit.atom
  | .equivalence head body _ => head :: body.map Lit.atom
  | .rule _ head body _ => head :: body.map Lit.atom
  | .set _ tsset _ => tsset.literals.map Lit.atom
  | .aggregate head _ => [head]
  | .aggRule _ head _ => [head]
  | .other head _ _ => [head]

def Constraint.setnr : Constraint W B → Option ℕ
  | .aggregate _ body => some body.setnr
  | .aggRule _ _ body => some body.setnr
  | _ => none

section Meaning

variable (X : Semantics W B) (translator : GroundTranslator W B)

-- what a constraint says when the solver has its set
def Constraint.means (ν : ℕ → Prop) : Constraint W B → Prop
  | .clause cl => clauseHolds ν cl
  | .equivalence head body conj => ν head ↔ bodyHolds ν body conj
  | .aggregate head body => body.type.relates (ν head) (body.holds X (translator.groundset body.setnr) ν)
  | .other head type form => type.relates (ν head) (X.other form)
  | _ => True

def Constraint.groundRule : Constraint W B → Option (GroundRule W)
  | .rule defid head body conj => some (.pc defid head body conj)
  | .aggRule defid head body => some (body.groundRule defid head (translator.groundset body.setnr))
  | _ => none

end Meaning

-- the implication whose clause is left out
def TsBody.Dropped : TsBody W B → Prop
  | .pc type body conj => body = [] ∧ (type = .impl ∧ conj = false ∨ type = .rimpl ∧ conj = true)
  | _ => False

-- what is sent and put in the queue for a Tseitin that is added
structure Emission (translator : GroundTranslator W B) (elem : TseitinInfo) (tsbody : TsBody W B) (addedSets : List ℕ)
    (cs : List (Constraint W B)) (q : List TseitinInfo) (sets : List ℕ) : Prop where
  nonroot : ∀ e ∈ q, e.rootlevel = false
  covered : ∀ c ∈ cs, ∀ a ∈ c.atoms, a = elem.lit.atom ∨ ∃ e ∈ q, e.lit.atom = a
  means : ∀ X ν, tsbody.type.relates (ν elem.lit.atom) (tsbody.value X translator ν) →
    (tsbody.type = .rule → (∃ r, tsbody.groundRule translator 0 elem.lit.atom = some r) →
      tsbody.value X translator ν → ν elem.lit.atom) → ∀ c ∈ cs, c.means X translator ν
  relates : ¬ tsbody.Dropped → ∀ X ν, (∀ c ∈ cs, c.means X translator ν) →
    tsbody.type.relates (ν elem.lit.atom) (tsbody.value X translator ν)
  set_sent : ∀ n ∈ sets, ∃ weighted, .set n (translator.groundset n) weighted ∈ cs
  set_mem : ∀ n tsset weighted, .set n tsset weighted ∈ cs → tsset = translator.groundset n
  setnr_mem : ∀ c ∈ cs, ∀ n, c.setnr = some n → n ∈ sets ∨ n ∈ addedSets
  rule : ∀ c ∈ cs, ∀ r, c.groundRule translator = some r → tsbody.type = .rule ∧
    ∃ defid, elem.defid = some defid ∧ tsbody.groundRule translator defid elem.lit.atom = some r
  rule_sent : tsbody.type = .rule → ∀ defid r, tsbody.groundRule translator defid elem.lit.atom = some r →
    ∃ defid', elem.defid = some defid' ∧ ∃ c ∈ cs, c.groundRule translator =
      tsbody.groundRule translator defid' elem.lit.atom

section Emissions

variable {translator : GroundTranslator W B} {elem : TseitinInfo} {tsbody : TsBody W B} {g g' : GroundTheory W B}
  {body : List Lit} {conj : Bool} {addedSets : List ℕ}

theorem emission_clauses {cls : List (List Lit)} {q : List TseitinInfo} (hnonroot : ∀ e ∈ q, e.rootlevel = false)
    (hcovered : ∀ cl ∈ cls, ∀ l ∈ cl, l.atom = elem.lit.atom ∨ ∃ e ∈ q, e.lit.atom = l.atom)
    (hmeans : ∀ X ν, tsbody.type.relates (ν elem.lit.atom) (tsbody.value X translator ν) →
      ∀ cl ∈ cls, clauseHolds ν cl)
    (hrelates : ¬ tsbody.Dropped → ∀ X ν, (∀ cl ∈ cls, clauseHolds ν cl) →
      tsbody.type.relates (ν elem.lit.atom) (tsbody.value X translator ν)) (hrule : tsbody.type ≠ .rule) :
    Emission translator elem tsbody addedSets (cls.map .clause) q [] where
  nonroot := hnonroot
  covered c hc a ha := by
    obtain ⟨cl, hcl, rfl⟩ := List.mem_map.mp hc
    obtain ⟨l, hl, rfl⟩ := List.mem_map.mp ha
    exact hcovered cl hcl l hl
  means X ν h _ c hc := by
    obtain ⟨cl, hcl, rfl⟩ := List.mem_map.mp hc
    exact hmeans X ν h cl hcl
  relates hdropped X ν h := hrelates hdropped X ν fun cl hcl => h _ (List.mem_map_of_mem hcl)
  set_sent n hn := absurd hn List.not_mem_nil
  set_mem n tsset weighted h := by
    obtain ⟨cl, -, hcl⟩ := List.mem_map.mp h
    cases hcl
  setnr_mem c hc n hn := by
    obtain ⟨cl, -, rfl⟩ := List.mem_map.mp hc
    cases hn
  rule c hc r hr := by
    obtain ⟨cl, -, rfl⟩ := List.mem_map.mp hc
    cases hr
  rule_sent h := absurd h hrule

theorem emission_impl : Emission translator elem (.pc .impl body conj) addedSets
    ((GroundTheory.impliedClauses ⟨false, elem.lit.atom⟩ body conj).map .clause) (body.map (⟨·, none, false⟩)) [] := by
  refine emission_clauses (by simp) ?_ ?_ ?_ nofun
  · intro cl hcl l hl
    rcases GroundTheory.impliedClauses_atoms cl hcl l hl with rfl | hl
    · exact Or.inl rfl
    · exact Or.inr ⟨_, List.mem_map_of_mem hl, rfl⟩
  · exact fun X ν h => GroundTheory.impliedClauses_hold fun hhead => h (by simpa using hhead)
  · intro hdropped X ν h hhead
    refine GroundTheory.bodyHolds_of_impliedClauses (fun hconj hbody => ?_) h (by simpa using hhead)
    exact hdropped ⟨hbody, Or.inl ⟨rfl, hconj⟩⟩

theorem rimplClauses_hold {ν : ℕ → Prop} {head : ℕ} (h : bodyHolds ν body conj → ν head) :
    ∀ cl ∈ GroundTheory.impliedClauses ⟨true, head⟩ (body.map (- ·)) (! conj), clauseHolds ν cl :=
  GroundTheory.impliedClauses_hold fun hhead => bodyHolds_neg.mpr fun hbody => hhead (Lit.holds_pos.mpr (h hbody))

theorem rimplClauses_covered {head : ℕ} :
    ∀ cl ∈ GroundTheory.impliedClauses ⟨true, head⟩ (body.map (- ·)) (! conj), ∀ l ∈ cl, l.atom = head ∨
      ∃ e ∈ body.map fun lit => (⟨-lit, none, false⟩ : TseitinInfo), e.lit.atom = l.atom := by
  intro cl hcl l hl
  rcases GroundTheory.impliedClauses_atoms cl hcl l hl with rfl | hl
  · exact Or.inl rfl
  · obtain ⟨lit, hlit, rfl⟩ := List.mem_map.mp hl
    exact Or.inr ⟨_, List.mem_map_of_mem hlit, rfl⟩

theorem emission_rimpl : Emission translator elem (.pc .rimpl body conj) addedSets
    ((GroundTheory.impliedClauses ⟨true, elem.lit.atom⟩ (body.map (- ·)) (! conj)).map .clause)
    (body.map fun lit => ⟨-lit, none, false⟩) [] := by
  refine emission_clauses (by simp) rimplClauses_covered ?_ ?_ nofun
  · exact fun X ν h => rimplClauses_hold h
  · intro hdropped X ν h hbody
    by_contra hhead
    refine bodyHolds_neg.mp (GroundTheory.bodyHolds_of_impliedClauses (fun hconj hnil => ?_) h
      (by simpa using hhead)) hbody
    exact hdropped ⟨List.map_eq_nil_iff.mp hnil, Or.inr ⟨rfl, by simpa using hconj⟩⟩

theorem emission_eq : Emission translator elem (.pc .eq body conj) addedSets
    [.equivalence elem.lit.atom body conj] (body.map (⟨·, none, false⟩)) [] where
  nonroot := by simp
  covered c hc a ha := by
    rw [List.mem_singleton.mp hc] at ha
    rcases List.mem_cons.mp ha with rfl | ha
    · exact Or.inl rfl
    · obtain ⟨l, hl, rfl⟩ := List.mem_map.mp ha
      exact Or.inr ⟨_, List.mem_map_of_mem hl, rfl⟩
  means X ν h _ c hc := by
    rw [List.mem_singleton.mp hc]
    exact h
  relates _ X ν h := h _ (List.mem_singleton.mpr rfl)
  set_sent n hn := absurd hn List.not_mem_nil
  set_mem n tsset weighted h := by simp at h
  setnr_mem c hc n hn := by
    rw [List.mem_singleton.mp hc] at hn
    cases hn
  rule c hc r hr := by
    rw [List.mem_singleton.mp hc] at hr
    cases hr
  rule_sent h := absurd h nofun

theorem emission_rule {defid : ℕ} (hdefid : elem.defid = some defid) {cls : List (List Lit)} {q : List TseitinInfo}
    (hnonroot : ∀ e ∈ q, e.rootlevel = false)
    (hcovered : ∀ cl ∈ cls, ∀ l ∈ cl, l.atom = elem.lit.atom ∨ ∃ e ∈ q, e.lit.atom = l.atom)
    (hmeans : ∀ ν : ℕ → Prop, (bodyHolds ν body conj → ν elem.lit.atom) → ∀ cl ∈ cls, clauseHolds ν cl) :
    Emission translator elem (.pc .rule body conj) addedSets
      (.rule defid elem.lit.atom body conj :: cls.map .clause)
      ((⟨⟨true, elem.lit.atom⟩, some defid, false⟩ :: body.map (⟨·, some defid, false⟩)) ++ q) [] where
  nonroot e he := by
    rcases List.mem_append.mp he with he | he
    · rcases List.mem_cons.mp he with rfl | he
      · rfl
      · obtain ⟨l, -, rfl⟩ := List.mem_map.mp he
        rfl
    · exact hnonroot e he
  covered c hc a ha := by
    rcases List.mem_cons.mp hc with rfl | hc
    · rcases List.mem_cons.mp ha with rfl | ha
      · exact Or.inl rfl
      · obtain ⟨l, hl, rfl⟩ := List.mem_map.mp ha
        exact Or.inr ⟨_, List.mem_append_left _ (List.mem_cons_of_mem _ (List.mem_map_of_mem hl)), rfl⟩
    · obtain ⟨cl, hcl, rfl⟩ := List.mem_map.mp hc
      obtain ⟨l, hl, rfl⟩ := List.mem_map.mp ha
      exact (hcovered cl hcl l hl).imp_right fun ⟨e, he, hatom⟩ => ⟨e, List.mem_append_right _ he, hatom⟩
  means X ν _ h c hc := by
    rcases List.mem_cons.mp hc with rfl | hc
    · trivial
    · obtain ⟨cl, hcl, rfl⟩ := List.mem_map.mp hc
      exact hmeans ν (h rfl ⟨_, rfl⟩) cl hcl
  relates _ X ν _ := trivial
  set_sent n hn := absurd hn List.not_mem_nil
  set_mem n tsset weighted h := by
    rcases List.mem_cons.mp h with h | h
    · cases h
    · obtain ⟨cl, -, hcl⟩ := List.mem_map.mp h
      cases hcl
  setnr_mem c hc n hn := by
    rcases List.mem_cons.mp hc with rfl | hc
    · cases hn
    · obtain ⟨cl, -, rfl⟩ := List.mem_map.mp hc
      cases hn
  rule c hc r hr := by
    rcases List.mem_cons.mp hc with rfl | hc
    · exact ⟨rfl, defid, hdefid, hr⟩
    · obtain ⟨cl, -, rfl⟩ := List.mem_map.mp hc
      cases hr
  rule_sent _ _ _ _ := ⟨defid, hdefid, _, List.mem_cons_self, rfl⟩

variable (translator) in
theorem addSet_emits (setnr : ℕ) (defnr : Option ℕ) (weighted : Bool) (g : GroundTheory W B) :
    ∃ cs q sets, g.addSet translator setnr defnr weighted = g.emit cs q sets ∧
      (setnr ∈ sets ∨ setnr ∈ g.addedSets) ∧ (∀ e ∈ q, e.rootlevel = false) ∧
      (∀ c ∈ cs, c = .set setnr (translator.groundset setnr) weighted ∧
        ∀ a ∈ c.atoms, ∃ e ∈ q, e.lit.atom = a) ∧
      ∀ n ∈ sets, .set n (translator.groundset n) weighted ∈ cs := by
  rw [GroundTheory.addSet_eq]
  split_ifs with h
  · exact ⟨[], [], [], (GroundTheory.emit_nil g).symm, Or.inr h, nofun, nofun, nofun⟩
  · refine ⟨_, _, _, rfl, Or.inl (List.mem_singleton.mpr rfl), by simp, ?_, ?_⟩
    · intro c hc
      obtain rfl := List.mem_singleton.mp hc
      refine ⟨rfl, fun a ha => ?_⟩
      obtain ⟨l, hl, rfl⟩ := List.mem_map.mp ha
      exact ⟨_, List.mem_map_of_mem hl, rfl⟩
    · intro n hn
      rw [List.mem_singleton.mp hn]
      exact List.mem_singleton.mpr rfl

theorem emission_agg {aggregate : AggTsBody W} {cs rest : List (Constraint W B)} {q : List TseitinInfo} {sets : List ℕ}
    {weighted : Bool} (hset : aggregate.setnr ∈ sets ∨ aggregate.setnr ∈ addedSets)
    (hnonroot : ∀ e ∈ q, e.rootlevel = false)
    (hcs : ∀ c ∈ cs, c = .set aggregate.setnr (translator.groundset aggregate.setnr) weighted ∧
      ∀ a ∈ c.atoms, ∃ e ∈ q, e.lit.atom = a)
    (hsets : ∀ n ∈ sets, .set n (translator.groundset n) weighted ∈ cs)
    (hrest : ∀ c ∈ rest, c.atoms = [elem.lit.atom] ∧ c.setnr = some aggregate.setnr ∧
      (∀ X ν, aggregate.type.relates (ν elem.lit.atom) (TsBody.value X translator ν (.agg aggregate : TsBody W B)) →
        (aggregate.type = .rule → TsBody.value X translator ν (.agg aggregate : TsBody W B) → ν elem.lit.atom) →
        c.means X translator ν) ∧
      ∀ r, c.groundRule translator = some r → aggregate.type = .rule ∧ ∃ defid, elem.defid = some defid ∧
        (.agg aggregate : TsBody W B).groundRule translator defid elem.lit.atom = some r)
    (hrelates : ∀ X ν, (∀ c ∈ rest, c.means X translator ν) →
      aggregate.type.relates (ν elem.lit.atom) (TsBody.value X translator ν (.agg aggregate : TsBody W B)))
    (hsent : aggregate.type = .rule → ∃ defid, elem.defid = some defid ∧ .aggRule defid elem.lit.atom aggregate ∈ rest) :
    Emission translator elem (.agg aggregate) addedSets (cs ++ rest) q sets where
  nonroot := hnonroot
  covered c hc a ha := by
    rcases List.mem_append.mp hc with hc | hc
    · exact Or.inr ((hcs c hc).2 a ha)
    · rw [(hrest c hc).1] at ha
      exact Or.inl (List.mem_singleton.mp ha)
  means X ν h hrule c hc := by
    rcases List.mem_append.mp hc with hc | hc
    · rw [(hcs c hc).1]
      trivial
    · exact (hrest c hc).2.2.1 X ν h fun htype => hrule htype ⟨_, rfl⟩
  relates _ X ν h := hrelates X ν fun c hc => h c (List.mem_append_right _ hc)
  set_sent n hn := ⟨weighted, List.mem_append_left _ (hsets n hn)⟩
  set_mem n tsset w h := by
    rcases List.mem_append.mp h with h | h
    · obtain ⟨rfl, rfl, -⟩ := Constraint.set.inj (hcs _ h).1
      rfl
    · cases (hrest _ h).2.1
  setnr_mem c hc n hn := by
    rcases List.mem_append.mp hc with hc | hc
    · rw [(hcs c hc).1] at hn
      cases hn
    · rw [(hrest c hc).2.1] at hn
      cases hn
      exact hset
  rule c hc r hr := by
    rcases List.mem_append.mp hc with hc | hc
    · rw [(hcs c hc).1] at hr
      cases hr
    · exact (hrest c hc).2.2.2 r hr
  rule_sent h _ _ _ := by
    obtain ⟨defid, hdefid, hmem⟩ := hsent h
    exact ⟨defid, hdefid, _, List.mem_append_right _ hmem, rfl⟩

variable {nbModelsEquivalent : Bool}

theorem addBody_emits (h : g.addBody translator nbModelsEquivalent elem.lit.atom elem.defid tsbody = some g') :
    ∃ cs q sets, g' = g.emit cs q sets ∧ Emission translator elem tsbody g.addedSets cs q sets := by
  cases tsbody with
  | pc type body conj =>
    simp only [GroundTheory.addBody, Option.bind_eq_bind, Option.bind_eq_some_iff] at h
    obtain ⟨g₁, h₁, h⟩ := h
    cases type with
    | eq =>
      obtain rfl := Option.some.inj h₁
      obtain rfl := Option.some.inj h
      exact ⟨_, _, _, by rw [GroundTheory.push_eq, GroundTheory.polAdd_eq, GroundTheory.emit_emit]; rfl, emission_eq⟩
    | impl =>
      rw [GroundTheory.addPC_impl] at h₁
      obtain rfl := Option.some.inj h₁
      obtain rfl := Option.some.inj h
      exact ⟨_, _, _, rfl, emission_impl⟩
    | rimpl =>
      rw [GroundTheory.addPC_rimpl] at h₁
      obtain rfl := Option.some.inj h₁
      obtain rfl := Option.some.inj h
      exact ⟨_, _, _, rfl, emission_rimpl⟩
    | rule =>
      obtain ⟨defid, hdefid, rfl⟩ := Option.map_eq_some_iff.mp h₁
      rw [GroundTheory.addRule, GroundTheory.push_eq, GroundTheory.push_eq, GroundTheory.polAdd_eq,
        GroundTheory.emit_emit, GroundTheory.emit_emit] at h
      cases nbModelsEquivalent with
      | false =>
        obtain rfl := Option.some.inj h
        refine ⟨_, _, _, rfl, ?_⟩
        simpa using @emission_rule _ _ translator elem _ _ _ _ hdefid [] [] nofun nofun fun _ _ => nofun
      | true =>
        simp only [decide_true, Bool.and_true, if_true, GroundTheory.addPC_rimpl, GroundTheory.emit_emit] at h
        obtain rfl := Option.some.inj h
        refine ⟨_, _, _, rfl, ?_⟩
        simpa using emission_rule hdefid (by simp) rimplClauses_covered fun ν => rimplClauses_hold
  | agg aggregate =>
    by_cases htype : aggregate.type = .rule
    · simp only [GroundTheory.addBody, htype, if_true, Option.bind_eq_bind, Option.bind_eq_some_iff] at h
      obtain ⟨defid, hdefid, h⟩ := h
      obtain ⟨cs, q, sets, hemit, hset, hnonroot, hcs, hsets⟩ :=
        addSet_emits translator aggregate.setnr (some defid) (aggregate.aggtype ≠ .card) g
      rw [hemit, GroundTheory.polAdd_eq, GroundTheory.emit_emit] at h
      have hrule : ∀ {rest : List (Constraint W B)}, (∀ c ∈ rest, c = .aggregate elem.lit.atom
          { aggregate with type := .rimpl }) → Emission translator elem (.agg aggregate) g.addedSets
            (cs ++ .aggRule defid elem.lit.atom aggregate :: rest) q sets := by
        intro rest hrest
        refine emission_agg hset hnonroot hcs hsets ?_ (fun X ν _ => ?_)
          fun _ => ⟨defid, hdefid, List.mem_cons_self⟩
        · intro c hc
          rcases List.mem_cons.mp hc with rfl | hc
          · exact ⟨rfl, rfl, fun _ _ _ _ => trivial, fun r hr => ⟨htype, defid, hdefid, hr⟩⟩
          · rw [hrest c hc]
            exact ⟨rfl, rfl, fun X ν _ h => h htype, nofun⟩
        · rw [htype]
          trivial
      cases nbModelsEquivalent with
      | false =>
        obtain rfl := Option.some.inj h
        refine ⟨_, _, _, rfl, ?_⟩
        simpa using @hrule [] nofun
      | true =>
        rw [if_pos rfl, GroundTheory.addAgg, GroundTheory.addSet_eq, if_pos (by simpa [GroundTheory.emit] using hset),
          GroundTheory.polAdd_eq, GroundTheory.emit_emit] at h
        obtain rfl := Option.some.inj h
        refine ⟨_, _, _, rfl, ?_⟩
        simpa using @hrule [_] fun c hc => List.mem_singleton.mp hc
    · simp only [GroundTheory.addBody, htype, if_false] at h
      obtain rfl := Option.some.inj h
      obtain ⟨cs, q, sets, hemit, hset, hnonroot, hcs, hsets⟩ :=
        addSet_emits translator aggregate.setnr none (aggregate.aggtype ≠ .card) g
      rw [GroundTheory.addAgg, hemit, GroundTheory.polAdd_eq, GroundTheory.emit_emit]
      refine ⟨_, _, _, rfl, ?_⟩
      rw [List.append_nil, List.nil_append]
      refine emission_agg hset hnonroot hcs hsets ?_ ?_ fun hrule => absurd hrule htype
      · intro c hc
        obtain rfl := List.mem_singleton.mp hc
        exact ⟨rfl, rfl, fun X ν h _ => h, nofun⟩
      · exact fun X ν h => h _ (List.mem_singleton.mpr rfl)
  | other type form =>
    obtain rfl := Option.some.inj h
    refine ⟨_, _, _, GroundTheory.polAdd_eq _ _, ?_⟩
    refine ⟨nofun, ?_, ?_, ?_, nofun, ?_, ?_, ?_, nofun⟩
    · intro c hc a ha
      rw [List.mem_singleton.mp hc] at ha
      exact Or.inl (List.mem_singleton.mp ha)
    · intro X ν h _ c hc
      rw [List.mem_singleton.mp hc]
      exact h
    · exact fun _ X ν h => h _ (List.mem_singleton.mpr rfl)
    · intro n tsset weighted hc
      cases List.mem_singleton.mp hc
    · intro c hc n hn
      rw [List.mem_singleton.mp hc] at hn
      cases hn
    · intro c hc r hr
      rw [List.mem_singleton.mp hc] at hr
      cases hr

end Emissions

end Grounding
