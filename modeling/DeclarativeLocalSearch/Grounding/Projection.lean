import DeclarativeLocalSearch.Foundation.LocalDefinition
import DeclarativeLocalSearch.Grounding.GroundRules

namespace Grounding

open Relation

variable {W B : Type} {translator : GroundTranslator W B} {nbModelsEquivalent : Bool} {c c' : Config W B}
  {additions : List (Addition W)}

def Config.start (additions : List (Addition W)) : Config W B := ⟨[], Adding.start additions⟩

variable (translator additions) in
structure Config.Invariant (c : Config W B) : Prop where
  founded : ∀ k, c.Comes k → c.Founded translator k
  setsSent : c.SetsSent translator
  sound : c.Sound translator additions
  complete : c.Complete translator additions
  rules : c.RulesGiven translator additions
  rooted : c.Rooted translator

theorem Config.Invariant.step (h : c.Invariant translator additions) (hdid : Did translator c c') :
    c'.Invariant translator additions where
  founded k hk := (hdid.founded hk).elim (fun hk => (h.founded k hk).step hdid) id
  setsSent := h.setsSent.step hdid
  sound := h.sound.step hdid
  complete := h.complete.step hdid
  rules := h.rules.step hdid
  rooted := h.rooted.step hdid

section Start

theorem start_comes {k : Constraint W B} (h : (Config.start additions : Config W B).Comes k) :
    (∃ cl, .clause cl ∈ additions ∧ cl.length ≠ 1 ∧ k = .clause cl) ∨
    (∃ defid head body conj, .rule defid head body conj ∈ additions ∧ k = .rule defid head body conj) ∨
    ∃ defid head body, .aggRule defid head body ∈ additions ∧ k = .aggRule defid head body := by
  obtain ⟨a, ha, hk⟩ := List.mem_flatMap.mp (h.resolve_left List.not_mem_nil)
  cases a with
  | clause cl =>
    left
    by_cases hlength : cl.length = 1
    · simp [Addition.parts, hlength] at hk
    · simp only [Addition.parts, hlength, decide_false, Bool.false_eq_true, if_false, List.cons_append, List.nil_append,
        List.mem_cons, Part.polAdd.injEq, reduceCtorEq, List.not_mem_nil, or_false] at hk
      exact ⟨cl, ha, hlength, hk⟩
  | rule defid head body conj =>
    simp only [Addition.parts, List.mem_cons, reduceCtorEq, Part.polAdd.injEq, List.not_mem_nil, or_false, false_or] at hk
    exact Or.inr (Or.inl ⟨defid, head, body, conj, ha, hk⟩)
  | aggRule defid head body =>
    simp only [Addition.parts, List.mem_cons, reduceCtorEq, Part.polAdd.injEq, List.not_mem_nil, or_false, false_or] at hk
    exact Or.inr (Or.inr ⟨defid, head, body, ha, hk⟩)
  | set setnr defnr weighted => simp [Addition.parts] at hk
  | tseitins vi defnr => simp [Addition.parts] at hk

theorem start_part {a : Addition W} (ha : a ∈ additions) {part : Part W B} (hpart : part ∈ a.parts) :
    part ∈ (Config.start additions : Config W B).state.parts :=
  List.mem_flatMap.mpr ⟨a, ha, hpart⟩

theorem start_founded {k : Constraint W B} (h : (Config.start additions : Config W B).Comes k) :
    (Config.start additions : Config W B).Founded translator k := by
  have hreached : ∀ {a : Addition W} (vi : List Lit) (defnr), a ∈ additions → .push vi defnr false ∈ a.parts (B := B) →
      ∀ l ∈ vi, (Config.start additions : Config W B).Reached translator l.atom := fun vi defnr ha hpart l hl =>
    Or.inr (Or.inr (Or.inr ⟨vi, defnr, start_part ha hpart, l, hl, rfl⟩))
  rcases start_comes h with ⟨cl, hcl, hlength, rfl⟩ | ⟨defid, head, body, conj, hmem, rfl⟩ | ⟨defid, head, body, hmem, rfl⟩
  · exact .clause (hreached cl none hcl (by simp [Addition.parts, hlength]))
  · refine ⟨fun a ha => ?_, nofun, nofun⟩
    rcases List.mem_cons.mp ha with rfl | ha
    · exact hreached [⟨true, a⟩] (some defid) hmem (by simp [Addition.parts]) ⟨true, a⟩ (List.mem_singleton.mpr rfl)
    · obtain ⟨l, hl, rfl⟩ := List.mem_map.mp ha
      exact hreached body (some defid) hmem (by simp [Addition.parts]) l hl
  · refine ⟨fun a ha => ?_, fun n hn => ?_, nofun⟩
    · obtain rfl := List.mem_singleton.mp ha
      exact hreached [⟨true, a⟩] (some defid) hmem (by simp [Addition.parts]) ⟨true, a⟩ (List.mem_singleton.mpr rfl)
    · cases hn
      exact Or.inr ⟨some defid, body.aggtype ≠ .card, start_part hmem (by simp [Addition.parts])⟩

theorem start_rootMet {l : Lit} (h : (Config.start additions : Config W B).RootMet l) : .clause [l] ∈ additions := by
  obtain ⟨vi, defnr, hpart, hl⟩ := (h.resolve_left (by simp [Config.start])).resolve_left
    (by simp [Config.start, Adding.start])
  obtain ⟨a, ha, hpart⟩ := List.mem_flatMap.mp hpart
  cases a with
  | clause cl =>
    by_cases hlength : cl.length = 1
    · obtain ⟨l', rfl⟩ := List.length_eq_one_iff.mp hlength
      simp [Addition.parts] at hpart
      rw [hpart.1, List.mem_singleton] at hl
      rwa [hl]
    · simp [Addition.parts, hlength] at hpart
  | rule defid head body conj => simp [Addition.parts] at hpart
  | aggRule defid head body => simp [Addition.parts] at hpart
  | set setnr defnr' weighted => simp [Addition.parts] at hpart
  | tseitins vi' defnr' => simp [Addition.parts] at hpart

variable (translator additions) in
theorem start_invariant : (Config.start additions : Config W B).Invariant translator additions where
  founded _ := start_founded
  setsSent _ hn := absurd hn List.not_mem_nil
  sound X ν hν := by
    refine ⟨fun k hk => ?_, fun l hl => ?_⟩
    · rcases start_comes hk with ⟨cl, hcl, -, rfl⟩ | ⟨defid, head, body, conj, hmem, rfl⟩ | ⟨defid, head, body, hmem, rfl⟩
      · exact hν.clause cl hcl
      · trivial
      · trivial
    · obtain ⟨l', hl', hholds⟩ := hν.clause [l] (start_rootMet hl)
      rwa [List.mem_singleton.mp hl'] at hholds
  complete := by
    refine ⟨fun cl hcl => ?_, nofun, fun later e earlier heq => ?_, nofun, nofun⟩
    · by_cases hlength : cl.length = 1
      · obtain ⟨l, rfl⟩ := List.length_eq_one_iff.mp hlength
        refine Or.inr ⟨l, rfl, Or.inr (Or.inr ⟨[l], none, start_part hcl ?_, List.mem_singleton.mpr rfl⟩)⟩
        simp [Addition.parts]
      · exact Or.inl (Or.inr (start_part hcl (by simp [Addition.parts, hlength])))
    · exact absurd heq (by simp [Config.start])
  rules := by
    refine ⟨fun k hk r hr => ?_, fun defid head body conj hmem => ?_, fun defid head body hmem => ?_, nofun, nofun⟩
    · rcases start_comes hk with ⟨cl, hcl, -, rfl⟩ | ⟨defid, head, body, conj, hmem, rfl⟩ | ⟨defid, head, body, hmem, rfl⟩
      · cases hr
      · cases hr
        exact .rule hmem
      · cases hr
        exact .aggRule hmem
    · exact Or.inr (start_part hmem (by simp [Addition.parts]))
    · exact Or.inr (start_part hmem (by simp [Addition.parts]))
  rooted := nofun

theorem run_invariant (h : ReflTransGen (Follows translator nbModelsEquivalent) (Config.start additions) c) :
    c.Invariant translator additions := by
  induction h with
  | refl => exact start_invariant translator additions
  | tail _ hfollows ih => exact ih.step hfollows.did

end Start

section Finished

variable {X : Semantics W B} {ν ν' : ℕ → Prop}

variable (translator) in
-- the Tseitins that are not sent to the solver
def Config.left (c : Config W B) : Set ℕ :=
  {t | translator.getTsBody t ≠ none ∧ t ∉ c.state.theory.addedTseitins}

structure Config.Finished (c : Config W B) : Prop where
  queue : c.state.theory.tseitinqueue = []
  parts : c.state.parts = []

theorem Config.Finished.comes (hfinished : c.Finished) {k : Constraint W B} (h : c.Comes k) :
    k ∈ c.state.theory.constraints :=
  h.resolve_right (hfinished.parts ▸ List.not_mem_nil)

theorem Config.Finished.reached (hfinished : c.Finished) {a : ℕ} (h : c.Reached translator a) :
    a ∉ c.left translator := by
  rintro ⟨hbody, hnew⟩
  rcases h with h | h | ⟨e, he, -⟩ | ⟨vi, defnr, hpart, -⟩
  · exact hbody h
  · exact hnew h
  · rw [hfinished.queue] at he
    exact absurd he List.not_mem_nil
  · rw [hfinished.parts] at hpart
    exact absurd hpart List.not_mem_nil

variable (hinv : c.Invariant translator additions) (hfinished : c.Finished)

include hinv hfinished

theorem atoms_not_left {k : Constraint W B} (hk : k ∈ c.state.theory.constraints) :
    ∀ a ∈ k.atoms, a ∉ c.left translator := fun a ha =>
  hfinished.reached ((hinv.founded k (Or.inl hk)).atoms a ha)

theorem set_sent {k : Constraint W B} (hk : k ∈ c.state.theory.constraints) {n : ℕ} (hn : k.setnr = some n) :
    ∃ weighted, .set n (translator.groundset n) weighted ∈ c.state.theory.constraints := by
  have hadded : n ∈ c.state.theory.addedSets := by
    refine ((hinv.founded k (Or.inl hk)).setnr n hn).resolve_right ?_
    rintro ⟨defnr, weighted, hpart⟩
    rw [hfinished.parts] at hpart
    exact absurd hpart List.not_mem_nil
  exact (hinv.setsSent n hadded).imp fun _ h => hfinished.comes h

theorem set_not_left {k : Constraint W B} (hk : k ∈ c.state.theory.constraints) {n : ℕ} (hn : k.setnr = some n) :
    ∀ l ∈ (translator.groundset n).literals, l.atom ∉ c.left translator := fun l hl => by
  obtain ⟨weighted, hset⟩ := set_sent hinv hfinished hk hn
  exact atoms_not_left hinv hfinished hset l.atom (List.mem_map_of_mem hl)

theorem means_agree (h : ∀ a ∉ c.left translator, (ν a ↔ ν' a)) {k : Constraint W B}
    (hk : k ∈ c.state.theory.constraints) : k.means X translator ν ↔ k.means X translator ν' := by
  have hatoms := fun a ha => h a (atoms_not_left hinv hfinished hk a ha)
  cases k with
  | clause cl => exact exists_congr fun l => and_congr_right fun hl =>
      Lit.holds_agree (hatoms l.atom (List.mem_map_of_mem hl))
  | equivalence head body conj =>
    refine iff_congr (hatoms head List.mem_cons_self) (bodyHolds_agree fun l hl => ?_)
    exact hatoms l.atom (List.mem_cons_of_mem _ (List.mem_map_of_mem hl))
  | aggregate head body =>
    have hhead := propext (hatoms head (List.mem_singleton.mpr rfl))
    have hset := TsSet.values_agree fun l hl => h l.atom (set_not_left hinv hfinished hk rfl l hl)
    simp only [Constraint.means, AggTsBody.holds, hhead, hset]
  | other head type form =>
    simp only [Constraint.means, propext (hatoms head (List.mem_singleton.mpr rfl))]
  | rule defid head body conj => exact Iff.rfl
  | set setnr tsset weighted => exact Iff.rfl
  | aggRule defid head body => exact Iff.rfl

theorem holds_iff {k : Constraint W B} (hk : k ∈ c.state.theory.constraints) :
    k.holds X c.state.theory.constraints ν ↔ k.means X translator ν := by
  cases k with
  | aggregate head body =>
    constructor
    · rintro ⟨tsset, weighted, hset, hrelates⟩
      rwa [(hinv.founded _ (Or.inl hset)).set _ _ _ rfl] at hrelates
    · intro hrelates
      obtain ⟨weighted, hset⟩ := set_sent hinv hfinished hk rfl
      exact ⟨_, weighted, hset, hrelates⟩
  | _ => exact Iff.rfl

theorem sends_iff {r : GroundRule W} :
    Sends c.state.theory.constraints r ↔ ∃ k ∈ c.state.theory.constraints, k.groundRule translator = some r := by
  constructor
  · rintro (hmem | ⟨hmem, hset⟩)
    · exact ⟨_, hmem, rfl⟩
    · refine ⟨_, hmem, ?_⟩
      rw [(hinv.founded _ (Or.inl hset)).set _ _ _ rfl]
      rfl
  · rintro ⟨k, hk, hr⟩
    cases k with
    | rule defid head body conj =>
      cases hr
      exact .pc hk
    | aggRule defid head body =>
      cases hr
      obtain ⟨weighted, hset⟩ := set_sent hinv hfinished hk rfl
      exact .agg hk hset
    | _ => cases hr

theorem given_iff {r : GroundRule W} : Sends c.state.theory.constraints r ↔
    Given translator additions (Met c.trace) r := by
  rw [sends_iff hinv hfinished]
  constructor
  · rintro ⟨k, hk, hr⟩
    exact hinv.rules.given k (Or.inl hk) r hr
  · intro h
    cases h with
    | rule hmem => exact ⟨_, hfinished.comes (hinv.rules.rule _ _ _ _ hmem), rfl⟩
    | aggRule hmem => exact ⟨_, hfinished.comes (hinv.rules.aggRule _ _ _ hmem), rfl⟩
    | tseitin hbody htype hmet hr =>
      rename_i defid t tsbody
      have hadded : t ∈ c.state.theory.addedTseitins := by
        obtain ⟨e, he, rfl, -⟩ := hmet
        rcases hinv.complete.met e he with h | h | hroot
        · exact absurd (hbody.symm.trans h) nofun
        · exact h
        · obtain ⟨later, earlier, heq⟩ := List.append_of_mem he
          rcases hinv.complete.root later e earlier heq hroot with hsent | ⟨type, body, conj, cls, hbody', htype', -⟩
          · by_contra hnew
            exact atoms_not_left hinv hfinished (hfinished.comes hsent) e.lit.atom (List.mem_singleton.mpr rfl)
              ⟨by rw [hbody]; exact nofun, hnew⟩
          · rw [hbody] at hbody'
            cases hbody'
            exact absurd htype htype'
      obtain ⟨defid', hmet', k, hk, heq⟩ := hinv.rules.met t hadded tsbody hbody htype defid r hr
      obtain rfl := hinv.rules.unique t tsbody hbody htype defid defid' hmet hmet'
      exact ⟨k, hfinished.comes hk, heq.trans hr⟩

theorem sat_iff : Sat X c.state.theory.constraints ν ↔ (∀ k, c.Comes k → k.means X translator ν) ∧
    X.definitions {r | Given translator additions (Met c.trace) r} ν := by
  have hrules : {r | Sends c.state.theory.constraints r} = {r | Given translator additions (Met c.trace) r} :=
    Set.ext fun r => given_iff hinv hfinished
  unfold Sat
  rw [hrules]
  refine and_congr_left fun _ => ⟨fun h k hk => ?_, fun h k hk => ?_⟩
  · exact (holds_iff hinv hfinished (hfinished.comes hk)).mp (h k (hfinished.comes hk))
  · exact (holds_iff hinv hfinished hk).mpr (h k (Or.inl hk))

theorem sat_of_spec (h : Spec X translator additions (Met c.trace) ν) : Sat X c.state.theory.constraints ν := by
  obtain ⟨hclause, hrelates, hdefinitions⟩ := h
  rw [sat_iff hinv hfinished]
  refine ⟨(hinv.sound X ν ⟨hclause, hrelates, fun t ht tsbody hbody htype hr hvalue => ?_⟩).1, hdefinitions⟩
  obtain ⟨r, hr⟩ := hr
  obtain ⟨defid, hmet, -⟩ := hinv.rules.met t ht tsbody hbody htype 0 r hr
  cases tsbody with
  | pc type body conj =>
    exact X.satisfied_pc _ ν hdefinitions defid t body conj (.tseitin hbody htype hmet rfl) hvalue
  | agg body =>
    exact X.satisfied_agg _ ν hdefinitions defid t _ _ _ _ (.tseitin hbody htype hmet rfl) hvalue
  | other type form => cases hr

omit hinv hfinished

variable (translator) in
def Unmet (trace : List TseitinInfo) (t : ℕ) : Prop :=
  translator.getTsBody t ≠ none ∧ ∀ e ∈ trace, e.lit.atom ≠ t

variable (translator) in
def UnmetBelow (trace : List TseitinInfo) (u t : ℕ) : Prop :=
  Unmet translator trace u ∧ Unmet translator trace t ∧
    ∃ tsbody, translator.getTsBody t = some tsbody ∧ u ∈ tsbody.atoms translator

variable (X translator) in
-- a Tseitin that is not sent has the value of its body
def Config.leftDefinition (c : Config W B) : LocalDefinition ℕ where
  points := c.left translator
  deps t := {a | ∃ tsbody, translator.getTsBody t = some tsbody ∧ a ∈ tsbody.atoms translator}
  equation ν t := ∃ tsbody, translator.getTsBody t = some tsbody ∧ tsbody.value X translator ν
  agree _ _ _ _ h := exists_congr fun tsbody => and_congr_right fun hbody =>
    TsBody.value_agree X translator fun a ha => h a ⟨tsbody, hbody, ha⟩

theorem elimination_atoms {l : Lit} {type : TsType} {body : List Lit} {conj : Bool} {cls : List (List Lit)}
    (h : GroundTheory.elimination l type body conj = some cls) :
    ∀ u ∈ body.map Lit.atom, ∃ cl ∈ cls, ∃ l' ∈ cl, l'.atom = u := by
  intro u hu
  obtain ⟨l', hl', rfl⟩ := List.mem_map.mp hu
  rw [(elimination_eq_some h).2]
  cases l.positive <;> cases conj
  · exact ⟨[-l'], List.mem_map_of_mem hl', -l', List.mem_singleton.mpr rfl, rfl⟩
  · exact ⟨_, List.mem_singleton.mpr rfl, -l', List.mem_map_of_mem hl', rfl⟩
  · exact ⟨body, List.mem_singleton.mpr rfl, l', hl', rfl⟩
  · exact ⟨[l'], List.mem_map_of_mem hl', l', List.mem_singleton.mpr rfl, rfl⟩

include hinv hfinished

theorem met_acc : ∀ later e earlier, c.trace = later ++ e :: earlier → e.rootlevel = true →
    e.lit.atom ∈ c.left translator → Acc (c.leftDefinition translator X).Below e.lit.atom := by
  intro later
  obtain ⟨n, hn⟩ : ∃ n, later.length = n := ⟨_, rfl⟩
  induction n using Nat.strong_induction_on generalizing later with
  | _ n ih =>
    intro e earlier heq hroot hleft
    refine Acc.intro _ fun u hu => ?_
    obtain ⟨huleft, -, tsbody, hbody, hatom⟩ := hu
    rcases hinv.complete.root later e earlier heq hroot with
      hsent | ⟨type, body, conj, cls, hbody', -, hcls, hcovers⟩
    · exact absurd hleft (atoms_not_left hinv hfinished (hfinished.comes hsent) _ (List.mem_singleton.mpr rfl))
    · obtain rfl := Option.some.inj (hbody.symm.trans hbody')
      obtain ⟨cl, hcl, l', hl', rfl⟩ := elimination_atoms hcls u hatom
      rcases hcovers cl hcl with hsent | ⟨l, rfl, ⟨e', he', hroot', rfl⟩ | ⟨e', he', -⟩⟩
      · exact absurd huleft (atoms_not_left hinv hfinished (hfinished.comes hsent) _ (List.mem_map_of_mem hl'))
      · rw [List.mem_singleton.mp hl'] at huleft ⊢
        obtain ⟨latest, between, rfl⟩ := List.append_of_mem he'
        refine ih latest.length ?_ latest rfl e' (between ++ e :: earlier) ?_ hroot' huleft
        · rw [← hn, List.length_append, List.length_cons]
          omega
        · rw [heq, List.append_assoc, List.cons_append]
      · rw [hfinished.queue] at he'
        exact absurd he' List.not_mem_nil

theorem left_acc (hunmet : ∀ t, Acc (UnmetBelow translator c.trace) t) :
    ∀ t ∈ c.left translator, Acc (c.leftDefinition translator X).Below t := by
  have hmet : ∀ e ∈ c.trace, e.lit.atom ∈ c.left translator → Acc (c.leftDefinition translator X).Below e.lit.atom := by
    intro e he hleft
    obtain ⟨later, earlier, heq⟩ := List.append_of_mem he
    have hroot := ((hinv.complete.met e he).resolve_left hleft.1).resolve_left hleft.2
    exact met_acc hinv hfinished later e earlier heq hroot hleft
  intro t
  induction hunmet t with
  | intro t _ ih =>
    intro hleft
    by_cases ht : ∃ e ∈ c.trace, e.lit.atom = t
    · obtain ⟨e, he, rfl⟩ := ht
      exact hmet e he hleft
    · refine Acc.intro t fun u hu => ?_
      obtain ⟨huleft, -, hdep⟩ := hu
      by_cases hu : ∃ e ∈ c.trace, e.lit.atom = u
      · obtain ⟨e, he, rfl⟩ := hu
        exact hmet e he huleft
      · exact ih u ⟨⟨huleft.1, fun e he h => hu ⟨e, he, h⟩⟩, ⟨hleft.1, fun e he h => ht ⟨e, he, h⟩⟩, hdep⟩ huleft

theorem roots_hold (hsent : ∀ k, c.Comes k → k.means X translator ν)
    (hleft : ∀ t ∈ c.left translator, ∀ tsbody, translator.getTsBody t = some tsbody →
      (ν t ↔ tsbody.value X translator ν)) :
    ∀ later e earlier, c.trace = later ++ e :: earlier → e.rootlevel = true → e.lit.holds ν := by
  have hunit : ∀ {l : Lit}, c.Comes (.clause [l]) → l.holds ν := fun h => by
    obtain ⟨l', hl', hholds⟩ := hsent _ h
    rwa [List.mem_singleton.mp hl'] at hholds
  intro later
  obtain ⟨n, hn⟩ : ∃ n, later.length = n := ⟨_, rfl⟩
  induction n using Nat.strong_induction_on generalizing later with
  | _ n ih =>
    intro e earlier heq hroot
    rcases hinv.complete.root later e earlier heq hroot with
      hcomes | ⟨type, body, conj, cls, hbody, htype, hcls, hcovers⟩
    · exact hunit hcomes
    · have hclauses : ∀ cl ∈ cls, clauseHolds ν cl := by
        intro cl hcl
        rcases hcovers cl hcl with hcomes | ⟨l, rfl, ⟨e', he', hroot', rfl⟩ | ⟨e', he', -⟩⟩
        · exact hsent _ hcomes
        · obtain ⟨latest, between, rfl⟩ := List.append_of_mem he'
          refine ⟨e'.lit, List.mem_singleton.mpr rfl,
            ih latest.length ?_ latest rfl e' (between ++ e :: earlier) ?_ hroot'⟩
          · rw [← hn, List.length_append, List.length_cons]
            omega
          · rw [heq, List.append_assoc, List.cons_append]
        · rw [hfinished.queue] at he'
          exact absurd he' List.not_mem_nil
      have hvalue := (elimination_holds hcls).mp hclauses
      have hequiv : (ν e.lit.atom ↔ bodyHolds ν body conj) → e.lit.holds ν := fun h => by
        unfold Lit.holds
        rwa [h]
      by_cases hadded : e.lit.atom ∈ c.state.theory.addedTseitins
      · have hmem : e ∈ c.trace := heq ▸ List.mem_append_right _ List.mem_cons_self
        obtain ⟨tsbody, hbody', hrelates⟩ := hinv.complete.added e.lit.atom hadded
        obtain rfl := Option.some.inj (hbody.symm.trans hbody')
        cases type with
        | eq => exact hequiv (hrelates X ν hsent)
        | impl => exact hunit (hinv.complete.single e hmem hroot _ hbody (Or.inl rfl) hadded)
        | rimpl => exact hunit (hinv.complete.single e hmem hroot _ hbody (Or.inr rfl) hadded)
        | rule => exact absurd rfl htype
      · exact hequiv (hleft _ ⟨by rw [hbody]; exact nofun, hadded⟩ _ hbody)

-- an assignment of what is sent is completed to the Tseitins that are not sent
theorem spec_of_sat (hunmet : ∀ t, Acc (UnmetBelow translator c.trace) t)
    (h : Sat X c.state.theory.constraints ν) :
    ∃ ν', (∀ a, translator.getTsBody a = none → (ν' a ↔ ν a)) ∧ Spec X translator additions (Met c.trace) ν' := by
  rw [sat_iff hinv hfinished] at h
  obtain ⟨hmeans, hdefinitions⟩ := h
  obtain ⟨ν', hsame, hequation⟩ :=
    (c.leftDefinition translator X).exists_solution (left_acc hinv hfinished hunmet) ν
  have hsent : ∀ k, c.Comes k → k.means X translator ν' := fun k hk =>
    (means_agree hinv hfinished hsame (hfinished.comes hk)).mpr (hmeans k hk)
  have hleft : ∀ t ∈ c.left translator, ∀ tsbody, translator.getTsBody t = some tsbody →
      (ν' t ↔ tsbody.value X translator ν') := fun t ht tsbody hbody => by
    refine (hequation t ht).trans ⟨?_, fun hvalue => ⟨tsbody, hbody, hvalue⟩⟩
    rintro ⟨tsbody', hbody', hvalue⟩
    rwa [Option.some.inj (hbody.symm.trans hbody')]
  refine ⟨ν', fun a ha => hsame a fun hleft => hleft.1 ha, fun cl hcl => ?_, fun t tsbody hbody => ?_, ?_⟩
  · rcases hinv.complete.clause cl hcl with hcomes | ⟨l, rfl, ⟨e, he, hroot, rfl⟩ | ⟨e, he, -⟩ | ⟨vi, defnr, hpart, -⟩⟩
    · exact hsent _ hcomes
    · obtain ⟨later, earlier, heq⟩ := List.append_of_mem he
      exact ⟨_, List.mem_singleton.mpr rfl, roots_hold hinv hfinished hsent hleft later e earlier heq hroot⟩
    · rw [hfinished.queue] at he
      exact absurd he List.not_mem_nil
    · rw [hfinished.parts] at hpart
      exact absurd hpart List.not_mem_nil
  · by_cases hadded : t ∈ c.state.theory.addedTseitins
    · obtain ⟨tsbody', hbody', hrelates⟩ := hinv.complete.added t hadded
      obtain rfl := Option.some.inj (hbody.symm.trans hbody')
      exact hrelates X ν' hsent
    · have hequiv := hleft t ⟨by rw [hbody]; exact nofun, hadded⟩ tsbody hbody
      cases tsbody.type with
      | eq => exact hequiv
      | impl => exact hequiv.mp
      | rimpl => exact hequiv.mpr
      | rule => trivial
  · refine X.agree _ ν ν' (fun r hr a ha => ?_) hdefinitions
    refine (hsame a ?_).symm
    obtain ⟨k, hk, hrule⟩ := (sends_iff hinv hfinished).mp ((given_iff hinv hfinished).mpr hr)
    cases k with
    | rule defid head body conj =>
      cases hrule
      exact atoms_not_left hinv hfinished hk a ha
    | aggRule defid head body =>
      cases hrule
      rcases List.mem_cons.mp ha with rfl | ha
      · exact atoms_not_left hinv hfinished hk a (List.mem_singleton.mpr rfl)
      · obtain ⟨l, hl, rfl⟩ := List.mem_map.mp ha
        exact set_not_left hinv hfinished hk rfl l hl
    | _ => cases hrule

end Finished

section Units

-- one Tseitin, for a conjunction of one literal
def oneTseitin (type : TsType) : GroundTranslator Unit Empty where
  getTsBody
    | 1 => some (.pc type [⟨true, 2⟩] true)
    | _ => none
  groundset _ := ⟨[], []⟩
  tseitins := [1]
  mem_tseitins t ht := by
    match t with
    | 0 => cases ht
    | 1 => exact List.mem_singleton.mpr rfl
    | t + 2 => cases ht

-- a definition has the models of its rules
def ruleSemantics : Semantics Unit Empty where
  aggregate _ _ _ _ := False
  other b := b.elim
  definitions rules ν := ∀ defid head body conj, .pc defid head body conj ∈ rules → bodyHolds ν body conj → ν head
  agree rules ν ν' h hrules defid head body conj hmem hbody := by
    refine (h _ hmem head List.mem_cons_self).mp (hrules defid head body conj hmem ?_)
    exact (bodyHolds_agree fun l hl => h _ hmem l.atom (List.mem_cons_of_mem _ (List.mem_map_of_mem hl))).mpr hbody
  satisfied_pc _ _ h := h
  satisfied_agg _ _ _ _ _ _ _ _ _ _ h := h.elim

end Units

end Grounding
