import Mathlib.Logic.Hydra
import DeclarativeLocalSearch.Grounding.Constrained

namespace Grounding

variable {W B : Type} {translator : GroundTranslator W B} {c c' : Config W B} {additions : List (Addition W)}

-- the Tseitin has been met in the definition
def Met (trace : List TseitinInfo) (defid t : ℕ) : Prop := ∃ e ∈ trace, e.lit.atom = t ∧ e.defid = some defid

theorem Given.mono {met met' : ℕ → ℕ → Prop} (h : ∀ d t, met d t → met' d t) {r : GroundRule W}
    (hr : Given translator additions met r) : Given translator additions met' r := by
  cases hr with
  | rule hmem => exact .rule hmem
  | aggRule hmem => exact .aggRule hmem
  | tseitin hbody htype hmet hr => exact .tseitin hbody htype (h _ _ hmet) hr

variable (translator additions) in
structure Config.RulesGiven (c : Config W B) : Prop where
  given : ∀ k, c.Comes k → ∀ r, k.groundRule translator = some r → Given translator additions (Met c.trace) r
  rule : ∀ defid head body conj, .rule defid head body conj ∈ additions → c.Comes (.rule defid head body conj)
  aggRule : ∀ defid head body, .aggRule defid head body ∈ additions → c.Comes (.aggRule defid head body)
  met : ∀ t ∈ c.state.theory.addedTseitins, ∀ tsbody, translator.getTsBody t = some tsbody → tsbody.type = .rule →
    ∀ defid r, tsbody.groundRule translator defid t = some r → ∃ defid', Met c.trace defid' t ∧
      ∃ k, c.Comes k ∧ k.groundRule translator = tsbody.groundRule translator defid' t
  unique : ∀ t tsbody, translator.getTsBody t = some tsbody → tsbody.type = .rule →
    ∀ defid defid', Met c.trace defid t → Met c.trace defid' t → defid = defid'

theorem Met.trace_step (hdid : Did translator c c') {defid t : ℕ} (h : Met c.trace defid t) : Met c'.trace defid t := by
  obtain ⟨e, he, h⟩ := h
  refine ⟨e, ?_, h⟩
  cases hdid <;> first | exact he | exact List.mem_cons_of_mem _ he

theorem Config.RulesGiven.given_step (hdid : Did translator c c') (h : c.RulesGiven translator additions) :
    ∀ k, c'.Comes k → ∀ r, k.groundRule translator = some r → Given translator additions (Met c'.trace) r := by
  intro k hk r hr
  have hold : c.Comes k → Given translator additions (Met c'.trace) r := fun hk =>
    (h.given k hk r hr).mono fun _ _ hmet => hmet.trace_step hdid
  have hsent : ∀ {cs : List (Constraint W B)}, (k ∈ c.state.theory.constraints ++ cs ∨ .polAdd k ∈ c.state.parts) →
      (k ∈ cs → Given translator additions (Met c'.trace) r) → Given translator additions (Met c'.trace) r := by
    rintro cs (hk | hk) hnew
    · exact (List.mem_append.mp hk).elim (fun hk => hold (Or.inl hk)) hnew
    · exact hold (Or.inr hk)
  have hrootClause : ∀ {e : TseitinInfo}, k ∈ GroundTheory.rootClause e → Given translator additions (Met c'.trace) r :=
    fun hk => by
      obtain ⟨-, rfl⟩ := mem_rootClause hk
      cases hr
  have hparts : ∀ {part : Part W B} {parts : List (Part W B)}, c.state.parts = part :: parts → .polAdd k ∈ parts →
      c.Comes k := fun hparts hk => Or.inr (hparts ▸ List.mem_cons_of_mem _ hk)
  cases hdid with
  | known e queue hqueue harmless hknown => exact hsent hk hrootClause
  | root e queue type body conj hqueue harmless hbody htype hnew hroot hcls => exact hsent hk hrootClause
  | eliminated e queue type body conj cls hqueue harmless hbody htype hnew hroot hcls =>
    refine hsent hk fun hk => ?_
    obtain ⟨cl, -, -, rfl⟩ := mem_clauseConstraints.mp hk
    cases hr
  | added e queue tsbody cs q sets hqueue harmless hbody hnew hemission hdropped =>
    refine hsent hk fun hk => ?_
    rcases List.mem_append.mp hk with hk | hk
    · obtain ⟨htype, defid, hdefid, hr⟩ := hemission.rule k hk r hr
      exact .tseitin hbody htype ⟨e, List.mem_cons_self, rfl, hdefid⟩ hr
    · exact hrootClause hk
  | polAdd k' parts hqueue hparts' =>
    rcases hk with hk | hk
    · rcases List.mem_append.mp hk with hk | hk
      · exact hold (Or.inl hk)
      · exact hold (Or.inr (by rw [List.mem_singleton.mp hk, hparts']; exact List.mem_cons_self))
    · exact hold (hparts hparts' hk)
  | push vi defnr propagated parts hqueue hparts' harmless =>
    rcases hk with hk | hk
    · exact hold (Or.inl ((List.mem_append.mp hk).resolve_right List.not_mem_nil))
    · exact hold (hparts hparts' hk)
  | sent setnr defnr weighted parts hqueue hparts' hset =>
    rcases hk with hk | hk
    · exact hold (Or.inl hk)
    · exact hold (hparts hparts' hk)
  | set setnr defnr weighted parts hqueue hparts' hset =>
    rcases hk with hk | hk
    · exact hold (Or.inl ((List.mem_append.mp hk).resolve_right List.not_mem_nil))
    · rcases List.mem_cons.mp ((List.mem_cons.mp hk).resolve_left nofun) with heq | hk
      · cases heq
        cases hr
      · exact hold (hparts hparts' hk)

theorem Config.RulesGiven.step (hdid : Did translator c c') (h : c.RulesGiven translator additions) :
    c'.RulesGiven translator additions := by
  have hmetStep : ∀ t ∈ c.state.theory.addedTseitins, ∀ tsbody, translator.getTsBody t = some tsbody →
      tsbody.type = .rule → ∀ defid r, tsbody.groundRule translator defid t = some r →
        ∃ defid', Met c'.trace defid' t ∧ ∃ k, c'.Comes k ∧
          k.groundRule translator = tsbody.groundRule translator defid' t := by
    intro t ht tsbody hbody htype defid r hr
    obtain ⟨defid', hmet, k, hk, heq⟩ := h.met t ht tsbody hbody htype defid r hr
    exact ⟨defid', hmet.trace_step hdid, k, hk.step hdid, heq⟩
  refine ⟨h.given_step hdid, fun defid head body conj hmem => (h.rule defid head body conj hmem).step hdid,
    fun defid head body hmem => (h.aggRule defid head body hmem).step hdid, ?_, ?_⟩
  · rcases hdid.handled with ⟨-, hsame, -⟩ | ⟨e, queue, -, htrace, -, hhandled⟩
    · exact fun t ht => hmetStep t (hsame ▸ ht)
    · cases hhandled with
      | known _ hsame _ => exact fun t ht => hmetStep t (hsame ▸ ht)
      | eliminated _ _ hsame _ => exact fun t ht => hmetStep t (hsame ▸ ht)
      | added tsbody hbody hnew hsame hroot hrelates hrule =>
        intro t ht tsbody' hbody' htype defid r hr
        rcases List.mem_cons.mp (hsame ▸ ht) with rfl | ht
        · obtain rfl := Option.some.inj (hbody.symm.trans hbody')
          obtain ⟨defid', hdefid, k, hk, heq⟩ := hrule htype defid r hr
          exact ⟨defid', ⟨e, htrace ▸ List.mem_cons_self, rfl, hdefid⟩, k, hk, heq⟩
        · exact hmetStep t ht tsbody' hbody' htype defid r hr
  · intro t tsbody hbody htype defid defid' hmet hmet'
    rcases hdid.handled with ⟨htrace, -, -⟩ | ⟨e, queue, -, htrace, harmless, -⟩
    · rw [htrace] at hmet hmet'
      exact h.unique t tsbody hbody htype defid defid' hmet hmet'
    · rw [htrace] at hmet hmet'
      obtain ⟨e₁, he₁, rfl, hdefid⟩ := hmet
      obtain ⟨e₂, he₂, hatom, hdefid'⟩ := hmet'
      rcases List.mem_cons.mp he₁ with rfl | hmem₁
      · rcases List.mem_cons.mp he₂ with rfl | hmem₂
        · exact Option.some.inj (hdefid.symm.trans hdefid')
        · exact harmless.definition tsbody hbody htype e₂ hmem₂ hatom defid defid' hdefid hdefid'
      · rcases List.mem_cons.mp he₂ with rfl | hmem₂
        · rw [← hatom] at hbody
          exact (harmless.definition tsbody hbody htype e₁ hmem₁ hatom.symm defid' defid hdefid' hdefid).symm
        · exact h.unique _ tsbody hbody htype defid defid' ⟨e₁, hmem₁, rfl, hdefid⟩ ⟨e₂, hmem₂, hatom, hdefid'⟩

end Grounding

namespace Grounding

open Relation

variable {W B : Type} {translator : GroundTranslator W B} {c c' : Config W B} {nbModelsEquivalent : Bool}

section Accessible

variable {addedTseitins addedTseitins' : List ℕ}

theorem rootSucc_acc (h : ∀ t ∈ addedTseitins, t ∈ addedTseitins') {l : Lit}
    (hacc : Acc (RootSucc translator addedTseitins) l) : Acc (RootSucc translator addedTseitins') l :=
  Subrelation.accessible (fun ⟨type, body, conj, cls, hbody, htype, hnew, hcls⟩ =>
    ⟨type, body, conj, cls, hbody, htype, mt (h _) hnew, hcls⟩) hacc

variable (translator addedTseitins) in
-- what an element of the queue puts there when it is eliminated
def Pushed (x y : TseitinInfo) : Prop :=
  y.rootlevel = true ∧ ∃ type body conj cls, translator.getTsBody y.lit.atom = some (.pc type body conj) ∧
    type ≠ .rule ∧ y.lit.atom ∉ addedTseitins ∧ GroundTheory.elimination y.lit type body conj = some cls ∧
      x ∈ GroundTheory.clauseInfos cls

theorem pushed_acc_of_nonroot {y : TseitinInfo} (h : y.rootlevel = false) :
    Acc (Pushed translator addedTseitins) y :=
  Acc.intro y fun _ hx => absurd (h.symm.trans hx.1) (by simp)

theorem pushed_acc {l : Lit} (h : Acc (RootSucc translator addedTseitins) l) :
    ∀ y : TseitinInfo, y.lit = l → Acc (Pushed translator addedTseitins) y := by
  induction h with
  | intro l _ ih =>
    rintro y rfl
    refine Acc.intro y fun x hx => ?_
    obtain ⟨-, type, body, conj, cls, hbody, htype, hnew, hcls, hx⟩ := hx
    obtain ⟨cl, hcl, hl, -, hlength⟩ := mem_clauseInfos.mp hx
    by_cases hone : cl.length = 1
    · obtain ⟨l', rfl⟩ := List.length_eq_one_iff.mp hone
      rw [← List.mem_singleton.mp hl] at hcl
      exact ih x.lit ⟨type, body, conj, cls, hbody, htype, hnew, hcls, hcl⟩ x rfl
    · exact pushed_acc_of_nonroot (hlength.trans (decide_eq_false hone))

variable (translator addedTseitins) in
-- restricted to where it is well-founded, so that it is irreflexive
def PushedBelow (x y : TseitinInfo) : Prop :=
  Pushed translator addedTseitins x y ∧ Acc (Pushed translator addedTseitins) y

instance : Std.Irrefl (PushedBelow translator addedTseitins) where
  irrefl y h := by
    obtain ⟨hself, hacc⟩ := h
    induction hacc with
    | intro y _ ih => exact ih y hself hself

theorem cutExpand_acc {queue : List TseitinInfo} (h : ∀ e ∈ queue, Acc (Pushed translator addedTseitins) e) :
    Acc (CutExpand (PushedBelow translator addedTseitins)) (queue : Multiset TseitinInfo) := by
  refine acc_of_singleton fun e he => Acc.cutExpand ?_
  exact Subrelation.accessible (fun h => h.1) (h e (Multiset.mem_coe.mp he))

end Accessible

variable (translator) in
-- the literals at the root lead to no cycle
def Config.Rooted (c : Config W B) : Prop :=
  ∀ e ∈ c.state.theory.tseitinqueue, e.rootlevel = true → Acc (RootSucc translator c.state.theory.addedTseitins) e.lit

theorem Config.Rooted.step (hdid : Did translator c c') (h : c.Rooted translator) : c'.Rooted translator := by
  have hadded : ∀ t ∈ c.state.theory.addedTseitins, t ∈ c'.state.theory.addedTseitins := fun t ht => by
    cases hdid <;> first | exact ht | exact List.mem_cons_of_mem _ ht
  have hold : ∀ {e}, e ∈ c.state.theory.tseitinqueue → e.rootlevel = true →
      Acc (RootSucc translator c'.state.theory.addedTseitins) e.lit := fun he hroot =>
    rootSucc_acc hadded (h _ he hroot)
  have hqueued : ∀ {e queue q}, c.state.theory.tseitinqueue = e :: queue → (∀ e' ∈ q, e'.rootlevel = true →
      Acc (RootSucc translator c'.state.theory.addedTseitins) e'.lit) → ∀ e' ∈ queue ++ q, e'.rootlevel = true →
        Acc (RootSucc translator c'.state.theory.addedTseitins) e'.lit := fun heq hq e' he' =>
    (List.mem_append.mp he').elim (fun he' => hold (heq ▸ List.mem_cons_of_mem _ he')) (hq e')
  cases hdid with
  | known e queue heq harmless hknown => exact hqueued heq nofun
  | root e queue type body conj heq harmless hbody htype hnew hroot hcls => exact hqueued heq nofun
  | added e queue tsbody cs q sets heq harmless hbody hnew hemission hdropped =>
    refine hqueued heq fun e' he' hroot' => ?_
    rw [hemission.nonroot e' he'] at hroot'
    cases hroot'
  | eliminated e queue type body conj cls heq harmless hbody htype hnew hroot hcls =>
    refine hqueued heq fun e' he' hroot' => ?_
    obtain ⟨cl, hcl, hl, -, hlength⟩ := mem_clauseInfos.mp he'
    rw [hroot'] at hlength
    obtain ⟨l', rfl⟩ := List.length_eq_one_iff.mp (of_decide_eq_true hlength.symm)
    rw [← List.mem_singleton.mp hl] at hcl
    exact (h e (heq ▸ List.mem_cons_self) hroot).inv ⟨type, body, conj, cls, hbody, htype, hnew, hcls, hcl⟩
  | polAdd k parts heq hparts => exact fun e he => hold ((List.mem_append.mp he).resolve_right List.not_mem_nil)
  | push vi defnr propagated parts heq hparts harmless =>
    intro e he hroot
    rcases List.mem_append.mp he with he | he
    · exact hold he hroot
    · obtain ⟨l, hl, rfl⟩ := List.mem_map.mp he
      obtain rfl : propagated = true := hroot
      exact harmless l hl
  | sent setnr defnr weighted parts heq hparts hset => exact fun e he => hold he
  | set setnr defnr weighted parts heq hparts hset =>
    exact fun e he => hold ((List.mem_append.mp he).resolve_right List.not_mem_nil)

section Terminates

def Part.weight : Part W B → ℕ
  | .set _ _ _ => 3
  | _ => 1

def Config.weight (c : Config W B) : ℕ := (c.state.parts.map Part.weight).sum

variable (translator) in
def Config.unadded (c : Config W B) : ℕ :=
  (translator.tseitins.filter (· ∉ c.state.theory.addedTseitins)).length

theorem unadded_lt {c c' : Config W B} {t : ℕ} (hbody : (translator.getTsBody t).isSome)
    (hnew : t ∉ c.state.theory.addedTseitins)
    (hadded : c'.state.theory.addedTseitins = t :: c.state.theory.addedTseitins) :
    c'.unadded translator < c.unadded translator := by
  unfold Config.unadded
  have hsub : (translator.tseitins.filter (· ∉ c'.state.theory.addedTseitins)).Sublist
      (translator.tseitins.filter (· ∉ c.state.theory.addedTseitins)) := by
    refine List.monotone_filter_right _ fun s hs => ?_
    simp only [hadded, decide_eq_true_eq, List.mem_cons, not_or] at hs ⊢
    exact hs.2
  refine lt_of_le_of_ne hsub.length_le fun hlength => ?_
  have heq := hsub.eq_of_length hlength
  have hmem : t ∈ translator.tseitins.filter (· ∉ c.state.theory.addedTseitins) :=
    List.mem_filter.mpr ⟨translator.mem_tseitins t hbody, by simpa using hnew⟩
  rw [← heq] at hmem
  simp [hadded] at hmem

theorem Config.Rooted.queue_acc (h : c.Rooted translator) :
    Acc (CutExpand (PushedBelow translator c.state.theory.addedTseitins))
      (c.state.theory.tseitinqueue : Multiset TseitinInfo) := by
  refine cutExpand_acc fun e he => ?_
  cases hroot : e.rootlevel with
  | false => exact pushed_acc_of_nonroot hroot
  | true => exact pushed_acc (h e he hroot) e rfl

theorem Did.measure (hdid : Did translator c c') (h : c.Rooted translator) :
    c'.weight < c.weight ∨ c'.weight = c.weight ∧ (c'.unadded translator < c.unadded translator ∨
      c'.state.theory.addedTseitins = c.state.theory.addedTseitins ∧
        CutExpand (PushedBelow translator c.state.theory.addedTseitins)
          (c'.state.theory.tseitinqueue : Multiset TseitinInfo) c.state.theory.tseitinqueue) := by
  have hparts : ∀ {part parts}, c.state.parts = part :: parts → c.weight = part.weight + (parts.map Part.weight).sum :=
    fun heq => by rw [Config.weight, heq, List.map_cons, List.sum_cons]
  have hcut : ∀ {e queue q}, c.state.theory.tseitinqueue = e :: queue →
      (∀ x ∈ q, PushedBelow translator c.state.theory.addedTseitins x e) →
      CutExpand (PushedBelow translator c.state.theory.addedTseitins)
        ((queue ++ q : List TseitinInfo) : Multiset TseitinInfo) c.state.theory.tseitinqueue := by
    intro e queue q heq hq
    refine ⟨q, e, fun x hx => hq x (Multiset.mem_coe.mp hx), ?_⟩
    rw [heq, ← Multiset.coe_add, ← Multiset.cons_coe, ← Multiset.singleton_add, Multiset.add_comm _ {e}, Multiset.add_assoc]
  cases hdid with
  | known e queue heq harmless hknown => exact Or.inr ⟨rfl, Or.inr ⟨rfl, hcut heq nofun⟩⟩
  | root e queue type body conj heq harmless hbody htype hnew hroot hcls =>
    exact Or.inr ⟨rfl, Or.inl (unadded_lt (by rw [hbody]; rfl) hnew rfl)⟩
  | added e queue tsbody cs q sets heq harmless hbody hnew hemission hdropped =>
    exact Or.inr ⟨rfl, Or.inl (unadded_lt (by rw [hbody]; rfl) hnew rfl)⟩
  | eliminated e queue type body conj cls heq harmless hbody htype hnew hroot hcls =>
    refine Or.inr ⟨rfl, Or.inr ⟨rfl, hcut heq fun x hx => ⟨?_, ?_⟩⟩⟩
    · exact ⟨hroot, type, body, conj, cls, hbody, htype, hnew, hcls, hx⟩
    · exact pushed_acc (h e (heq ▸ List.mem_cons_self) hroot) e rfl
  | polAdd k parts heq hparts' =>
    left
    rw [hparts hparts']
    exact Nat.lt_add_of_pos_left Nat.one_pos
  | push vi defnr propagated parts heq hparts' harmless =>
    left
    rw [hparts hparts']
    exact Nat.lt_add_of_pos_left Nat.one_pos
  | sent setnr defnr weighted parts heq hparts' hset =>
    left
    rw [hparts hparts']
    exact Nat.lt_add_of_pos_left (Nat.zero_lt_succ 2)
  | set setnr defnr weighted parts heq hparts' hset =>
    left
    rw [hparts hparts']
    simp only [Config.weight, List.map_cons, List.sum_cons, Part.weight]
    omega

theorem Config.Rooted.terminates (hrooted : c.Rooted translator) :
    Acc (fun c₂ c₁ => Follows translator nbModelsEquivalent c₁ c₂) c := by
  obtain ⟨p, hp⟩ : ∃ p, c.weight = p := ⟨_, rfl⟩
  induction p using Nat.strong_induction_on generalizing c with
  | _ p ihp =>
    obtain ⟨u, hu⟩ : ∃ u, c.unadded translator = u := ⟨_, rfl⟩
    induction u using Nat.strong_induction_on generalizing c with
    | _ u ihu =>
      obtain ⟨addedTseitins, hadded⟩ : ∃ addedTseitins, c.state.theory.addedTseitins = addedTseitins := ⟨_, rfl⟩
      obtain ⟨m, hm⟩ : ∃ m : Multiset TseitinInfo, (c.state.theory.tseitinqueue : Multiset TseitinInfo) = m := ⟨_, rfl⟩
      have hacc := hrooted.queue_acc
      rw [hadded, hm] at hacc
      induction hacc generalizing c with
      | intro m _ ih =>
        refine Acc.intro c fun c' hfollows => ?_
        have hdid := hfollows.did
        have hrooted' := hrooted.step hdid
        rcases hdid.measure hrooted with hlt | ⟨heq, hlt | ⟨hsame, hcut⟩⟩
        · exact ihp _ (hp ▸ hlt) hrooted' rfl
        · exact ihu _ (hu ▸ hlt) hrooted' (heq.trans hp) rfl
        · rw [hadded, hm] at hcut
          refine ih _ hcut hrooted' (heq.trans hp) ?_ (hsame.trans hadded) rfl
          rw [← hu, Config.unadded, hsame]
          rfl

end Terminates

end Grounding
