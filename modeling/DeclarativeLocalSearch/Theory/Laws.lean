import DeclarativeLocalSearch.Theory.Kinds

set_option linter.unusedSectionVars false

namespace Theory

open Quantified Structure

variable {S P F D : Type} [DecidableEq S] {I : Structure S P F D}

section Tuples

variable {vs ws zs : List (Variable S)} {e : Variable S → D}

def merge (hz : ∀ v, v ∈ zs ↔ v ∈ vs ∨ v ∈ ws) (a : I.Tuple vs) (b : I.Tuple ws) : I.Tuple zs :=
  ⟨fun v => if h : v.1 ∈ ws then b.1 ⟨v, h⟩ else a.1 ⟨v, ((hz v).mp v.2).resolve_right h⟩, fun v => by
    dsimp only
    split_ifs with h
    · exact b.2 ⟨v.1, h⟩
    · exact a.2 ⟨v.1, ((hz v).mp v.2).resolve_right h⟩⟩

theorem extend_merge (hz : ∀ v, v ∈ zs ↔ v ∈ vs ∨ v ∈ ws) (a : I.Tuple vs) (b : I.Tuple ws) :
    I.extend e (merge hz a b) = I.extend (I.extend e a) b := by
  funext v
  by_cases hw : v ∈ ws
  · rw [extend_of_mem ((hz v).mpr (Or.inr hw)), extend_of_mem hw]
    exact dif_pos hw
  · rw [extend_of_not_mem hw]
    by_cases hv : v ∈ vs
    · rw [extend_of_mem ((hz v).mpr (Or.inl hv)), extend_of_mem hv]
      exact dif_neg hw
    · rw [extend_of_not_mem hv, extend_of_not_mem fun h => ((hz v).mp h).elim hv hw]

theorem merge_surjective (hz : ∀ v, v ∈ zs ↔ v ∈ vs ∨ v ∈ ws) :
    Function.Surjective fun x : I.Tuple vs × I.Tuple ws => merge hz x.1 x.2 := by
  intro c
  refine ⟨(⟨fun v => c.1 ⟨v, (hz v).mpr (Or.inl v.2)⟩, fun v => c.2 ⟨v, _⟩⟩,
    ⟨fun v => c.1 ⟨v, (hz v).mpr (Or.inr v.2)⟩, fun v => c.2 ⟨v, _⟩⟩), Subtype.ext (funext fun v => ?_)⟩
  dsimp only [merge]
  split_ifs <;> rfl

theorem each_merge (univ : Bool) (hz : ∀ v, v ∈ zs ↔ v ∈ vs ∨ v ∈ ws) (p : (Variable S → D) → Prop) :
    (each univ fun a : I.Tuple vs => each univ fun b : I.Tuple ws => p (I.extend (I.extend e a) b)) ↔
      each univ fun c : I.Tuple zs => p (I.extend e c) := by
  rw [← each_surjective (merge_surjective hz), ← each_prod]
  simp only [extend_merge]

theorem nonempty_tuple (h : ∀ v ∈ vs, ∃ d, I.sort v.sort d) : Nonempty (I.Tuple vs) := by
  choose g hg using h
  exact ⟨⟨fun v => g v.1 v.2, fun v => hg v.1 v.2⟩⟩

theorem holds_extend {f : Formula S P F D} (h : ∀ v ∈ vs, v ∉ f.freeVars) (a : I.Tuple vs) :
    I.holds f (I.extend e a) ↔ I.holds f e :=
  agree.2.2 f _ _ fun v hv => extend_of_not_mem (fun hvs => h v hvs hv) e a

end Tuples

section Laws

variable {used : S → Prop} {n : ℕ} {q : QUANT} {conj : Bool} {vs ws zs : List (Variable S)}
  {f : Formula S P F D} {fs gs : List (Formula S P F D)}

theorem fit_quant_iff : (Formula.kind I).Fit used n (.quant .pos q vs f) ↔
    (Formula.kind I).Fit used n f ∧ ∀ v ∈ vs, v ∉ f.boundVars ∧ v.id < n ∧ used v.sort :=
  (wraps_quant q vs).fit_iff

theorem fit_bool_iff : (Formula.kind I).Fit used n (.bool .pos conj fs) ↔
    ∀ f ∈ fs, (Formula.kind I).Fit used n f :=
  (wraps_bool conj).fit_iff.trans ((and_iff_left fun _ hv => absurd hv List.not_mem_nil).trans
    Kind.fit_list_iff)

theorem quant_congr {n' : ℕ} {f' : Formula S P F D}
    (h : (Formula.kind I).Fit used n (.quant .pos q vs f))
    (hf : (Formula.kind I).Becomes used n f n' f') :
    (Formula.kind I).Becomes used n (.quant .pos q vs f) n' (.quant .pos q vs f') :=
  (wraps_quant q vs).becomes h hf

theorem bool_congr {n' : ℕ} (h : (Formula.kind I).Fit used n (.bool .pos conj fs))
    (hfs : (Formula.kind I).list.Becomes used n fs n' gs) :
    (Formula.kind I).Becomes used n (.bool .pos conj fs) n' (.bool .pos conj gs) :=
  (wraps_bool conj).becomes h hfs

theorem mem_freeVars_quant {sign : SIGN} {v : Variable S} :
    v ∈ (Formula.quant sign q vs f).freeVars ↔ v ∈ f.freeVars ∧ v ∉ vs := by
  simp [Formula.freeVars]

theorem mem_freeVars_bool {sign : SIGN} {v : Variable S} :
    v ∈ (Formula.bool sign conj fs).freeVars ↔ ∃ f ∈ fs, v ∈ f.freeVars := mem_formulasFreeVars

theorem mem_boundVars_quant {sign : SIGN} {v : Variable S} :
    v ∈ (Formula.quant sign q vs f).boundVars ↔ v ∈ vs ∨ v ∈ f.boundVars := List.mem_append

theorem mem_boundVars_bool {sign : SIGN} {v : Variable S} :
    v ∈ (Formula.bool sign conj fs).boundVars ↔ ∃ f ∈ fs, v ∈ f.boundVars := by
  rw [Formula.boundVars, formulasBoundVars_eq_flatMap, List.mem_flatMap]

theorem becomes_intro {n' : ℕ} {f' : Formula S P F D} (hn : n ≤ n')
    (hfit : (Formula.kind I).Fit used n' f') (hfree : ∀ v ∈ f'.freeVars, v ∈ f.freeVars)
    (hbound : ∀ v ∈ f'.boundVars, v ∈ f.boundVars ∨ n ≤ v.id)
    (hholds : ∀ e, I.holds f' e ↔ I.holds f e) : (Formula.kind I).Becomes used n f n' f' :=
  ⟨hn, hfit, hfree, hbound, funext fun e => propext (hholds e)⟩

theorem becomes_of_holds {f' : Formula S P F D} (hfit : (Formula.kind I).Fit used n f')
    (hfree : ∀ v ∈ f'.freeVars, v ∈ f.freeVars) (hbound : ∀ v ∈ f'.boundVars, v ∈ f.boundVars)
    (hholds : ∀ e, I.holds f' e ↔ I.holds f e) : (Formula.kind I).Becomes used n f n f' :=
  becomes_intro (Nat.le_refl n) hfit hfree (fun v hv => Or.inl (hbound v hv)) hholds

section Becomes

variable {n' : ℕ} {f' : Formula S P F D} (h : (Formula.kind I).Becomes used n f n' f')

include h

theorem freeVars_of_becomes {v : Variable S} (hv : v ∈ f'.freeVars) : v ∈ f.freeVars := h.free v hv

theorem boundVars_of_becomes {v : Variable S} (hv : v ∈ f'.boundVars) : v ∈ f.boundVars ∨ n ≤ v.id :=
  h.bound v hv

theorem holds_of_becomes (e : Variable S → D) : I.holds f' e ↔ I.holds f e :=
  iff_of_eq (congrFun h.meaning e)

end Becomes

theorem quant_merge (hz : ∀ v, v ∈ zs ↔ v ∈ vs ∨ v ∈ ws)
    (h : (Formula.kind I).Fit used n (.quant .pos q vs (.quant .pos q ws f))) :
    (Formula.kind I).Becomes used n (.quant .pos q vs (.quant .pos q ws f)) n (.quant .pos q zs f) := by
  obtain ⟨hin, hvs⟩ := fit_quant_iff.mp h
  obtain ⟨hf, hws⟩ := fit_quant_iff.mp hin
  refine becomes_of_holds (fit_quant_iff.mpr ⟨hf, fun v hv => ?_⟩) (fun v hv => ?_) (fun v hv => ?_)
    fun e => ?_
  · rcases (hz v).mp hv with hv | hv
    · exact ⟨fun hb => (hvs v hv).1 (mem_boundVars_quant.mpr (Or.inr hb)), (hvs v hv).2⟩
    · exact hws v hv
  · obtain ⟨hv, hzs⟩ := mem_freeVars_quant.mp hv
    exact mem_freeVars_quant.mpr ⟨mem_freeVars_quant.mpr ⟨hv, fun hw => hzs ((hz v).mpr (Or.inr hw))⟩,
      fun hv => hzs ((hz v).mpr (Or.inl hv))⟩
  · refine mem_boundVars_quant.mpr ?_
    rcases mem_boundVars_quant.mp hv with hv | hv
    · exact ((hz v).mp hv).imp_right fun hw => mem_boundVars_quant.mpr (Or.inl hw)
    · exact Or.inr (mem_boundVars_quant.mpr (Or.inr hv))
  · refine (holds_quant_pos q zs f e).trans (Iff.trans ?_ (holds_quant_pos q vs _ e).symm)
    refine (each_merge q.isUniv hz fun e => I.holds f e).symm.trans (each_congr fun a => ?_)
    exact (holds_quant_pos q ws f _).symm

theorem holds_quant_irrelevant {e : Variable S → D} (hne : ∀ v ∈ vs, ∃ d, I.sort v.sort d)
    (hf : ∀ v ∈ vs, v ∉ f.freeVars) : I.holds (.quant .pos q vs f) e ↔ I.holds f e := by
  have := nonempty_tuple hne
  exact (holds_quant_pos q vs f e).trans ((each_congr fun a => holds_extend hf a).trans each_const)

theorem quant_irrelevant (h : (Formula.kind I).Fit used n (.quant .pos q vs f))
    (hne : ∀ v ∈ vs, ∃ d, I.sort v.sort d) (hf : ∀ v ∈ vs, v ∉ f.freeVars) :
    (Formula.kind I).Becomes used n (.quant .pos q vs f) n f := by
  exact becomes_of_holds (fit_quant_iff.mp h).1
    (fun v hv => mem_freeVars_quant.mpr ⟨hv, fun hvs => hf v hvs hv⟩)
    (fun v hv => mem_boundVars_quant.mpr (Or.inr hv)) fun e => (holds_quant_irrelevant hne hf).symm

theorem quant_nil (h : (Formula.kind I).Fit used n (.quant .pos q [] f)) :
    (Formula.kind I).Becomes used n (.quant .pos q [] f) n f :=
  quant_irrelevant h (fun _ hv => absurd hv List.not_mem_nil) fun _ hv => absurd hv List.not_mem_nil

theorem quant_extract (h : (Formula.kind I).Fit used n (.quant .pos q vs (.bool .pos conj (fs ++ gs))))
    (hne : ∀ v ∈ vs, ∃ d, I.sort v.sort d) (hfs : ∀ f ∈ fs, ∀ v ∈ vs, v ∉ f.freeVars) :
    (Formula.kind I).Becomes used n (.quant .pos q vs (.bool .pos conj (fs ++ gs))) n
      (.bool .pos conj (fs ++ [.quant .pos q vs (.bool .pos conj gs)])) := by
  have := nonempty_tuple hne
  obtain ⟨hin, hvs⟩ := fit_quant_iff.mp h
  have hmem := fit_bool_iff.mp hin
  have hgs : (Formula.kind I).Fit used n (.quant .pos q vs (.bool .pos conj gs)) :=
    fit_quant_iff.mpr ⟨fit_bool_iff.mpr fun f hf => hmem f (List.mem_append_right _ hf),
      fun v hv => ⟨fun hb => (hvs v hv).1 (by
        obtain ⟨f, hf, hb⟩ := mem_boundVars_bool.mp hb
        exact mem_boundVars_bool.mpr ⟨f, List.mem_append_right _ hf, hb⟩), (hvs v hv).2⟩⟩
  have hfit : (Formula.kind I).Fit used n
      (.bool .pos conj (fs ++ [.quant .pos q vs (.bool .pos conj gs)])) :=
    fit_bool_iff.mpr (List.forall_mem_append.mpr
      ⟨fun f hf => hmem f (List.mem_append_left _ hf), List.forall_mem_singleton.mpr hgs⟩)
  refine becomes_of_holds hfit (fun v hv => ?_) (fun v hv => ?_) fun e => ?_
  · obtain ⟨f, hf, hv⟩ := mem_freeVars_bool.mp hv
    rcases List.mem_append.mp hf with hf | hf
    · exact mem_freeVars_quant.mpr ⟨mem_freeVars_bool.mpr ⟨f, List.mem_append_left _ hf, hv⟩,
        fun hvar => hfs f hf v hvar hv⟩
    · rw [List.mem_singleton.mp hf] at hv
      obtain ⟨hv, hvar⟩ := mem_freeVars_quant.mp hv
      obtain ⟨g, hg, hv⟩ := mem_freeVars_bool.mp hv
      exact mem_freeVars_quant.mpr ⟨mem_freeVars_bool.mpr ⟨g, List.mem_append_right _ hg, hv⟩, hvar⟩
  · obtain ⟨f, hf, hv⟩ := mem_boundVars_bool.mp hv
    rcases List.mem_append.mp hf with hf | hf
    · exact mem_boundVars_quant.mpr
        (Or.inr (mem_boundVars_bool.mpr ⟨f, List.mem_append_left _ hf, hv⟩))
    · rw [List.mem_singleton.mp hf] at hv
      refine mem_boundVars_quant.mpr ((mem_boundVars_quant.mp hv).imp_right fun hv => ?_)
      obtain ⟨g, hg, hv⟩ := mem_boundVars_bool.mp hv
      exact mem_boundVars_bool.mpr ⟨g, List.mem_append_right _ hg, hv⟩
  · calc
      I.holds (.bool .pos conj (fs ++ [.quant .pos q vs (.bool .pos conj gs)])) e ↔ both conj (eachOf conj fs fun f => I.holds f e)
          (each q.isUniv fun a : I.Tuple vs => eachOf conj gs fun g => I.holds g (I.extend e a)) := by
          rw [holds_bool_pos, eachOf_append, eachOf_singleton, holds_quant_pos]
          simp only [holds_bool_pos]
    _ ↔ each q.isUniv fun a : I.Tuple vs => both conj (eachOf conj fs fun f => I.holds f e)
          (eachOf conj gs fun g => I.holds g (I.extend e a)) := each_both.symm
    _ ↔ I.holds (.quant .pos q vs (.bool .pos conj (fs ++ gs))) e := by
        rw [holds_quant_pos]
        refine each_congr fun a => ?_
        rw [holds_bool_pos, eachOf_append, eachOf_congr fun f hf => holds_extend (hfs f hf) a]

theorem quant_distribute (hconj : q.isUniv = conj)
    (h : (Formula.kind I).Fit used n (.quant .pos q vs (.bool .pos conj fs))) :
    (Formula.kind I).Becomes used n (.quant .pos q vs (.bool .pos conj fs)) n
      (.bool .pos conj (fs.map (.quant .pos q vs))) := by
  subst hconj
  obtain ⟨hin, hvs⟩ := fit_quant_iff.mp h
  have hfit : ∀ f ∈ fs, (Formula.kind I).Fit used n (.quant .pos q vs f) := fun f hf =>
    fit_quant_iff.mpr ⟨fit_bool_iff.mp hin f hf, fun v hv =>
      ⟨fun hb => (hvs v hv).1 (mem_boundVars_bool.mpr ⟨f, hf, hb⟩), (hvs v hv).2⟩⟩
  refine becomes_of_holds (fit_bool_iff.mpr (List.forall_mem_map.mpr hfit)) (fun v hv => ?_)
    (fun v hv => ?_) fun e => ?_
  · obtain ⟨g, hg, hv⟩ := mem_freeVars_bool.mp hv
    obtain ⟨f, hf, rfl⟩ := List.mem_map.mp hg
    obtain ⟨hv, hvar⟩ := mem_freeVars_quant.mp hv
    exact mem_freeVars_quant.mpr ⟨mem_freeVars_bool.mpr ⟨f, hf, hv⟩, hvar⟩
  · obtain ⟨g, hg, hv⟩ := mem_boundVars_bool.mp hv
    obtain ⟨f, hf, rfl⟩ := List.mem_map.mp hg
    exact mem_boundVars_quant.mpr ((mem_boundVars_quant.mp hv).imp_right fun hv =>
      mem_boundVars_bool.mpr ⟨f, hf, hv⟩)
  · rw [holds_bool_pos, eachOf_map, holds_quant_pos]
    simp only [holds_quant_pos, holds_bool_pos]
    exact each_eachOf.symm

theorem quant_swap (h : (Formula.kind I).Fit used n (.quant .pos q vs (.quant .pos q ws f))) :
    (Formula.kind I).Becomes used n (.quant .pos q vs (.quant .pos q ws f)) n
      (.quant .pos q ws (.quant .pos q vs f)) := by
  obtain ⟨hin, hvs⟩ := fit_quant_iff.mp h
  obtain ⟨hf, hws⟩ := fit_quant_iff.mp hin
  refine becomes_of_holds (fit_quant_iff.mpr ⟨fit_quant_iff.mpr ⟨hf, fun v hv => ⟨fun hb => ?_,
    (hvs v hv).2⟩⟩, fun v hv => ⟨fun hb => ?_, (hws v hv).2⟩⟩) (fun v hv => ?_) (fun v hv => ?_)
    fun e => ?_
  · exact (hvs v hv).1 (mem_boundVars_quant.mpr (Or.inr hb))
  · rcases mem_boundVars_quant.mp hb with hb | hb
    · exact (hvs v hb).1 (mem_boundVars_quant.mpr (Or.inl hv))
    · exact (hws v hv).1 hb
  · simp only [mem_freeVars_quant] at hv ⊢
    exact ⟨⟨hv.1.1, hv.2⟩, hv.1.2⟩
  · simp only [mem_boundVars_quant] at hv ⊢
    exact or_left_comm.mp hv
  · simp only [holds_quant_pos]
    have hz : ∀ v, v ∈ vs ++ ws ↔ v ∈ ws ∨ v ∈ vs := fun v => List.mem_append.trans or_comm
    exact (each_merge q.isUniv hz fun e => I.holds f e).trans
      (each_merge q.isUniv (fun v => List.mem_append) fun e => I.holds f e).symm

theorem bool_members (gs : List (Formula S P F D)) (h : (Formula.kind I).Fit used n (.bool .pos conj fs))
    (hmem : ∀ f, f ∈ fs ↔ f ∈ gs) :
    (Formula.kind I).Becomes used n (.bool .pos conj fs) n (.bool .pos conj gs) := by
  refine becomes_of_holds (fit_bool_iff.mpr fun f hf => fit_bool_iff.mp h f ((hmem f).mpr hf))
    (fun v hv => ?_) (fun v hv => ?_) fun e => ?_
  · obtain ⟨f, hf, hv⟩ := mem_freeVars_bool.mp hv
    exact mem_freeVars_bool.mpr ⟨f, (hmem f).mpr hf, hv⟩
  · obtain ⟨f, hf, hv⟩ := mem_boundVars_bool.mp hv
    exact mem_boundVars_bool.mpr ⟨f, (hmem f).mpr hf, hv⟩
  · rw [holds_bool_pos, holds_bool_pos]
    exact (eachOf_of_mem_iff hmem).symm

theorem bool_single (h : (Formula.kind I).Fit used n (.bool .pos conj [f])) :
    (Formula.kind I).Becomes used n (.bool .pos conj [f]) n f := by
  refine becomes_of_holds (fit_bool_iff.mp h f (List.mem_singleton_self f))
    (fun v hv => mem_freeVars_bool.mpr ⟨f, List.mem_singleton_self f, hv⟩)
    (fun v hv => mem_boundVars_bool.mpr ⟨f, List.mem_singleton_self f, hv⟩) fun e => ?_
  rw [holds_bool_pos, eachOf_singleton]

theorem single_bool (h : (Formula.kind I).Fit used n f) :
    (Formula.kind I).Becomes used n f n (.bool .pos conj [f]) := by
  refine becomes_of_holds (fit_bool_iff.mpr (List.forall_mem_singleton.mpr h))
    (fun v hv => ?_) (fun v hv => ?_) fun e => ?_
  · obtain ⟨g, hg, hv⟩ := mem_freeVars_bool.mp hv
    exact List.mem_singleton.mp hg ▸ hv
  · obtain ⟨g, hg, hv⟩ := mem_boundVars_bool.mp hv
    exact List.mem_singleton.mp hg ▸ hv
  · rw [holds_bool_pos, eachOf_singleton]

theorem bool_flatMap {l : Formula S P F D → List (Formula S P F D)}
    (hl : ∀ f ∈ fs, (Formula.kind I).Becomes used n f n (.bool .pos conj (l f))) :
    (Formula.kind I).Becomes used n (.bool .pos conj fs) n (.bool .pos conj (fs.flatMap l)) := by
  have hfit : ∀ g ∈ fs.flatMap l, (Formula.kind I).Fit used n g := by
    intro g hg
    obtain ⟨f, hf, hg⟩ := List.mem_flatMap.mp hg
    exact fit_bool_iff.mp (hl f hf).fit g hg
  refine becomes_of_holds (fit_bool_iff.mpr hfit) (fun v hv => ?_) (fun v hv => ?_) fun e => ?_
  · obtain ⟨g, hg, hv⟩ := mem_freeVars_bool.mp hv
    obtain ⟨f, hf, hmem⟩ := List.mem_flatMap.mp hg
    have hfree : v ∈ (Formula.bool .pos conj (l f)).freeVars := mem_freeVars_bool.mpr ⟨g, hmem, hv⟩
    exact mem_freeVars_bool.mpr ⟨f, hf, freeVars_of_becomes (hl f hf) hfree⟩
  · obtain ⟨g, hg, hv⟩ := mem_boundVars_bool.mp hv
    obtain ⟨f, hf, hmem⟩ := List.mem_flatMap.mp hg
    have hbound : v ∈ (Formula.bool .pos conj (l f)).boundVars := mem_boundVars_bool.mpr ⟨g, hmem, hv⟩
    refine mem_boundVars_bool.mpr ⟨f, hf, (boundVars_of_becomes (hl f hf) hbound).resolve_right ?_⟩
    exact Nat.not_le.mpr ((hfit g hg).bound v hv)
  · rw [holds_bool_pos, holds_bool_pos, eachOf_flatMap]
    refine eachOf_congr fun f hf => ?_
    rw [← holds_bool_pos]
    exact holds_of_becomes (hl f hf) e

theorem bool_congr_last {n' : ℕ} {f' : Formula S P F D}
    (h : (Formula.kind I).Fit used n (.bool .pos conj (fs ++ [f])))
    (hf : (Formula.kind I).Becomes used n f n' f') :
    (Formula.kind I).Becomes used n (.bool .pos conj (fs ++ [f])) n' (.bool .pos conj (fs ++ [f'])) := by
  refine bool_congr h ?_
  have hfs := fit_bool_iff.mp h
  clear h
  induction fs with
  | nil => exact hf.cons (Kind.Becomes.refl (Kind.fit_list_iff.mpr fun _ hg => absurd hg List.not_mem_nil))
  | cons g fs ih =>
    obtain ⟨hg, hfs⟩ := List.forall_mem_cons.mp hfs
    exact (Kind.Becomes.refl hg).cons (ih hfs)

theorem fit_append_bool : (Formula.kind I).Fit used n (.bool .pos conj (fs ++ [.bool .pos conj gs])) ↔
    (Formula.kind I).Fit used n (.bool .pos conj (fs ++ gs)) := by
  simp only [fit_bool_iff, List.forall_mem_append, List.forall_mem_singleton]

theorem bool_nest (h : (Formula.kind I).Fit used n (.bool .pos conj (fs ++ gs))) :
    (Formula.kind I).Becomes used n (.bool .pos conj (fs ++ gs)) n
      (.bool .pos conj (fs ++ [.bool .pos conj gs])) := by
  refine becomes_of_holds (fit_append_bool.mpr h) (fun v hv => ?_) (fun v hv => ?_) fun e => ?_
  · simpa only [mem_freeVars_bool, List.mem_append, List.mem_singleton, or_and_right, exists_or,
      exists_eq_left] using hv
  · simpa only [mem_boundVars_bool, List.mem_append, List.mem_singleton, or_and_right, exists_or,
      exists_eq_left] using hv
  · rw [holds_bool_pos, holds_bool_pos, eachOf_append, eachOf_append, eachOf_singleton, holds_bool_pos]

theorem bool_unnest (h : (Formula.kind I).Fit used n (.bool .pos conj (fs ++ [.bool .pos conj gs]))) :
    (Formula.kind I).Becomes used n (.bool .pos conj (fs ++ [.bool .pos conj gs])) n
      (.bool .pos conj (fs ++ gs)) := by
  refine becomes_of_holds (fit_append_bool.mp h) (fun v hv => ?_) (fun v hv => ?_) fun e => ?_
  · simpa only [mem_freeVars_bool, List.mem_append, List.mem_singleton, or_and_right, exists_or,
      exists_eq_left] using hv
  · simpa only [mem_boundVars_bool, List.mem_append, List.mem_singleton, or_and_right, exists_or,
      exists_eq_left] using hv
  · rw [holds_bool_pos, holds_bool_pos, eachOf_append, eachOf_append, eachOf_singleton, holds_bool_pos]

theorem quant_members (ws : List (Variable S)) (h : (Formula.kind I).Fit used n (.quant .pos q vs f))
    (hmem : ∀ v, v ∈ ws ↔ v ∈ vs) :
    (Formula.kind I).Becomes used n (.quant .pos q vs f) n (.quant .pos q ws f) := by
  obtain ⟨hf, hvs⟩ := fit_quant_iff.mp h
  refine becomes_of_holds (fit_quant_iff.mpr ⟨hf, fun v hv => hvs v ((hmem v).mp hv)⟩)
    (fun v hv => ?_) (fun v hv => ?_) fun e => ?_
  · simpa only [mem_freeVars_quant, hmem] using hv
  · simpa only [mem_boundVars_quant, hmem] using hv
  · exact (holds_quant_restrict (fun v hv => (hmem v).mp hv)
      (fun v hv hn => absurd ((hmem v).mpr hv) hn) e).symm

theorem quant_split (vs ws : List (Variable S)) (hz : ∀ v, v ∈ zs ↔ v ∈ vs ∨ v ∈ ws) (hdisjoint : ∀ v ∈ vs, v ∉ ws)
    (h : (Formula.kind I).Fit used n (.quant .pos q zs f)) :
    (Formula.kind I).Becomes used n (.quant .pos q zs f) n (.quant .pos q vs (.quant .pos q ws f)) := by
  obtain ⟨hf, hzs⟩ := fit_quant_iff.mp h
  have hin : (Formula.kind I).Fit used n (.quant .pos q ws f) :=
    fit_quant_iff.mpr ⟨hf, fun v hv => hzs v ((hz v).mpr (Or.inr hv))⟩
  have hfit : (Formula.kind I).Fit used n (.quant .pos q vs (.quant .pos q ws f)) := by
    refine fit_quant_iff.mpr ⟨hin, fun v hv => ⟨fun hb => ?_, (hzs v ((hz v).mpr (Or.inl hv))).2⟩⟩
    exact (mem_boundVars_quant.mp hb).elim (hdisjoint v hv) (hzs v ((hz v).mpr (Or.inl hv))).1
  refine becomes_of_holds hfit (fun v hv => ?_) (fun v hv => ?_) fun e => ?_
  · simp only [mem_freeVars_quant, hz, not_or] at hv ⊢
    exact ⟨hv.1.1, hv.2, hv.1.2⟩
  · simpa only [mem_boundVars_quant, hz, or_assoc] using hv
  · exact (holds_of_becomes (quant_merge hz hfit) e).symm

end Laws

section Fresh

variable {used : S → Prop} {n : ℕ} {q : QUANT} {v w : Variable S} {f : Formula S P F D}

def replace (v w u : Variable S) : Variable S := if u = v then w else u

theorem substituted (v w : Variable S) :
    (∀ t : Term S P F D, t.prepared →
      (Term.kind I).Substituted v w t (t.substituteVarWithVar (replace v w))) ∧
    (∀ s : QuantSetExpr S P F D, s.prepared →
      (QuantSetExpr.kind I).Substituted v w s (s.substituteVarWithVar (replace v w))) ∧
    ∀ f : Formula S P F D, f.prepared →
      (Formula.kind I).Substituted v w f (f.substituteVarWithVar (replace v w)) := by
  have terms : ∀ {ts : List (Term S P F D)}, termsPrepared ts → (∀ t ∈ ts, t.prepared →
      (Term.kind I).Substituted v w t (t.substituteVarWithVar (replace v w))) →
      (Term.kind I).list.Substituted v w ts (substituteTerms (replace v w) ts) := fun hts h =>
    substituteTerms_eq_map (replace v w) _ ▸
      Kind.Substituted.list fun t ht => h t ht (termsPrepared_iff.mp hts t ht)
  have sets : ∀ {ss : List (QuantSetExpr S P F D)}, setsPrepared ss → (∀ s ∈ ss, s.prepared →
      (QuantSetExpr.kind I).Substituted v w s (s.substituteVarWithVar (replace v w))) →
      (QuantSetExpr.kind I).list.Substituted v w ss (substituteSets (replace v w) ss) := fun hss h =>
    substituteSets_eq_map (replace v w) _ ▸
      Kind.Substituted.list fun s hs => h s hs (setsPrepared_iff.mp hss s hs)
  refine Formula.induct ?_ ?_ ?_ ?_ ?_ ?_ ?_ ?_ ?_ ?_ ?_
  · refine fun u _ => ⟨fun _ => Iff.rfl, Iff.rfl, fun x hx => ?_, fun _ _ e => ?_⟩
    · rw [List.mem_singleton.mp hx, replace]
      split_ifs with hu
      · exact Or.inl rfl
      · exact Or.inr ⟨List.mem_singleton_self u, hu⟩
    · refine congrArg some ?_
      rw [replace]
      split_ifs with hu
      · rw [hu, Function.update_self]
      · rw [Function.update_of_ne hu]
  · exact fun f args ih h => (wraps_func f).substituted (terms h ih)
  · exact fun s d _ => ⟨fun _ => Iff.rfl, Iff.rfl, fun _ hu => absurd hu List.not_mem_nil, fun _ _ _ => rfl⟩
  · exact fun g ss ih h => (wraps_aggTerm g).substituted (sets h ih)
  · exact fun vars c t ihc iht h => (wraps_set vars).substituted ((iht h.2.2).pair (ihc h.2.1))
  · exact fun sign symbol args ih h => (wraps_pred sign symbol).substituted (terms h ih)
  · exact fun sign conj comps ts ih h => (wraps_eqChain sign conj comps).substituted (terms h ih)
  · exact fun sign l r ihl ihr h => (wraps_equiv sign).substituted ((ihl h.1).pair (ihr h.2))
  · rintro sign conj fs ih ⟨rfl, h⟩
    refine (wraps_bool conj).substituted (substituteFormulas_eq_map (replace v w) fs ▸ ?_)
    exact Kind.Substituted.list fun f hf => ih f hf (formulasPrepared_iff.mp h f hf)
  · rintro sign q vars f ih ⟨rfl, -, h⟩
    exact (wraps_quant q vars).substituted (ih h)
  · exact fun sign b comp g ss ihb ih h =>
      (wraps_agg sign comp g).substituted ((ihb h.1).pair (sets h.2 ih))

def transfer (hs : w.sort = v.sort) (a : I.Tuple [w]) : I.Tuple [v] :=
  ⟨fun _ => a.1 ⟨w, List.mem_singleton_self w⟩, fun u => by
    rw [List.mem_singleton.mp u.2, ← hs]
    exact a.2 ⟨w, List.mem_singleton_self w⟩⟩

theorem transfer_surjective (hs : w.sort = v.sort) :
    Function.Surjective (transfer hs : I.Tuple [w] → I.Tuple [v]) := fun b =>
  ⟨transfer hs.symm b, Subtype.ext (funext fun u =>
    congrArg b.1 (Subtype.ext (List.mem_singleton.mp u.2).symm))⟩

theorem quant_fresh (h : (Formula.kind I).Fit used n (.quant .pos q [v] f)) :
    (Formula.kind I).Becomes used n (.quant .pos q [v] f) (n + 1)
      (.quant .pos q [⟨n, v.sort⟩] (f.substituteVarWithVar (replace v ⟨n, v.sort⟩))) := by
  obtain ⟨hf, hv⟩ := fit_quant_iff.mp h
  obtain ⟨hvf, hvn, hvused⟩ := List.forall_mem_singleton.mp hv
  have hsub := (substituted (I := I) v ⟨n, v.sort⟩).2.2 f hf.prepared
  have hnew : (⟨n, v.sort⟩ : Variable S) ∉ f.boundVars := fun hb =>
    absurd (hf.bound _ hb) (Nat.lt_irrefl n)
  have hbound : ∀ u, u ∈ (f.substituteVarWithVar (replace v ⟨n, v.sort⟩)).boundVars ↔ u ∈ f.boundVars :=
    hsub.bound
  have hfree : ∀ u ∈ (f.substituteVarWithVar (replace v ⟨n, v.sort⟩)).freeVars,
      u = ⟨n, v.sort⟩ ∨ u ∈ f.freeVars ∧ u ≠ v := hsub.free
  refine becomes_intro (Nat.le_succ n) (fit_quant_iff.mpr ⟨⟨hsub.prepared.mpr hf.prepared,
    fun u hu => ?_, fun u hu => ?_, fun u hu => ?_⟩, ?_⟩) (fun u hu => ?_) (fun u hu => ?_) fun e => ?_
  · rcases hfree u hu with rfl | ⟨hu, -⟩
    · exact Nat.lt_succ_self n
    · exact Nat.lt_succ_of_lt (hf.free u hu)
  · exact Nat.lt_succ_of_lt (hf.bound u ((hbound u).mp hu))
  · exact hf.used u ((hbound u).mp hu)
  · exact List.forall_mem_singleton.mpr
      ⟨fun hb => hnew ((hbound _).mp hb), Nat.lt_succ_self n, hvused⟩
  · obtain ⟨hu, hun⟩ := mem_freeVars_quant.mp hu
    obtain ⟨hu, huv⟩ := (hfree u hu).resolve_left fun heq => hun (List.mem_singleton.mpr heq)
    exact mem_freeVars_quant.mpr ⟨hu, fun hmem => huv (List.mem_singleton.mp hmem)⟩
  · rcases mem_boundVars_quant.mp hu with hu | hu
    · exact Or.inr (List.mem_singleton.mp hu ▸ Nat.le_refl n)
    · exact Or.inl (mem_boundVars_quant.mpr (Or.inr ((hbound u).mp hu)))
  · refine (holds_quant_pos q _ _ e).trans (Iff.trans ?_ (holds_quant_pos q [v] f e).symm)
    have hs : (⟨n, v.sort⟩ : Variable S).sort = v.sort := rfl
    refine Iff.trans (each_congr fun a => ?_) (each_surjective (transfer_surjective (I := I) hs))
    refine (iff_of_eq (hsub.meaning hvf hnew _)).trans (agree.2.2 f _ _ fun u hu => ?_)
    by_cases huv : u = v
    · rw [huv, Function.update_self, extend_of_mem (List.mem_singleton_self _),
        extend_of_mem (List.mem_singleton_self v)]
      rfl
    · rw [Function.update_of_ne huv, extend_of_not_mem, extend_of_not_mem]
      · exact fun hmem => huv (List.mem_singleton.mp hmem)
      · exact fun hmem => absurd (hf.free u hu) (List.mem_singleton.mp hmem ▸ Nat.lt_irrefl n)

end Fresh

end Theory
