import DeclarativeLocalSearch.Propagation.Propagator
import DeclarativeLocalSearch.Theory.NormalFormPasses

namespace Propagation

open Theory Structure

variable {N S P F D : Type}

namespace Network

variable [DecidableEq N] [DecidableEq S] {X : Network N S P F D} {K : FOPropDomainFactory S P F D}
  {T : ThreeValued S P F D} (W : K.Means T)

section Atoms

variable {I : Structure S P F D} {sign : SIGN} {symbol : PFSymbol S P F} {vars : List (Variable S)}

theorem atomVariables_map : atomVariables (.pred sign symbol (vars.map .var) : Formula S P F D) = vars := by
  induction vars with
  | nil => rfl
  | cons v vars ih => exact congrArg (v :: ·) ih

theorem freeVars_map : (Formula.pred sign symbol (vars.map .var) : Formula S P F D).freeVars = vars := by
  induction vars with
  | nil => rfl
  | cons v vars ih => exact congrArg (v :: ·) ih

theorem values_map (e : Variable S → D) : I.values (vars.map .var) e = (vars.map e).map some := by
  rw [values_eq_map, List.map_map, List.map_map]
  rfl

theorem holds_map (e : Variable S → D) :
    I.holds (.pred sign symbol (vars.map .var)) e ↔ sign.apply (I.atom symbol (vars.map e)) := by
  have happlied : I.applied symbol (I.values (vars.map .var) e) ↔ I.atom symbol (vars.map e) := by
    rw [values_map]
    refine ⟨fun ⟨ds, hds, h⟩ => ?_, fun h => ⟨_, rfl, h⟩⟩
    rw [List.map_injective_iff.mpr (Option.some_injective D) hds]
    exact h
  exact iff_of_eq (congrArg sign.apply (propext happlied))

end Atoms

section Connect

theorem holds_equality {I : Structure S P F D} {v w : Variable S} {e : Variable S → D} :
    I.holds (.eqChain .pos true [.eq] [.var v, .var w]) e ↔ e v = e w := by
  have hchain : I.holds (.eqChain .pos true [.eq] [.var v, .var w]) e ↔
      (∃ d, some (e v) = some d ∧ some (e w) = some d) ∧ true = true := Iff.rfl
  rw [hchain]
  constructor
  · rintro ⟨⟨d, hv, hw⟩, -⟩
    exact Option.some.inj (hv.trans hw.symm)
  · exact fun h => ⟨⟨e v, rfl, congrArg some h.symm⟩, rfl⟩

theorem holds_sort {I : Structure S P F D} {s : S} {v : Variable S} {e : Variable S → D} :
    I.holds (.pred .pos (.sort s) [.var v]) e ↔ I.sort s (e v) := by
  have hatom := @holds_map S P F D _ I .pos (.sort s) [v] e
  refine hatom.trans ⟨?_, fun h => ⟨e v, rfl, h⟩⟩
  rintro ⟨d, hd, h⟩
  exact List.singleton_inj.mp hd ▸ h

theorem checkSort_means {d : K.Domain} {c x : Variable S} {e : Variable S → D}
    (h : W.meaning (checkSort K d c x) e) : W.meaning d e ∧ (x.sort ≠ c.sort → T.base.sort x.sort (e c)) := by
  rw [checkSort] at h
  split_ifs at h with hsort
  · obtain ⟨hd, hs⟩ := (W.conjunction _ _ e).mp h
    exact ⟨hd, fun _ => holds_sort.mp ((W.formuladomain _ e).mp hs)⟩
  · exact ⟨h, fun hne => absurd hne hsort⟩

theorem connectVariable_means {data data' : K.Domain × List (Variable S × Variable S)} {c x : Variable S}
    (h : connectVariable K data c x = data') :
    (∃ w, data'.2.lookup x = some w ∧ ∀ e, W.meaning data'.1 e → W.meaning data.1 e ∧ e c = e w) ∧
    (∀ y w, data.2.lookup y = some w → data'.2.lookup y = some w) ∧
    ∀ y w, data'.2.lookup y = some w → data.2.lookup y = some w ∨ (y = x ∧ w = c) := by
  subst h
  rw [connectVariable]
  cases hlookup : data.2.lookup x with
  | some other =>
    refine ⟨⟨other, hlookup, fun e he => ?_⟩, fun y w h => h, fun y w h => Or.inl h⟩
    obtain ⟨hd, heq⟩ := (W.conjunction _ _ e).mp he
    exact ⟨hd, holds_equality.mp ((W.formuladomain _ e).mp heq)⟩
  | none =>
    have hnew : ∀ y, (data.2 ++ [(x, c)]).lookup y = (data.2.lookup y).or (if y = x then some c else none) := by
      intro y
      rw [List.lookup_append]
      congr 1
      by_cases hyx : y = x
      · simp [hyx]
      · have hne : (y == x) = false := by simpa using hyx
        simp [List.lookup, hne, hyx]
    refine ⟨⟨c, ?_, fun e he => ⟨he, rfl⟩⟩, fun y w h => ?_, fun y w h => ?_⟩
    · rw [hnew, hlookup, if_pos rfl, Option.none_or]
    · rw [hnew, h, Option.some_or]
    · rw [hnew] at h
      cases hy : data.2.lookup y with
      | some w' =>
        rw [hy, Option.some_or] at h
        exact Or.inl h
      | none =>
        rw [hy, Option.none_or] at h
        split_ifs at h with hyx
        exact Or.inr ⟨hyx, (Option.some.inj h).symm⟩

theorem connectVariables_means {l : List (Variable S × Variable S)}
    {data data' : K.Domain × List (Variable S × Variable S)} (h : connectVariables K l data = data') :
    (∀ e, W.meaning data'.1 e → W.meaning data.1 e ∧ ∀ p ∈ l, ∃ w, data'.2.lookup p.2 = some w ∧ e p.1 = e w ∧
      (p.2.sort ≠ p.1.sort → T.base.sort p.2.sort (e p.1))) ∧
    (∀ y w, data.2.lookup y = some w → data'.2.lookup y = some w) ∧
    ∀ y w, data'.2.lookup y = some w → data.2.lookup y = some w ∨ (w, y) ∈ l := by
  induction l generalizing data with
  | nil =>
    subst h
    exact ⟨fun e he => ⟨he, nofun⟩, fun y w h => h, fun y w h => Or.inl h⟩
  | cons p l ih =>
    obtain ⟨c, x⟩ := p
    obtain ⟨hmeans, hkeep, hfrom⟩ := ih h
    obtain ⟨⟨w, hw, hequal⟩, hkeep', hfrom'⟩ := @connectVariable_means S P F D _ K T W data _ c x rfl
    refine ⟨fun e he => ?_, fun y w h => hkeep y w (hkeep' y w h), fun y w h => ?_⟩
    · obtain ⟨he, hrest⟩ := hmeans e he
      obtain ⟨he, hsort⟩ := checkSort_means W he
      obtain ⟨he, heq⟩ := hequal e he
      exact ⟨he, List.forall_mem_cons.mpr ⟨⟨w, hkeep x w hw, heq, hsort⟩, hrest⟩⟩
    · rcases hfrom y w h with h | h
      · rcases hfrom' y w h with h | ⟨rfl, rfl⟩
        · exact Or.inl h
        · exact Or.inr List.mem_cons_self
      · exact Or.inr (List.mem_cons_of_mem _ h)

end Connect

end Network

end Propagation
