import DeclarativeLocalSearch.LazyGrounding.DelayedSentence

namespace LazyGrounding

open NaturalJoin

variable {Q D C : Type} {arity : Q → ℕ}

-- every container of the instantiation has been given a value
def FireInformation.Bound (info : FireInformation C D) : Prop :=
  ∀ c ∈ info.fullinstantiation, (info.containers c).isSome

-- what is undone: the instantiation is the one of before, and so are its values
structure Restored (saved : List C) (info r : FireInformation C D) : Prop where
  containers : ∀ c ∈ saved, r.containers c = info.containers c
  full : r.fullinstantiation = saved

theorem Restored.bound {info r : FireInformation C D} (h : Restored info.fullinstantiation info r)
    (hinfo : info.Bound) : r.Bound := by
  intro c hc
  rw [h.full] at hc
  rw [h.containers c hc]
  exact hinfo c hc

-- what a tuple asks of the containers of a conjunct
def Fits (places : List (C × SortTable D × D)) (τ : C → Option D) : Prop :=
  ∀ p ∈ places, τ p.1 = some p.2.2 ∧ p.2.1 p.2.2 = true

theorem fits_cons {c : C} {table : SortTable D} {d : D} {places : List (C × SortTable D × D)} {τ : C → Option D} :
    Fits ((c, table, d) :: places) τ ↔ (τ c = some d ∧ table d = true) ∧ Fits places τ := by
  simp [Fits]

section Values

variable [DecidableEq C] {info r : FireInformation C D}

theorem FireInformation.value_isSome (h : info.Bound) {c : C} :
    (info.value c).isSome ↔ c ∈ info.fullinstantiation := by
  unfold value
  split_ifs with hc
  · exact iff_of_true (h c hc) hc
  · simp [hc]

theorem FireInformation.value_eq {c : C} (hc : c ∈ info.fullinstantiation) : info.value c = info.containers c :=
  if_pos hc

theorem Restored.value (h : Restored info.fullinstantiation info r) : r.value = info.value := by
  funext c
  unfold FireInformation.value
  rw [h.full]
  split_ifs with hc
  · exact h.containers c hc
  · rfl

theorem set_containers {c c' : C} {d : D} :
    (info.set c d).containers c' = if c' = c then some d else info.containers c' :=
  Function.update_apply ..

theorem set_kept {c c' : C} {d : D} (hc : c ∉ info.fullinstantiation) (hc' : c' ∈ info.fullinstantiation) :
    c' ∈ (info.set c d).fullinstantiation ∧ (info.set c d).containers c' = info.containers c' := by
  have hne : c' ≠ c := fun h => hc (h ▸ hc')
  exact ⟨List.mem_cons_of_mem c hc', by rw [set_containers, if_neg hne]⟩

theorem set_bound (hbound : info.Bound) {c : C} {d : D} : (info.set c d).Bound := by
  intro c' hc'
  rw [set_containers]
  split_ifs with h
  · rfl
  · exact hbound c' ((List.mem_cons.mp hc').resolve_left h)

theorem extends_set {c : C} {d : D} {τ : C → Option D} (h : Extends info.value τ) (hd : τ c = some d) :
    Extends (info.set c d).value τ := by
  intro c' d' hc'
  have hmem : c' ∈ (info.set c d).fullinstantiation := by
    by_contra hnot
    rw [FireInformation.value, if_neg hnot] at hc'
    exact absurd hc' nofun
  have hvalue : (info.set c d).value c' = (info.set c d).containers c' := if_pos hmem
  rw [hvalue, set_containers] at hc'
  split_ifs at hc' with heq
  · rw [heq, hd, hc']
  · have hold : c' ∈ info.fullinstantiation := (List.mem_cons.mp hmem).resolve_left heq
    exact h c' d' ((FireInformation.value_eq hold).trans hc')

end Values

section Bind

variable [DecidableEq C] [DecidableEq D] {places : List (C × SortTable D × D)} {changed : Bool}
  {info : FireInformation C D} {r : Bool × Bool × FireInformation C D}

structure BindSpec (places : List (C × SortTable D × D)) (changed : Bool) (info : FireInformation C D)
    (r : Bool × Bool × FireInformation C D) : Prop where
  grounded : r.2.2.grounded = info.grounded
  done : r.2.2.done = info.done
  bound : r.2.2.Bound
  kept : ∀ c ∈ info.fullinstantiation, c ∈ r.2.2.fullinstantiation ∧ r.2.2.containers c = info.containers c
  unchanged : r.2.1 = false → changed = false ∧ r.2.2.fullinstantiation = info.fullinstantiation
  valid : r.1 = true → Fits places r.2.2.value ∧
    ∀ c, c ∈ r.2.2.fullinstantiation ↔ c ∈ info.fullinstantiation ∨ c ∈ places.map Prod.fst
  invalid : r.1 = false → ∀ τ, Extends info.value τ → ¬ Fits places τ

theorem bind_spec (hbound : info.Bound) : BindSpec places changed info (info.bind places changed) := by
  induction places generalizing info changed with
  | nil =>
    refine ⟨rfl, rfl, hbound, fun c hc => ⟨hc, rfl⟩, fun h => ⟨h, rfl⟩, fun _ => ⟨nofun, fun c => ?_⟩, nofun⟩
    rw [List.map_nil, or_iff_left List.not_mem_nil]
    exact Iff.rfl
  | cons place places ih =>
    obtain ⟨container, table, d⟩ := place
    rw [FireInformation.bind]
    by_cases hmem : container ∈ info.fullinstantiation
    · rw [if_pos hmem]
      by_cases hvalue : info.containers container = some d
      · rw [if_neg (not_not.mpr hvalue)]
        by_cases htable : table d = true
        · rw [if_pos htable]
          have hspec := @ih changed info hbound
          refine ⟨hspec.grounded, hspec.done, hspec.bound, hspec.kept, hspec.unchanged, fun h => ?_, fun h τ hτ => ?_⟩
          · obtain ⟨hfits, hfull⟩ := hspec.valid h
            obtain ⟨hin, hkept⟩ := hspec.kept container hmem
            refine ⟨fits_cons.mpr ⟨⟨?_, htable⟩, hfits⟩, fun c => ?_⟩
            · rw [FireInformation.value_eq hin, hkept, hvalue]
            · rw [hfull, List.map_cons, List.mem_cons]
              constructor
              · exact Or.imp_right Or.inr
              · rintro (h | rfl | h)
                · exact Or.inl h
                · exact Or.inl hmem
                · exact Or.inr h
          · exact fun hfits => hspec.invalid h τ hτ (fits_cons.mp hfits).2
        · rw [if_neg htable]
          exact ⟨rfl, rfl, hbound, fun c hc => ⟨hc, rfl⟩, fun h => ⟨h, rfl⟩, nofun,
            fun _ τ _ hfits => htable (fits_cons.mp hfits).1.2⟩
      · rw [if_pos hvalue]
        refine ⟨rfl, rfl, hbound, fun c hc => ⟨hc, rfl⟩, fun h => ⟨h, rfl⟩, nofun, fun _ τ hτ hfits => hvalue ?_⟩
        have hsome := hbound container hmem
        obtain ⟨e, he⟩ := Option.isSome_iff_exists.mp hsome
        have hτe := hτ container e ((FireInformation.value_eq hmem).trans he)
        rw [he, ← hτe, (fits_cons.mp hfits).1.1]
    · rw [if_neg hmem]
      have hbound' : (info.set container d).Bound := set_bound hbound
      have hset : (info.set container d).containers container = some d := by rw [set_containers, if_pos rfl]
      split_ifs with htable
      · have hspec := @ih true (info.set container d) hbound'
        refine ⟨hspec.grounded, hspec.done, hspec.bound, fun c hc => ?_, fun h => ?_, fun h => ?_, fun h τ hτ => ?_⟩
        · obtain ⟨hin, hkept⟩ := set_kept (d := d) hmem hc
          obtain ⟨hin', hkept'⟩ := hspec.kept c hin
          exact ⟨hin', hkept'.trans hkept⟩
        · exact absurd (hspec.unchanged h).1 nofun
        · obtain ⟨hfits, hfull⟩ := hspec.valid h
          obtain ⟨hin, hkept⟩ := hspec.kept container List.mem_cons_self
          refine ⟨fits_cons.mpr ⟨⟨?_, htable⟩, hfits⟩, fun c => ?_⟩
          · rw [FireInformation.value_eq hin, hkept, hset]
          · rw [hfull, List.map_cons, List.mem_cons, FireInformation.set, List.mem_cons, or_assoc, or_left_comm]
        · intro hfits
          obtain ⟨⟨hd, -⟩, hrest⟩ := fits_cons.mp hfits
          exact hspec.invalid h τ (extends_set hτ hd) hrest
      · refine ⟨rfl, rfl, hbound', fun c hc => set_kept hmem hc, nofun, nofun, fun _ τ _ hfits => ?_⟩
        exact htable (fits_cons.mp hfits).1.2

end Bind

def ContainerAtom.Contains (conjunct : ContainerAtom arity D C) (tuple : List D) : Prop :=
  ∀ p ∈ conjunct.tables.zip tuple, p.1 p.2 = true

-- the tuples of a conjunct that lie in its tables
def ContainerAtom.relation (conjunct : ContainerAtom arity D C) (tuples : List (List D)) : Relation C D :=
  ⟨conjunct.args, {t | t ∈ tuples ∧ conjunct.Contains t}⟩

theorem fits_zip {args : List C} {tables : List (SortTable D)} {tuple : List D} {τ : C → Option D}
    (htables : tables.length = args.length) (htuple : tuple.length = args.length) :
    Fits (args.zip (tables.zip tuple)) τ ↔
      args.map τ = tuple.map some ∧ ∀ p ∈ tables.zip tuple, p.1 p.2 = true := by
  induction args generalizing tables tuple with
  | nil =>
    obtain rfl := List.eq_nil_of_length_eq_zero htables
    obtain rfl := List.eq_nil_of_length_eq_zero htuple
    exact iff_of_true nofun ⟨rfl, nofun⟩
  | cons c args ih =>
    cases tables with
    | nil => simp at htables
    | cons table tables =>
      cases tuple with
      | nil => simp at htuple
      | cons d tuple =>
        rw [List.zip_cons_cons, List.zip_cons_cons, fits_cons, ih (by simpa using htables) (by simpa using htuple)]
        simp only [List.map_cons, List.cons.injEq, List.mem_cons, forall_eq_or_imp]
        tauto

theorem ContainerAtom.fits_iff {conjunct : ContainerAtom arity D C} {tuple : List D}
    (htuple : tuple.length = arity conjunct.symbol) {τ : C → Option D} :
    Fits (conjunct.args.zip (conjunct.tables.zip tuple)) τ ↔
      conjunct.args.map τ = tuple.map some ∧ conjunct.Contains tuple :=
  fits_zip (conjunct.tables_length.trans conjunct.args_length.symm) (htuple.trans conjunct.args_length.symm)

-- from s to r the sentence is grounded for what the target asks for, or done
structure Grounds (target : (C → Option D) → Prop) (s r : FireInformation C D) : Prop where
  sound : ∀ τ ∈ r.grounded, τ ∈ s.grounded ∨ target τ
  kept : ∀ τ ∈ s.grounded, τ ∈ r.grounded
  complete : r.done = false → ∀ τ, target τ → τ ∈ r.grounded
  restored : r.done = false → Restored s.fullinstantiation s r

theorem Grounds.trans {P P' : (C → Option D) → Prop} {s m r : FireInformation C D}
    (h : Grounds P s m) (h' : Grounds P' m r) (hm : r.done = false → m.done = false) :
    Grounds (fun τ => P τ ∨ P' τ) s r where
  sound := fun τ hτ => (h'.sound τ hτ).elim (fun hmem => (h.sound τ hmem).imp_right Or.inl) fun hP => Or.inr (Or.inr hP)
  kept := fun τ hτ => h'.kept τ (h.kept τ hτ)
  complete := fun hr τ hτ =>
    hτ.elim (fun hP => h'.kept τ (h.complete (hm hr) τ hP)) fun hP => h'.complete hr τ hP
  restored := fun hr => by
    have hfirst := h.restored (hm hr)
    have hsecond := h'.restored hr
    exact ⟨fun c hc => (hsecond.containers c (hfirst.full ▸ hc)).trans (hfirst.containers c hc),
      hsecond.full.trans hfirst.full⟩

theorem Grounds.congr {P P' : (C → Option D) → Prop} {s r : FireInformation C D} (h : Grounds P s r)
    (hP : ∀ τ, P τ ↔ P' τ) : Grounds P' s r := by
  obtain rfl : P = P' := funext fun τ => propext (hP τ)
  exact h

theorem restore_eq {saved : List C} {changed : Bool} {info : FireInformation C D}
    (h : changed = false → info.fullinstantiation = saved) :
    (if changed then info.restore saved else info) = info.restore saved := by
  cases changed with
  | true => rfl
  | false => rw [FireInformation.restore, ← h rfl]; rfl

theorem completes_relation_cons {conjunct : ContainerAtom arity D C} {relations : List (Relation C D)}
    {σ τ : C → Option D} {tuple : List D} {tuples : List (List D)} :
    Completes σ (conjunct.relation (tuple :: tuples) :: relations) τ ↔
      conjunct.Contains tuple ∧ Completes σ (⟨conjunct.args, {tuple}⟩ :: relations) τ ∨
        Completes σ (conjunct.relation tuples :: relations) τ := by
  rw [completes_cons, completes_cons (r := conjunct.relation tuples)]
  constructor
  · rintro ⟨t, ⟨ht, hcontains⟩, h⟩
    rcases List.mem_cons.mp ht with rfl | ht
    · exact Or.inl ⟨hcontains, h⟩
    · exact Or.inr ⟨t, ⟨ht, hcontains⟩, h⟩
  · rintro (⟨hcontains, h⟩ | ⟨t, ⟨ht, hcontains⟩, h⟩)
    · exact ⟨tuple, ⟨List.mem_cons_self, hcontains⟩, h⟩
    · exact ⟨t, ⟨List.mem_cons_of_mem _ ht, hcontains⟩, h⟩

section Restore

variable [DecidableEq C] {conjunct : ContainerAtom arity D C} {relations : List (Relation C D)}

theorem bind_valid {info : FireInformation C D} {tuple : List D} (hbound : info.Bound)
    (htuple : tuple.length = arity conjunct.symbol) {r : Bool × Bool × FireInformation C D}
    (hr : BindSpec (conjunct.args.zip (conjunct.tables.zip tuple)) false info r) (hvalid : r.1 = true) :
    conjunct.Contains tuple ∧ Binds info.value conjunct.args tuple r.2.2.value := by
  obtain ⟨hfits, hfull⟩ := hr.valid hvalid
  obtain ⟨hmatch, hcontains⟩ := (ContainerAtom.fits_iff htuple).mp hfits
  have hnames : (conjunct.args.zip (conjunct.tables.zip tuple)).map Prod.fst = conjunct.args := by
    rw [List.map_fst_zip]
    rw [List.length_zip, conjunct.tables_length, htuple, conjunct.args_length, min_self]
  refine ⟨hcontains, fun c d hc => ?_, fun c => ?_, hmatch⟩
  · have hmem : c ∈ info.fullinstantiation := (FireInformation.value_isSome hbound).mp (by rw [hc, Option.isSome_some])
    obtain ⟨hin, hkept⟩ := hr.kept c hmem
    rw [FireInformation.value_eq hin, hkept, ← FireInformation.value_eq hmem, hc]
  · rw [FireInformation.value_isSome hr.bound, FireInformation.value_isSome hbound, hfull, hnames]

theorem bind_invalid {info : FireInformation C D} {tuple : List D} (htuple : tuple.length = arity conjunct.symbol)
    {r : Bool × Bool × FireInformation C D}
    (hr : BindSpec (conjunct.args.zip (conjunct.tables.zip tuple)) false info r) (hinvalid : r.1 = false)
    {τ : C → Option D} (hcontains : conjunct.Contains tuple) :
    ¬ Completes info.value (⟨conjunct.args, {tuple}⟩ :: relations) τ := by
  intro h
  obtain ⟨t, rfl, hmatch⟩ := h.matched _ List.mem_cons_self
  exact hr.invalid hinvalid τ h.extending ((ContainerAtom.fits_iff htuple).mpr ⟨hmatch, hcontains⟩)

theorem restored_after {saved : List C} {info m : FireInformation C D} {r : Bool × Bool × FireInformation C D}
    {places : List (C × SortTable D × D)} (hr : BindSpec places false info r)
    (hfull : info.fullinstantiation = saved) (hm : Restored r.2.2.fullinstantiation r.2.2 m) :
    Restored saved info (m.restore saved) where
  containers := by
    intro c hc
    obtain ⟨hin, hkept⟩ := hr.kept c (hfull ▸ hc)
    exact (hm.containers c hin).trans hkept
  full := rfl

theorem run_grounds (groundersdone : List (C → Option D) → Bool) {info : FireInformation C D} :
    Grounds (Completes info.value []) info (info.run groundersdone) where
  sound := fun _ hτ => (List.mem_append.mp hτ).imp_right fun h => completes_nil.mpr (List.mem_singleton.mp h)
  kept := fun _ hτ => List.mem_append_left _ hτ
  complete := fun _ _ hτ => List.mem_append_right _ (List.mem_singleton.mpr (completes_nil.mp hτ))
  restored := fun _ => ⟨fun _ _ => rfl, rfl⟩

end Restore

section Loop

variable [DecidableEq C] [DecidableEq D] {conjunct : ContainerAtom arity D C}
  {relations : List (Relation C D)} {next : FireInformation C D → FireInformation C D}

theorem fireTuples_grounds (hnext : ∀ u : FireInformation C D, u.Bound → u.done = false →
      Grounds (Completes u.value relations) u (next u)) {tuples : List (List D)} :
    ∀ {changed : Bool} {saved : List C} {info : FireInformation C D}, info.done = false →
      (info.restore saved).Bound → (changed = false → info.fullinstantiation = saved) →
      (∀ t ∈ tuples, t.length = arity conjunct.symbol) →
      Grounds (Completes (info.restore saved).value (conjunct.relation tuples :: relations)) (info.restore saved)
        (FireInformation.fireTuples next conjunct saved tuples changed info) := by
  induction tuples with
  | nil =>
    intro changed saved info _ _ _ _
    refine ⟨fun τ hτ => Or.inl hτ, fun τ hτ => hτ, fun _ τ hτ => ?_, fun _ => ⟨fun c _ => rfl, rfl⟩⟩
    obtain ⟨t, ⟨ht, -⟩, -⟩ := hτ.matched _ List.mem_cons_self
    exact absurd ht List.not_mem_nil
  | cons tuple tuples ih =>
    intro changed saved info hdone hbound hchanged htuples
    have htuple : tuple.length = arity conjunct.symbol := htuples tuple List.mem_cons_self
    have hrest : ∀ t ∈ tuples, t.length = arity conjunct.symbol := fun t ht => htuples t (List.mem_cons_of_mem _ ht)
    rw [FireInformation.fireTuples, restore_eq hchanged]
    have hr : BindSpec (conjunct.args.zip (conjunct.tables.zip tuple)) false (info.restore saved) _ :=
      bind_spec hbound
    generalize (info.restore saved).bind (conjunct.args.zip (conjunct.tables.zip tuple)) false = r at hr
    generalize hu : info.restore saved = u at hbound hr
    have hufull : u.fullinstantiation = saved := hu ▸ rfl
    have hudone : u.done = false := hu ▸ hdone
    -- what the tuple grounds, and the rest of the tuples after it
    have hafter : ∀ {P : (C → Option D) → Prop} {m : FireInformation C D} {changed' : Bool}, m.done = false →
        Grounds P r.2.2 m → (changed' = false → m.fullinstantiation = saved) →
        Grounds (fun τ => P τ ∨ Completes u.value (conjunct.relation tuples :: relations) τ) u
          (FireInformation.fireTuples next conjunct saved tuples changed' m) := by
      intro P m changed' hm hP hchanged'
      have hback := restored_after hr hufull (hP.restored hm)
      have hbacku : Restored u.fullinstantiation u (m.restore saved) := hufull.symm ▸ hback
      have hvalue : (m.restore saved).value = u.value := hbacku.value
      have hrec := ih hm (hbacku.bound hbound) hchanged' hrest
      rw [hvalue] at hrec
      have hfirst : Grounds P u (m.restore saved) := by
        refine ⟨fun τ hτ => ?_, fun τ hτ => ?_, fun _ τ hτ => hP.complete hm τ hτ, fun _ => hbacku⟩
        · exact hr.grounded ▸ hP.sound τ hτ
        · exact hP.kept τ (hr.grounded.symm ▸ hτ)
      exact hfirst.trans hrec fun _ => hm
    cases hvalid : r.1 with
    | true =>
      obtain ⟨hcontains, hbinds⟩ := bind_valid hbound htuple hr hvalid
      have htarget : ∀ τ, Completes u.value (conjunct.relation (tuple :: tuples) :: relations) τ ↔
          Completes r.2.2.value relations τ ∨ Completes u.value (conjunct.relation tuples :: relations) τ := fun τ => by
        rw [completes_relation_cons, completes_tuple hbinds, and_iff_right hcontains]
      have hgrounds := hnext r.2.2 hr.bound (hr.done.trans hudone)
      simp only [hvalid, if_true]
      by_cases hm : (next r.2.2).done = true
      · rw [if_pos hm]
        refine ⟨fun τ hτ => ?_, fun τ hτ => hgrounds.kept τ (hr.grounded.symm ▸ hτ), ?_, ?_⟩
        · exact (hr.grounded ▸ hgrounds.sound τ hτ).imp_right fun h => (htarget τ).mpr (Or.inl h)
        · exact fun h => absurd (hm.symm.trans h) nofun
        · exact fun h => absurd (hm.symm.trans h) nofun
      · have hm' := eq_false_of_ne_true hm
        rw [if_neg hm]
        refine (hafter hm' hgrounds fun h => ?_).congr fun τ => (htarget τ).symm
        rw [(hgrounds.restored hm').full, (hr.unchanged h).2, hufull]
    | false =>
      have htarget : ∀ τ, Completes u.value (conjunct.relation (tuple :: tuples) :: relations) τ ↔
          False ∨ Completes u.value (conjunct.relation tuples :: relations) τ := fun τ => by
        rw [completes_relation_cons]
        exact or_congr_left (iff_of_false (fun h => bind_invalid htuple hr hvalid h.1 h.2) id)
      have hsame : Grounds (fun _ => False) r.2.2 r.2.2 :=
        ⟨fun τ hτ => Or.inl hτ, fun τ hτ => hτ, fun _ _ => False.elim, fun _ => ⟨fun _ _ => rfl, rfl⟩⟩
      simp only [hvalid, Bool.false_eq_true, if_false]
      refine (hafter (hr.done.trans hudone) hsame fun h => ?_).congr fun τ => (htarget τ).symm
      rw [(hr.unchanged h).2, hufull]

section RecursiveFire

variable (groundersdone : List (C → Option D) → Bool) (firedLits : Q → Bool → List (List D)) (firedindex : ℕ)
  (tuplefired : List D)

def tuplesAt (conjunct : ContainerAtom arity D C) (index : ℕ) : List (List D) :=
  if firedindex = index then [tuplefired] else firedLits conjunct.symbol conjunct.watchedvalue

def relationsFrom (conjunction : List (ContainerAtom arity D C)) (index : ℕ) : List (Relation C D) :=
  (conjunction.zipIdx index).map fun c => c.1.relation (tuplesAt firedLits firedindex tuplefired c.1 c.2)

theorem recursiveFire_grounds {conjunction : List (ContainerAtom arity D C)} :
    ∀ {index : ℕ} {info : FireInformation C D}, info.Bound →
      (∀ c i, (c, i) ∈ conjunction.zipIdx index →
        ∀ t ∈ tuplesAt firedLits firedindex tuplefired c i, t.length = arity c.symbol) →
      Grounds (Completes info.value (relationsFrom firedLits firedindex tuplefired conjunction index)) info
        (FireInformation.recursiveFire groundersdone firedLits firedindex tuplefired conjunction index info) := by
  induction conjunction with
  | nil => exact fun _ _ => run_grounds groundersdone
  | cons conjunct conjunction ih =>
    intro index info hbound hlength
    rw [FireInformation.recursiveFire]
    by_cases hdone : info.done = true
    · rw [if_pos hdone]
      exact ⟨fun _ hτ => Or.inl hτ, fun _ hτ => hτ, fun h => absurd (hdone.symm.trans h) nofun,
        fun h => absurd (hdone.symm.trans h) nofun⟩
    · rw [if_neg hdone]
      rw [List.zipIdx_cons] at hlength
      have hnext : ∀ u : FireInformation C D, u.Bound → u.done = false → _ := fun u hu _ =>
        @ih (index + 1) _ hu fun c i hc => hlength c i (List.mem_cons_of_mem _ hc)
      exact (@fireTuples_grounds _ _ _ _ _ _ _ _ _ hnext _ _ info.fullinstantiation _) (eq_false_of_ne_true hdone) hbound
        (fun _ => rfl) (hlength conjunct index List.mem_cons_self)

end RecursiveFire

end Loop

end LazyGrounding
