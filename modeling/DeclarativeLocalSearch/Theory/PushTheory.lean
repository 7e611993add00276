import DeclarativeLocalSearch.Theory.PushCompletely
import DeclarativeLocalSearch.Theory.Rules

namespace Theory

open Quantified Structure

variable {S P F D : Type} [DecidableEq S]

def Rule.headVars (r : Rule S P F D) : List (Variable S) := termsFreeVars r.args

namespace PushQuantifications

variable (order : SetOrder S)

def visitRule (r : Rule S P F D) (n : ℕ) : Rule S P F D × ℕ :=
  let bodyonlyvars := r.quantVars.filter fun v => v ∉ r.headVars ∧ v ∈ r.body.freeVars
  let rem := r.quantVars.filter fun v => v ∈ r.headVars
  let body := if bodyonlyvars = [] then r.body else .quant .pos .exist bodyonlyvars r.body
  let body := (visitor order).visit body n
  ({ r with quantVars := rem, body := body.1 }, body.2)

end PushQuantifications

namespace PushQuantificationsCompletely

variable (order : SetOrder S)

-- the variables that cannot be pushed, and the body
def pushBodyVars : List (Variable S) → Formula S P F D → ℕ → List (Variable S) × Formula S P F D × ℕ
  | [], body, n => ([], body, n)
  | v :: vs, body, n =>
    match pushQuantifiedVariableThrough v false body n with
    | some (body, n) => pushBodyVars vs body n
    | none =>
      let rest := pushBodyVars vs body n
      (v :: rest.1, rest.2)

def visitRule (r : Rule S P F D) (n : ℕ) : Rule S P F D × ℕ :=
  let body := (visitor order).visit r.body n
  let vars := order.elements r.quantVars
  let pushed := pushBodyVars (vars.filter fun v => v ∉ r.headVars) body.1 body.2
  let rem := vars.filter fun v => v ∈ r.headVars
  if pushed.1 = [] then
    let body := visitInPlace order pushed.2.1 pushed.2.2
    ({ r with body := body.1 }, body.2)
  else
    let body := visitInPlace order (.quant .pos .exist pushed.1 pushed.2.1) pushed.2.2
    ({ r with quantVars := rem, body := body.1 }, body.2)

end PushQuantificationsCompletely

def pushQuantifications (order : SetOrder S) : Theory S P F D → ℕ → Theory S P F D × ℕ :=
  visitTheory (PushQuantifications.visitor order).visit (PushQuantifications.visitRule order)

def pushQuantificationsCompletely (order : SetOrder S) : Theory S P F D → ℕ → Theory S P F D × ℕ :=
  visitTheory (PushQuantificationsCompletely.visitor order).visit
    (PushQuantificationsCompletely.visitRule order)

variable {I : Structure S P F D} {used : S → Prop} {n n' : ℕ} {r : Rule S P F D}
  {rem others : List (Variable S)} {e : Variable S → D} {ds : List D}

def Rule.Fit (I : Structure S P F D) (used : S → Prop) (n : ℕ) (r : Rule S P F D) : Prop :=
  (Formula.kind I).Fit used n (.quant .pos .exist r.quantVars r.body)

theorem derives_split (ds : List D) (hz : ∀ v, v ∈ r.quantVars ↔ v ∈ rem ∨ v ∈ others)
    (hothers : ∀ v ∈ others, v ∉ r.headVars) :
    I.derives r e ds ↔
      I.derives { r with quantVars := rem, body := .quant .pos .exist others r.body } e ds := by
  have hmerge := each_merge (I := I) (e := e) false hz fun e =>
    I.values r.args e = ds.map some ∧ I.holds r.body e
  refine hmerge.symm.trans (exists_congr fun a => ?_)
  have hargs : ∀ b : I.Tuple others, I.values r.args (I.extend (I.extend e a) b) =
      I.values r.args (I.extend e a) := fun b =>
    values_congr fun t ht => agree.1 t _ _ fun v hv => extend_of_not_mem
      (fun hmem => hothers v hmem (mem_termsFreeVars.mpr ⟨t, ht, hv⟩)) _ b
  have hbody : I.holds (.quant .pos .exist others r.body) (I.extend e a) ↔
      ∃ b : I.Tuple others, I.holds r.body (I.extend (I.extend e a) b) := holds_quant_pos _ _ _ _
  refine Iff.trans (exists_congr fun b => ?_) (exists_and_left.trans (and_congr_right fun _ => hbody.symm))
  rw [hargs]

theorem derives_congr {body body' : Formula S P F D} (h : ∀ e, I.holds body e ↔ I.holds body' e) :
    I.derives { r with body := body } e ds ↔ I.derives { r with body := body' } e ds :=
  exists_congr fun _ => and_congr_right fun _ => h _

def Rule.bodyVars (r : Rule S P F D) : List (Variable S) := r.quantVars.filter (· ∉ r.headVars)

theorem mem_bodyVars {v : Variable S} : v ∈ r.bodyVars ↔ v ∈ r.quantVars ∧ v ∉ r.headVars := by
  simp [Rule.bodyVars]

section Body

variable {body : Formula S P F D} (hrem : ∀ v, v ∈ rem ↔ v ∈ r.quantVars ∧ v ∈ r.headVars)
  (h : ∀ p f, (Formula.kind (I.reinterpret p f)).Becomes used n (.quant .pos .exist r.bodyVars r.body)
    n' body)

include h

theorem freeVars_of_body {v : Variable S} (hv : v ∈ body.freeVars) :
    v ∈ r.body.freeVars ∧ v ∉ r.bodyVars :=
  mem_freeVars_quant.mp (freeVars_of_becomes (h I.predicate I.function) hv)

include hrem

theorem operator_of_body : ({ r with quantVars := rem, body := body } : Rule S P F D).operator I =
    r.operator I := by
  have hz : ∀ v, v ∈ r.quantVars ↔ v ∈ rem ∨ v ∈ r.bodyVars := fun v => by
    rw [hrem, mem_bodyVars]
    tauto
  funext e
  refine Prod.ext rfl (funext fun p => funext fun f => funext fun ds => propext ?_)
  have hsplit := derives_split (I := I.reinterpret p f) (e := e) ds hz fun v hv =>
    (mem_bodyVars.mp hv).2
  exact (derives_congr (r := { r with quantVars := rem }) (holds_of_becomes (h p f))).trans hsplit.symm

theorem freeVars_of_rem {v : Variable S}
    (hv : v ∈ ({ r with quantVars := rem, body := body } : Rule S P F D).freeVars) : v ∈ r.freeVars := by
  simp only [Rule.freeVars, List.mem_filter, List.mem_append, decide_eq_true_eq] at hv ⊢
  obtain ⟨hv, hvrem⟩ := hv
  rcases hv with hv | hv
  · exact ⟨Or.inl hv, fun hmem => hvrem ((hrem v).mpr ⟨hmem, hv⟩)⟩
  · obtain ⟨hv, hbody⟩ := freeVars_of_body h hv
    refine ⟨Or.inr hv, fun hmem => ?_⟩
    by_cases hhead : v ∈ r.headVars
    · exact hvrem ((hrem v).mpr ⟨hmem, hhead⟩)
    · exact hbody (mem_bodyVars.mpr ⟨hmem, hhead⟩)

theorem operator_of_kept (hne : ∀ v ∈ r.bodyVars, ∃ d, I.sort v.sort d) :
    ({ r with body := body } : Rule S P F D).operator I = r.operator I := by
  have hz : ∀ v, v ∈ r.quantVars ↔ v ∈ rem ∨ v ∈ r.bodyVars := fun v => by
    rw [hrem, mem_bodyVars]
    tauto
  rw [← operator_of_body hrem h]
  funext e
  refine Prod.ext rfl (funext fun p => funext fun f => funext fun ds => propext ?_)
  have hsplit := derives_split (I := I.reinterpret p f) (r := { r with body := body }) (e := e) ds hz
    fun v hv => (mem_bodyVars.mp hv).2
  exact hsplit.trans (derives_congr (I := I.reinterpret p f) (r := { r with quantVars := rem }) fun e =>
    holds_quant_irrelevant hne fun v hv hfree => (freeVars_of_body h hfree).2 hv)

end Body

theorem freeVars_of_kept {body : Formula S P F D} (hfree : ∀ v ∈ body.freeVars, v ∈ r.body.freeVars)
    {v : Variable S} (hv : v ∈ ({ r with body := body } : Rule S P F D).freeVars) : v ∈ r.freeVars := by
  simp only [Rule.freeVars, List.mem_filter, List.mem_append, decide_eq_true_eq] at hv ⊢
  exact ⟨hv.1.imp_right (hfree v), hv.2⟩

theorem Rule.Fit.reinterpret (h : r.Fit I used n) (p : P → List D → Prop) (f : F → List D → Option D) :
    r.Fit (I.reinterpret p f) used n := ⟨h.prepared, h.free, h.bound, h.used⟩

theorem Rule.Fit.bodyVars (h : r.Fit I used n) :
    (Formula.kind I).Fit used n (.quant .pos .exist r.bodyVars r.body) :=
  fit_quant_iff.mpr ⟨(fit_quant_iff.mp h).1, fun v hv => (fit_quant_iff.mp h).2 v (mem_bodyVars.mp hv).1⟩

theorem Rule.Fit.mono {m : ℕ} (h : r.Fit I used n) (hn : n ≤ m) : r.Fit I used m := Kind.Fit.mono h hn

namespace PushQuantifications

variable (order : SetOrder S)

theorem visitRule_body (hne : ∀ s, used s → ∃ d, I.sort s d) (h : r.Fit I used n) :
    (Formula.kind I).Becomes used n (.quant .pos .exist r.bodyVars r.body) (visitRule order r n).2
      (visitRule order r n).1.body := by
  have hbody := h.bodyVars
  have hsplit := quant_split (r.quantVars.filter fun v => v ∉ r.headVars ∧ v ∈ r.body.freeVars)
    (r.bodyVars.filter fun v => v ∉ r.body.freeVars) (fun v => by
      simp only [mem_bodyVars, List.mem_filter, decide_eq_true_eq]
      tauto)
    (fun v hv hv' => by simp_all) hbody
  have hin := (fit_quant_iff.mp hsplit.fit).1
  have hdropped := hsplit.trans (quant_congr hsplit.fit (quant_irrelevant hin
    (fun v hv => hne _ ((fit_quant_iff.mp hin).2 v hv).2.2) fun v hv => by
      simpa using (List.mem_filter.mp hv).2))
  dsimp only [visitRule]
  split_ifs with hnil
  · rw [hnil] at hdropped
    have hempty := hdropped.trans (quant_nil hdropped.fit)
    exact hempty.trans ((sound order hne).visit hempty.fit)
  · exact hdropped.trans ((sound order hne).visit hdropped.fit)

theorem visitRule_keeps (hne : ∀ s, used s → ∃ d, I.sort s d) :
    Keeps (Rule.Fit I used) Rule.freeVars (Rule.operator I)
      (visitRule order : Rule S P F D → ℕ → Rule S P F D × ℕ) where
  mono h hn := h.mono hn
  le h := (visitRule_body order hne h).le
  free h _ hv := freeVars_of_rem (fun v => by simp) (fun p f =>
    visitRule_body order (I := I.reinterpret p f) hne (h.reinterpret p f)) hv
  meaning h := operator_of_body (fun v => by simp) fun p f =>
    visitRule_body order (I := I.reinterpret p f) hne (h.reinterpret p f)

end PushQuantifications

namespace PushQuantificationsCompletely

variable (order : SetOrder S)

theorem pushBodyVars_becomes (hne : ∀ s, used s → ∃ d, I.sort s d) (kept : List (Variable S))
    {vs : List (Variable S)} {body : Formula S P F D} (hnodup : (kept ++ vs).Nodup)
    (h : (Formula.kind I).Fit used n (.quant .pos .exist (kept ++ vs) body)) :
    (Formula.kind I).Becomes used n (.quant .pos .exist (kept ++ vs) body) (pushBodyVars vs body n).2.2
      (.quant .pos .exist (kept ++ (pushBodyVars vs body n).1) (pushBodyVars vs body n).2.1) := by
  induction vs generalizing kept body n with
  | nil => exact Kind.Becomes.refl h
  | cons v vs ih =>
    cases hpush : pushQuantifiedVariableThrough v false body n with
    | some r =>
      rw [pushBodyVars, hpush]
      obtain ⟨-, hvs, hdisjoint⟩ := List.nodup_append.mp hnodup
      have hsplit := quant_split (kept ++ vs) [v] (fun w => by simp; tauto) (fun w hw hwv => by
        rw [List.mem_singleton.mp hwv] at hw
        rcases List.mem_append.mp hw with hw | hw
        · exact hdisjoint v hw v List.mem_cons_self rfl
        · exact (List.nodup_cons.mp hvs).1 hw) h
      have hpushed := hsplit.trans (quant_congr hsplit.fit (push_becomes false hne _ body
        (Nat.lt_succ_self _) v n r (fit_quant_iff.mp hsplit.fit).1 hpush))
      exact hpushed.trans (ih kept (hnodup.sublist (List.Sublist.append_left (List.sublist_cons_self v vs) kept))
        hpushed.fit)
    | none =>
      rw [pushBodyVars, hpush]
      have hrest := ih (kept ++ [v]) (by simpa using hnodup) (by simpa using h)
      simpa using hrest

theorem visitRule_body (hne : ∀ s, used s → ∃ d, I.sort s d) (h : r.Fit I used n) :
    (Formula.kind I).Becomes used n (.quant .pos .exist r.bodyVars r.body) (visitRule order r n).2
      (visitRule order r n).1.body := by
  have hbody := h.bodyVars
  have hvisit := quant_congr hbody ((sound order hne).visit (fit_quant_iff.mp hbody).1)
  have hordered := hvisit.trans (quant_members ((order.elements r.quantVars).filter fun v => v ∉ r.headVars)
    hvisit.fit fun v => by
      simp only [List.mem_filter, order.mem_elements, mem_bodyVars, decide_eq_true_eq])
  have hpushed := hordered.trans (pushBodyVars_becomes hne []
    ((order.nodup r.quantVars).filter _) hordered.fit)
  dsimp only [visitRule]
  split_ifs with hnil
  · rw [hnil] at hpushed
    have hempty := hpushed.trans (quant_nil hpushed.fit)
    exact hempty.trans (visitInPlace_becomes order hne hempty.fit)
  · exact hpushed.trans (visitInPlace_becomes order hne hpushed.fit)

theorem visitRule_cases (r : Rule S P F D) (n : ℕ) :
    (visitRule order r n).1 = { r with body := (visitRule order r n).1.body } ∨
    (visitRule order r n).1 = { r with
      quantVars := (order.elements r.quantVars).filter fun v => v ∈ r.headVars
      body := (visitRule order r n).1.body } := by
  dsimp only [visitRule]
  split_ifs
  · exact Or.inl rfl
  · exact Or.inr rfl

theorem visitRule_keeps (hne : ∀ s, used s → ∃ d, I.sort s d) :
    Keeps (Rule.Fit I used) Rule.freeVars (Rule.operator I)
      (visitRule order : Rule S P F D → ℕ → Rule S P F D × ℕ) := by
  have hrem : ∀ (r : Rule S P F D) (v : Variable S),
      v ∈ (order.elements r.quantVars).filter (fun v => v ∈ r.headVars) ↔ v ∈ r.quantVars ∧ v ∈ r.headVars :=
    fun r v => by simp [order.mem_elements]
  have hbody : ∀ {r : Rule S P F D} {n}, r.Fit I used n → ∀ p f,
      (Formula.kind (I.reinterpret p f)).Becomes used n (.quant .pos .exist r.bodyVars r.body)
        (visitRule order r n).2 (visitRule order r n).1.body := fun h p f =>
    visitRule_body order (I := I.reinterpret p f) hne (h.reinterpret p f)
  refine ⟨fun h hn => h.mono hn, fun h => (visitRule_body order hne h).le, fun {r n} h v hv => ?_,
    fun {r n} h => ?_⟩
  · rcases visitRule_cases order r n with heq | heq
    · rw [heq] at hv
      exact freeVars_of_kept (fun w hw => (freeVars_of_body (hbody h) hw).1) hv
    · rw [heq] at hv
      exact freeVars_of_rem (hrem r) (hbody h) hv
  · rcases visitRule_cases order r n with heq | heq
    · rw [heq]
      exact operator_of_kept (hrem r) (hbody h) fun v hv =>
        hne _ ((fit_quant_iff.mp h.bodyVars).2 v hv).2.2
    · rw [heq]
      exact operator_of_body (hrem r) (hbody h)

end PushQuantificationsCompletely

end Theory
