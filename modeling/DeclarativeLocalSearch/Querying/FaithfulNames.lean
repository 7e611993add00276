import Mathlib.Data.List.TakeWhile
import DeclarativeLocalSearch.Querying.PrologNames

namespace XSBToIDPTranslator

open ElementOrder BracketSplitting DecimalPrinting

section Names

variable {setting : Setting} {t : Translator} {d e : DomainElement} {f g : Function} {str fname gname : Name}
  {args args' : List Name}

theorem toPrologTerm_found (h : t.domainelsToPrologString d = some str) :
    toPrologTerm setting t d = (str, t) := by
  cases d <;> simp [toPrologTerm, h]

theorem plain_symbol (h : t.Named setting) (hf : t.pfsymbolsToPrologString f = some fname) :
    brackets.Plain fname := by
  obtain ⟨id, -, text, rfl⟩ := h.fresh (.symbol f) fname hf
  exact plain_freshName id text

theorem isTerm_termName (hf : brackets.Plain fname) (hargs : ∀ a ∈ args, brackets.IsTerm a) :
    brackets.IsTerm (termName fname args) := by
  rw [termName]
  split
  · exact .leaf hf
  · exact .apply hf hargs

mutual

theorem isTerm_name (h : t.Named setting) : ∀ (d : DomainElement) (str : Name),
    t.domainelsToPrologString d = some str → brackets.IsTerm str
  | .int n, str, hd => .leaf (plain_printNumber (d := .int n) (congrArg some (h.number _ str _ hd rfl).symm))
  | .double x hx, str, hd =>
    .leaf (plain_printNumber (d := .double x hx) (congrArg some (h.number _ str _ hd rfl).symm))
  | .string s, str, hd => by
    obtain ⟨id, -, text, rfl⟩ := h.fresh (.text s) str hd
    exact .leaf (plain_freshName id text)
  | .compound f args, str, hd => by
    obtain ⟨fname, names, hf, hargs, rfl⟩ := h.compound f args str hd
    exact isTerm_termName (plain_symbol h hf) (isTerm_names h args names hargs)

theorem isTerm_names (h : t.Named setting) : ∀ (ds : List DomainElement) (names : List Name),
    List.Forall₂ (fun d name => t.domainelsToPrologString d = some name) ds names → ∀ a ∈ names, brackets.IsTerm a
  | [], [], .nil, _, ha => nomatch ha
  | d :: ds, str :: names, .cons hd hds, a, ha => by
    rcases List.mem_cons.mp ha with rfl | ha
    · exact isTerm_name h d a hd
    · exact isTerm_names h ds names hds a ha

end

theorem constructorText_termName (hf : brackets.Plain fname) : constructorText (termName fname args) = fname := by
  rw [constructorText, termName]
  split
  · refine List.takeWhile_eq_self_iff.mpr fun c hc => decide_eq_true ?_
    rintro rfl
    exact hf.1 hc
  · exact Delimiters.takeWhile_apply hf

theorem argumentTexts_termName (hf : brackets.Plain fname) (hargs : ∀ a ∈ args, brackets.IsTerm a) :
    argumentTexts (termName fname args) = args := by
  simp only [argumentTexts, constructorText_termName hf]
  by_cases hne : args = []
  · simp [termName, hne]
  · have hlength : fname.length < (termName fname args).length := by simp [termName, hne, Delimiters.apply]
    have htext : argumentText fname (termName fname args) = brackets.join args := by
      have hdrop : List.drop (fname.length + 1) (termName fname args) = brackets.join args ++ [brackets.closing] := by
        simp [termName, hne, Delimiters.apply, List.drop_append]
      have htake : (termName fname args).length - 2 - fname.length = (brackets.join args).length := by
        simp only [termName, hne, Delimiters.apply, if_false, List.length_append, List.length_cons, List.length_nil]
        omega
      rw [argumentText, hdrop, htake, List.take_left']
      rfl
    rw [if_pos hlength, htext]
    exact Delimiters.split_join (fun a ha => (hargs a ha).closed) hne

theorem termName_injective (hf : brackets.Plain fname) (hg : brackets.Plain gname)
    (hargs : ∀ a ∈ args, brackets.IsTerm a) (hargs' : ∀ a ∈ args', brackets.IsTerm a)
    (h : termName fname args = termName gname args') : fname = gname ∧ args = args' :=
  ⟨by rw [← @constructorText_termName _ args hf, h, constructorText_termName hg],
    by rw [← argumentTexts_termName hf hargs, h, argumentTexts_termName hg hargs']⟩

theorem number_or_x (h : t.Named setting) (hd : t.domainelsToPrologString d = some str) :
    printNumber d = some str ∨ printNumber d = none ∧ 'x' ∈ str := by
  cases d with
  | int n => exact .inl (congrArg some (h.number _ str _ hd rfl).symm)
  | double x hx => exact .inl (congrArg some (h.number _ str _ hd rfl).symm)
  | string s =>
    obtain ⟨id, -, text, rfl⟩ := h.fresh (.text s) str hd
    exact .inr ⟨rfl, x_mem_freshName id text⟩
  | compound f args =>
    obtain ⟨fname, names, hf, -, rfl⟩ := h.compound f args str hd
    obtain ⟨id, -, text, rfl⟩ := h.fresh (.symbol f) fname hf
    refine .inr ⟨rfl, ?_⟩
    rw [termName]
    split
    · exact x_mem_freshName id text
    · exact List.mem_append_left _ (x_mem_freshName id text)

theorem string_ne_compound {s : String} {ds : List DomainElement} (h : t.Named setting)
    (hs : t.domainelsToPrologString (.string s) = some str) :
    t.domainelsToPrologString (.compound f ds) ≠ some str := by
  intro hcompound
  obtain ⟨fname, names, hf, -, hstr⟩ := h.compound f ds str hcompound
  have htext : brackets.Plain str := by
    obtain ⟨id, -, text, rfl⟩ := h.fresh (.text s) str hs
    exact plain_freshName id text
  rw [termName] at hstr
  split at hstr
  · subst hstr
    exact Key.noConfusion (h.unique (.text s) (.symbol f) str hs hf)
  · exact htext.1 (by simp [hstr, Delimiters.apply])

def Translator.Apart (t : Translator) : Prop :=
  ∀ d e str, t.domainelsToPrologString d = some str → t.domainelsToPrologString e = some str →
    printNumber d = some str → printNumber e = some str → d = e

theorem eq_of_number (h : t.Named setting) (hapart : t.Apart) (hd : t.domainelsToPrologString d = some str)
    (he : t.domainelsToPrologString e = some str) (hnumber : printNumber d = some str) : d = e := by
  rcases number_or_x h he with hnumber' | ⟨-, hx⟩
  · exact hapart d e str hd he hnumber hnumber'
  · exact absurd hx (x_notMem_printNumber hnumber)

mutual

theorem eq_of_name (h : t.Named setting) (hapart : t.Apart) : ∀ (d e : DomainElement) (str : Name),
    t.domainelsToPrologString d = some str → t.domainelsToPrologString e = some str → d = e
  | .int n, e, str, hd, he =>
    eq_of_number h hapart hd he (congrArg some (h.number _ str _ hd rfl).symm)
  | .double x hx, e, str, hd, he =>
    eq_of_number h hapart hd he (congrArg some (h.number _ str _ hd rfl).symm)
  | d, .int n, str, hd, he =>
    (eq_of_number h hapart he hd (congrArg some (h.number _ str _ he rfl).symm)).symm
  | d, .double x hx, str, hd, he =>
    (eq_of_number h hapart he hd (congrArg some (h.number _ str _ he rfl).symm)).symm
  | .string s, .string s', str, hd, he => by
    have hkey := h.unique (.text s) (.text s') str hd he
    cases hkey
    rfl
  | .string s, .compound g bs, str, hd, he => absurd he (string_ne_compound h hd)
  | .compound f as, .string s, str, hd, he => absurd hd (string_ne_compound h he)
  | .compound f as, .compound g bs, str, hd, he => by
    obtain ⟨fname, names, hf, has, hstr⟩ := h.compound f as str hd
    obtain ⟨gname, names', hg, hbs, hstr'⟩ := h.compound g bs str he
    obtain ⟨rfl, rfl⟩ := termName_injective (plain_symbol h hf) (plain_symbol h hg) (isTerm_names h as names has)
      (isTerm_names h bs names' hbs) (hstr.symm.trans hstr')
    have hkey := h.unique (.symbol f) (.symbol g) fname hf hg
    cases hkey
    rw [eq_of_names h hapart as bs names has hbs]

theorem eq_of_names (h : t.Named setting) (hapart : t.Apart) : ∀ (as bs : List DomainElement) (names : List Name),
    List.Forall₂ (fun d name => t.domainelsToPrologString d = some name) as names →
    List.Forall₂ (fun d name => t.domainelsToPrologString d = some name) bs names → as = bs
  | [], [], _, .nil, .nil => rfl
  | [], _ :: _, _, .nil, hbs => nomatch hbs
  | _ :: _, [], _, has, .nil => nomatch has
  | a :: as, b :: bs, str :: names, .cons ha has, .cons hb hbs => by
    rw [eq_of_name h hapart a b str ha hb, eq_of_names h hapart as bs names has hbs]

end

end Names

section Decoding

variable {setting : Setting} {t t' t'' : Translator} {str : Name} {sort : VSort} {d : DomainElement}

-- the decoder only adds texts that were unknown
structure Translator.Keeps (t t' : Translator) : Prop where
  strings : ∀ str d, t.prologStringToDomainels str = some d → t'.prologStringToDomainels str = some d
  elements : t'.domainelsToPrologString = t.domainelsToPrologString
  symbolStrings : t'.prologStringToPfsymbols = t.prologStringToPfsymbols
  symbols : t'.pfsymbolsToPrologString = t.pfsymbolsToPrologString

theorem Translator.Keeps.refl (t : Translator) : t.Keeps t := ⟨fun _ _ => id, rfl, rfl, rfl⟩

theorem Translator.Keeps.trans (h : t.Keeps t') (h' : t'.Keeps t'') : t.Keeps t'' :=
  ⟨fun str d hd => h'.strings str d (h.strings str d hd), h'.elements.trans h.elements,
    h'.symbolStrings.trans h.symbolStrings, h'.symbols.trans h.symbols⟩

theorem keeps_addAnswer (d : DomainElement) (str : Name) (t : Translator) : t.Keeps (addAnswer d str t) :=
  ⟨fun _ _ h => insert_keeps h, rfl, rfl, rfl⟩

theorem toIdpDomelem_found (h : t.prologStringToDomainels str = some d) (sort : VSort) :
    toIdpDomelem setting t str sort = some (d, t) := by rw [toIdpDomelem, h]

mutual

theorem toIdpDomelem_keeps (t : Translator) (str : Name) (sort : VSort) (d : DomainElement) (t' : Translator)
    (h : toIdpDomelem setting t str sort = some (d, t')) : t.Keeps t' := by
  rw [toIdpDomelem] at h
  split at h
  · obtain ⟨-, rfl⟩ := Prod.mk.inj (Option.some.inj h)
    exact .refl t
  split at h
  · split at h
    · exact nomatch h
    next f hf =>
      split at h
      · exact nomatch h
      next args t₁ hargs =>
        obtain ⟨-, rfl⟩ := Prod.mk.inj (Option.some.inj h)
        exact (toIdpElementtuple_keeps t (argumentTexts str) f.sorts args t₁ hargs).trans (keeps_addAnswer _ _ t₁)
  · obtain ⟨-, rfl⟩ := Prod.mk.inj (Option.some.inj h)
    exact keeps_addAnswer _ _ t
termination_by 2 * str.length + 1
decreasing_by
  have hweight := weight_argumentTexts str
  omega

theorem toIdpElementtuple_keeps (t : Translator) (answers : List Name) (sorts : List VSort)
    (ds : List DomainElement) (t' : Translator) (h : toIdpElementtuple setting t answers sorts = some (ds, t')) :
    t.Keeps t' := by
  match answers, sorts with
  | [], _ =>
    rw [toIdpElementtuple] at h
    obtain ⟨-, rfl⟩ := Prod.mk.inj (Option.some.inj h)
    exact .refl t
  | _ :: _, [] =>
    rw [toIdpElementtuple] at h
    exact nomatch h
  | answer :: answers, sort :: sorts =>
    rw [toIdpElementtuple] at h
    split at h
    · exact nomatch h
    next d t₁ hd =>
      split at h
      · exact nomatch h
      next ds t₂ hds =>
        obtain ⟨-, rfl⟩ := Prod.mk.inj (Option.some.inj h)
        exact (toIdpDomelem_keeps t answer sort d t₁ hd).trans (toIdpElementtuple_keeps t₁ answers sorts ds t₂ hds)
termination_by 2 * Delimiters.weight answers
decreasing_by
  all_goals simp only [Delimiters.weight, List.map_cons, List.sum_cons]; omega

end

theorem Answering.keeps {l : List DomainElement} (h : Answering setting l t) : (encode setting l).Keeps t := by
  induction h with
  | encoded => exact .refl _
  | answered _ hanswer ih => exact ih.trans (toIdpDomelem_keeps _ _ _ _ _ hanswer)

theorem toIdpDomelem_termName {f : Function} {fname : Name} {args : List Name}
    (hf : t.prologStringToPfsymbols fname = some f) (hplain : brackets.Plain fname)
    (hargs : ∀ a ∈ args, brackets.IsTerm a) (hnew : t.prologStringToDomainels (termName fname args) = none)
    (hsort : setting.isConstructed sort = true) :
    (toIdpDomelem setting t (termName fname args) sort).map Prod.fst =
      (toIdpElementtuple setting t args f.sorts).map fun p => .compound f p.1 := by
  rw [toIdpDomelem, hnew, constructorText_termName hplain, argumentTexts_termName hplain hargs]
  simp only [hsort, if_true, hf]
  cases toIdpElementtuple setting t args f.sorts <;> rfl

end Decoding

section Runs

variable {setting : Setting} {l : List DomainElement} {d : DomainElement} {str : Name}

theorem encode_encodes (setting : Setting) (l : List DomainElement) :
    Encodes setting .empty l (toPrologTerms setting .empty l).1 (encode setting l) := by
  obtain ⟨names, t, hl, henc⟩ := toPrologTerms_encodes setting l .empty named_empty
  rw [encode, hl]
  exact henc

theorem nameOf_eq (h : (encode setting l).domainelsToPrologString d = some str) : nameOf setting l d = str := by
  rw [nameOf, toPrologTerm_found h]

theorem domainels_nameOf (hd : d ∈ occurring l) :
    (encode setting l).domainelsToPrologString d = some (nameOf setting l d) := by
  have henc := encode_encodes setting l
  obtain ⟨str, hstr⟩ := named_occurring henc.named l _ henc.given hd
  rw [hstr, nameOf_eq hstr]

theorem mem_occurring_of_named (h : (encode setting l).domainelsToPrologString d = some str) : d ∈ occurring l := by
  rcases (encode_encodes setting l).only d str h with ⟨str', hnone⟩ | hmem
  · exact nomatch hnone
  · exact hmem

theorem given_names : (toPrologTerms setting .empty l).1 = l.map (nameOf setting l) := by
  have hgiven := (encode_encodes setting l).given
  have hnames : List.Forall₂ (fun d name => nameOf setting l d = name) l (toPrologTerms setting .empty l).1 :=
    hgiven.imp fun d name hd => nameOf_eq hd
  have hmap := List.forall₂_map_left_iff.mpr hnames
  exact (List.forall₂_eq_eq_eq ▸ hmap).symm

end Runs

-- two numbers that are printed alike are the only elements that are mixed up
theorem faithful_iff (setting : Setting) (l : List DomainElement) : Faithful setting l ↔ NumbersApart l := by
  have henc := encode_encodes setting l
  constructor
  · intro h d hd e he str hdstr hestr
    have hname := henc.named.number d _ str (domainels_nameOf hd) hdstr
    have hname' := henc.named.number e _ str (domainels_nameOf he) hestr
    exact h.injective d hd e he (hname.trans hname'.symm)
  · intro hapart
    have hinjective : ∀ d e str, (encode setting l).domainelsToPrologString d = some str →
        (encode setting l).domainelsToPrologString e = some str → d = e :=
      eq_of_name henc.named fun d e str hd he =>
        hapart d (mem_occurring_of_named hd) e (mem_occurring_of_named he) str
    refine ⟨given_names, fun d hd e he heq => ?_, fun t ht d hd sort => ?_,
      fun t ht f fname hf args hargs hnew sort hsort => ?_⟩
    · exact hinjective d e _ (domainels_nameOf hd) (heq ▸ domainels_nameOf he)
    · obtain ⟨e, he⟩ := henc.named.stored d _ (domainels_nameOf hd)
      obtain rfl : d = e := hinjective d e _ (domainels_nameOf hd) (henc.named.owned e _ he)
      exact toIdpDomelem_found (ht.keeps.strings _ d he) sort
    · have hname : (encode setting l).pfsymbolsToPrologString f = some fname := by rwa [← ht.keeps.symbols]
      exact toIdpDomelem_termName (by rw [ht.keeps.symbolStrings, henc.named.symbols f fname hname])
        (plain_symbol henc.named hname) hargs hnew hsort

def three : DomainElement := .int ⟨3, by decide⟩

-- the next double but one
def aboveThree : DomainElement := .double (.value (3 + 1 / 2 ^ 50)) (by decide +kernel)

theorem not_faithful_aboveThree :
    ¬Faithful ⟨true, fun f => bytes f.name, fun _ => false, fun _ _ => three⟩ [three, aboveThree] := by
  intro h
  have henc := encode_encodes ⟨true, fun f => bytes f.name, fun _ => false, fun _ _ => three⟩ [three, aboveThree]
  have hthree : three ∈ occurring [three, aboveThree] := by simp [occurring, three, subelements]
  have habove : aboveThree ∈ occurring [three, aboveThree] := by simp [occurring, aboveThree, subelements]
  have hname := henc.named.number three _ ['3'] (domainels_nameOf hthree) (by decide)
  have hname' := henc.named.number aboveThree _ ['3'] (domainels_nameOf habove) (by decide +kernel)
  have heq := h.injective three hthree aboveThree habove (hname.trans hname'.symm)
  cases heq

end XSBToIDPTranslator
