import DeclarativeLocalSearch.Querying.XSBToIDPTranslator

namespace XSBToIDPTranslator

open ElementOrder BracketSplitting DecimalPrinting

section Characters

variable {setting : Setting} {str : Name}

theorem plain_iff : brackets.Plain str ↔ ∀ c ∈ str, c ≠ '(' ∧ c ≠ ')' ∧ c ≠ ',' := by
  constructor
  · rintro ⟨hopening, hclosing, hseparator⟩ c hc
    refine ⟨?_, ?_, ?_⟩ <;> rintro rfl
    · exact hopening hc
    · exact hclosing hc
    · exact hseparator hc
  · intro h
    exact ⟨fun hc => (h _ hc).1 rfl, fun hc => (h _ hc).2.1 rfl, fun hc => (h _ hc).2.2 rfl⟩

theorem plain_of_isAlphanum {c : Char} (h : c.isAlphanum = true) : c ≠ '(' ∧ c ≠ ')' ∧ c ≠ ',' := by
  refine ⟨?_, ?_, ?_⟩ <;> rintro rfl <;> exact absurd h (by decide)

theorem isAlphanum_of_mem_digits {n : ℕ} {c : Char} (h : c ∈ digits n) : c.isAlphanum = true := by
  rw [Char.isAlphanum, isDigit_of_mem_digits h, Bool.or_true]

theorem plain_digits (n : ℕ) : ∀ c ∈ digits n, c ≠ '(' ∧ c ≠ ')' ∧ c ≠ ',' := fun _ hc =>
  plain_of_isAlphanum (isAlphanum_of_mem_digits hc)

theorem plain_toSimpleChars (str : Name) : ∀ c ∈ toSimpleChars str, c ≠ '(' ∧ c ≠ ')' ∧ c ≠ ',' := by
  intro c hc
  obtain ⟨b, -, hb⟩ := List.mem_flatMap.mp hc
  split at hb
  · next halphanum =>
    rw [List.mem_singleton.mp hb]
    exact plain_of_isAlphanum halphanum
  · rw [List.mem_cons, List.mem_append, List.mem_singleton] at hb
    rcases hb with rfl | hb | rfl
    · decide
    · exact plain_digits _ c hb
    · decide

theorem plain_freshName (id : ℕ) (str : Name) : brackets.Plain (freshName setting id str) := by
  refine plain_iff.mpr fun c hc => ?_
  rw [freshName] at hc
  split at hc
  · rcases List.mem_cons.mp hc with rfl | hc
    · decide
    · exact plain_digits id c hc
  · simp only [List.mem_cons, List.mem_append] at hc
    rcases hc with rfl | rfl | rfl | hc | rfl | hc
    any_goals decide
    · exact plain_digits id c hc
    · exact plain_toSimpleChars str c hc

theorem x_mem_freshName (id : ℕ) (str : Name) : 'x' ∈ freshName setting id str := by
  rw [freshName]
  split <;> simp

theorem freshName_injective {id id' : ℕ} {str' : Name} (h : freshName setting id str = freshName setting id' str') :
    id = id' := by
  rw [freshName, freshName] at h
  split at h
  · exact digits_injective (List.cons.inj h).2
  · simp only [List.cons.injEq, true_and] at h
    have hall : ∀ n, ∀ c ∈ digits n, (decide (c ≠ '_')) = true := fun n c hc =>
      decide_eq_true fun heq => Nat.underscore_not_in_toDigits (heq ▸ hc)
    have htake := congrArg (List.takeWhile fun c => decide (c ≠ '_')) h
    rw [List.takeWhile_append_of_pos (hall id), List.takeWhile_append_of_pos (hall id')] at htake
    exact digits_injective (by simpa using htake)

theorem numeric_ne {c : Char} (h : numeric c = true) : c ≠ '(' ∧ c ≠ ')' ∧ c ≠ ',' ∧ c ≠ 'x' := by
  refine ⟨?_, ?_, ?_, ?_⟩ <;> rintro rfl <;> exact absurd h (by decide)

theorem printNumber_ne {d : DomainElement} (h : printNumber d = some str) :
    ∀ c ∈ str, c ≠ '(' ∧ c ≠ ')' ∧ c ≠ ',' ∧ c ≠ 'x' := by
  intro c hc
  cases d with
  | int n =>
    obtain rfl := Option.some.inj h
    exact numeric_ne (numeric_printInt hc)
  | double x hx =>
    obtain rfl := Option.some.inj h
    cases x with
    | nan | negInfinity | posInfinity =>
      simp only [printDouble, List.mem_cons, List.not_mem_nil, or_false] at hc
      aesop
    | value q => exact numeric_ne (numeric_print c hc)
  | string s => exact nomatch h
  | compound f args => exact nomatch h

theorem plain_printNumber {d : DomainElement} (h : printNumber d = some str) : brackets.Plain str :=
  plain_iff.mpr fun c hc => ⟨(printNumber_ne h c hc).1, (printNumber_ne h c hc).2.1, (printNumber_ne h c hc).2.2.1⟩

theorem x_notMem_printNumber {d : DomainElement} (h : printNumber d = some str) : 'x' ∉ str := fun hx =>
  (printNumber_ne h _ hx).2.2.2 rfl

-- neither a string nor a symbol is passed through as a number
theorem makeIntoPrologTermName_eq (h : 'x' ∈ str) (t : Translator) :
    makeIntoPrologTermName setting str t = (freshName setting (t.predicateNameCounter + 1) str,
      { t with predicateNameCounter := t.predicateNameCounter + 1 }) := by
  have hnumber : isXSBBuiltIn str = false := List.all_eq_false.mpr ⟨'x', h, by decide⟩
  simp [makeIntoPrologTermName, hnumber]

theorem x_mem_quoted (l : Name) : 'x' ∈ toSimpleChars ('"' :: l) := by
  rw [toSimpleChars, List.flatMap_cons, if_neg (by decide)]
  exact List.mem_append_left _ List.mem_cons_self

theorem x_mem_symbolText (f : Function) : 'x' ∈ symbolText setting f := by
  simp [symbolText]

end Characters

section Insert

variable {κ α : Type} [DecidableEq κ] {m : κ → Option α} {k k' : κ} {a b : α}

theorem insert_new (h : m k = none) : insert m k a k = some a := by simp [insert, h]

theorem insert_keeps (h : m k' = some b) : insert m k a k' = some b := by
  rw [insert]
  split
  · exact h
  · next hk =>
    have hne : k' ≠ k := by
      rintro rfl
      simp [h] at hk
    rw [Function.update_of_ne hne, h]

theorem insert_eq_some (h : insert m k a k' = some b) : m k' = some b ∨ k' = k ∧ b = a := by
  rw [insert] at h
  split at h
  · exact .inl h
  · by_cases hk : k' = k
    · subst hk
      rw [Function.update_self, Option.some.injEq] at h
      exact .inr ⟨rfl, h.symm⟩
    · rw [Function.update_of_ne hk] at h
      exact .inl h

theorem insert_self (m : κ → Option α) (k : κ) (a : α) : ∃ b, insert m k a k = some b := by
  rw [insert]
  split
  · next hk => exact Option.isSome_iff_exists.mp hk
  · exact ⟨a, Function.update_self k _ m⟩

end Insert

inductive Key where
  | text (s : String)
  | symbol (f : Function)
  deriving DecidableEq

namespace Translator

def keyName (t : Translator) : Key → Option Name
  | .text s => t.domainelsToPrologString (.string s)
  | .symbol f => t.pfsymbolsToPrologString f

-- a new name has a number of its own
structure Named (setting : Setting) (t : Translator) : Prop where
  fresh : ∀ k str, t.keyName k = some str → ∃ id ≤ t.predicateNameCounter, ∃ text, str = freshName setting id text
  unique : ∀ k k' str, t.keyName k = some str → t.keyName k' = some str → k = k'
  number : ∀ d str str', t.domainelsToPrologString d = some str → printNumber d = some str' → str = str'
  compound : ∀ f args str, t.domainelsToPrologString (.compound f args) = some str → ∃ fname names,
    t.pfsymbolsToPrologString f = some fname ∧
      List.Forall₂ (fun a name => t.domainelsToPrologString a = some name) args names ∧ str = termName fname names
  stored : ∀ d str, t.domainelsToPrologString d = some str → ∃ e, t.prologStringToDomainels str = some e
  owned : ∀ d str, t.prologStringToDomainels str = some d → t.domainelsToPrologString d = some str
  symbols : ∀ f str, t.pfsymbolsToPrologString f = some str → t.prologStringToPfsymbols str = some f
  symbolsOwned : ∀ f str, t.prologStringToPfsymbols str = some f → t.pfsymbolsToPrologString f = some str

structure Extends (t t' : Translator) : Prop where
  elements : ∀ d str, t.domainelsToPrologString d = some str → t'.domainelsToPrologString d = some str
  symbols : ∀ f str, t.pfsymbolsToPrologString f = some str → t'.pfsymbolsToPrologString f = some str

end Translator

section Encoding

variable {setting : Setting} {t t' t'' : Translator} {f : Function} {d : DomainElement} {str : Name}

theorem Translator.Extends.refl (t : Translator) : t.Extends t := ⟨fun _ _ => id, fun _ _ => id⟩

theorem Translator.Extends.trans (h : t.Extends t') (h' : t'.Extends t'') : t.Extends t'' :=
  ⟨fun d str hd => h'.elements d str (h.elements d str hd), fun f str hf => h'.symbols f str (h.symbols f str hf)⟩

theorem named_empty : Translator.empty.Named setting := by
  constructor
  case fresh => rintro (s | f) str ⟨⟩
  case unique => rintro (s | f) k' str ⟨⟩
  all_goals
    intros
    contradiction

theorem extends_addToMappings : t.Extends (addToMappings d str t) :=
  ⟨fun _ _ h => insert_keeps h, fun _ _ => id⟩

-- what the name of an element that has none yet has to be
def Describes (setting : Setting) (t : Translator) (d : DomainElement) (str : Name) : Prop :=
  match d with
  | .int n => str = printInt n.1
  | .double x _ => str = printDouble x
  | .string _ => (∃ id ≤ t.predicateNameCounter, ∃ text, str = freshName setting id text) ∧ ∀ k, t.keyName k ≠ some str
  | .compound f args => ∃ fname names, t.pfsymbolsToPrologString f = some fname ∧
    List.Forall₂ (fun a name => t.domainelsToPrologString a = some name) args names ∧ str = termName fname names

theorem named_addToMappings (h : t.Named setting) (hnone : t.domainelsToPrologString d = none)
    (hdescribes : Describes setting t d str) : (addToMappings d str t).Named setting := by
  have hcases : ∀ e s, (addToMappings d str t).domainelsToPrologString e = some s →
      t.domainelsToPrologString e = some s ∨ e = d ∧ s = str := fun e s he => insert_eq_some he
  have hextends : t.Extends (addToMappings d str t) := extends_addToMappings
  have hkey : ∀ k s, (addToMappings d str t).keyName k = some s →
      t.keyName k = some s ∨ (∃ text, k = .text text ∧ d = .string text) ∧ s = str := by
    rintro (text | f) s hk
    · rcases hcases _ _ hk with hk | ⟨hd, hs⟩
      · exact .inl hk
      · exact .inr ⟨⟨text, rfl, hd.symm⟩, hs⟩
    · exact .inl hk
  have hself : (addToMappings d str t).domainelsToPrologString d = some str := insert_new hnone
  refine ⟨?fresh, ?unique, ?number, ?compound, ?stored, ?owned, h.symbols, h.symbolsOwned⟩
  case fresh =>
    intro k s hk
    rcases hkey k s hk with hk | ⟨⟨text, rfl, rfl⟩, rfl⟩
    · exact h.fresh k s hk
    · exact hdescribes.1
  case unique =>
    intro k k' s hk hk'
    rcases hkey k s hk with hold | ⟨⟨text, rfl, htext⟩, hs⟩ <;>
      rcases hkey k' s hk' with hold' | ⟨⟨text', rfl, htext'⟩, hs'⟩
    · exact h.unique k k' s hold hold'
    · subst htext' hs'
      exact absurd hold (hdescribes.2 k)
    · subst htext hs
      exact absurd hold' (hdescribes.2 k')
    · rw [htext] at htext'
      cases htext'
      rfl
  case number =>
    intro e s s' he hs'
    rcases hcases e s he with he | ⟨rfl, rfl⟩
    · exact h.number e s s' he hs'
    · cases e with
      | int n => exact hdescribes.trans (Option.some.inj hs')
      | double x hx => exact hdescribes.trans (Option.some.inj hs')
      | string text => exact nomatch hs'
      | compound f args => exact nomatch hs'
  case compound =>
    intro f args s he
    have hbefore : ∃ fname names, t.pfsymbolsToPrologString f = some fname ∧
        List.Forall₂ (fun a name => t.domainelsToPrologString a = some name) args names ∧
          s = termName fname names := by
      rcases hcases _ s he with he | ⟨rfl, rfl⟩
      · exact h.compound f args s he
      · exact hdescribes
    obtain ⟨fname, names, hf, hargs, hs⟩ := hbefore
    exact ⟨fname, names, hf, hargs.imp fun a name => hextends.elements a name, hs⟩
  case stored =>
    intro e s he
    rcases hcases e s he with he | ⟨rfl, rfl⟩
    · obtain ⟨e', he'⟩ := h.stored e s he
      exact ⟨e', insert_keeps he'⟩
    · exact insert_self _ _ _
  case owned =>
    intro e s he
    rcases insert_eq_some he with he | ⟨rfl, rfl⟩
    · exact hextends.elements e s (h.owned e s he)
    · exact hself

theorem named_newID (h : t.Named setting) :
    Translator.Named setting { t with predicateNameCounter := t.predicateNameCounter + 1 } :=
  ⟨fun k str hk =>
    have ⟨id, hid, hstr⟩ := h.fresh k str hk
    ⟨id, hid.trans (Nat.le_succ _), hstr⟩,
    h.unique, h.number, h.compound, h.stored, h.owned, h.symbols, h.symbolsOwned⟩

theorem unused_of_fresh (h : t.Named setting) (text : Name) (k : Key) :
    t.keyName k ≠ some (freshName setting (t.predicateNameCounter + 1) text) := by
  intro hk
  obtain ⟨id, hid, text', heq⟩ := h.fresh k _ hk
  have hid' := freshName_injective heq
  omega

theorem symbolToPrologTerm_named (h : t.Named setting) (f : Function) :
    ∃ fname t', symbolToPrologTerm setting f t = (fname, t') ∧ t'.Named setting ∧ t.Extends t' ∧
      t'.pfsymbolsToPrologString f = some fname ∧ t'.domainelsToPrologString = t.domainelsToPrologString := by
  cases hf : t.pfsymbolsToPrologString f with
  | some fname => exact ⟨fname, t, by simp [symbolToPrologTerm, hf], h, .refl t, hf, rfl⟩
  | none =>
    set fname := freshName setting (t.predicateNameCounter + 1) (symbolText setting f) with hfname
    set created : Translator := { t with predicateNameCounter := t.predicateNameCounter + 1 } with hcreated
    have hnamed : created.Named setting := named_newID h
    have hunused : ∀ k, created.keyName k ≠ some fname := by
      rintro (s | g)
      · exact unused_of_fresh h _ (.text s)
      · exact unused_of_fresh h _ (.symbol g)
    have hcases : ∀ g s, (addSymbolToMappings f fname created).pfsymbolsToPrologString g = some s →
        created.pfsymbolsToPrologString g = some s ∨ g = f ∧ s = fname := fun g s hg => insert_eq_some hg
    have hkey : ∀ k s, (addSymbolToMappings f fname created).keyName k = some s →
        created.keyName k = some s ∨ k = .symbol f ∧ s = fname := by
      rintro (text | g) s hk
      · exact .inl hk
      · rcases hcases g s hk with hk | ⟨rfl, hs⟩
        · exact .inl hk
        · exact .inr ⟨rfl, hs⟩
    have hself : (addSymbolToMappings f fname created).pfsymbolsToPrologString f = some fname := insert_new hf
    have hextends : created.Extends (addSymbolToMappings f fname created) :=
      ⟨fun _ _ => id, fun _ _ hg => insert_keeps hg⟩
    have hstring : created.prologStringToPfsymbols fname = none := by
      by_contra hsome
      obtain ⟨g, hg⟩ := Option.ne_none_iff_exists'.mp hsome
      exact hunused (.symbol g) (hnamed.symbolsOwned g fname hg)
    refine ⟨fname, addSymbolToMappings f fname created, ?_, ?_, ⟨hextends.elements, hextends.symbols⟩, hself, rfl⟩
    · rw [symbolToPrologTerm, hf]
      simp [makeIntoPrologTermName_eq (x_mem_symbolText f), hfname, hcreated]
    refine ⟨?fresh, ?unique, hnamed.number, ?compound, hnamed.stored, hnamed.owned, ?symbols, ?symbolsOwned⟩
    case fresh =>
      intro k s hk
      rcases hkey k s hk with hk | ⟨rfl, rfl⟩
      · exact hnamed.fresh k s hk
      · exact ⟨t.predicateNameCounter + 1, le_rfl, _, rfl⟩
    case unique =>
      intro k k' s hk hk'
      rcases hkey k s hk with hold | ⟨rfl, hs⟩ <;> rcases hkey k' s hk' with hold' | ⟨rfl, hs'⟩
      · exact hnamed.unique k k' s hold hold'
      · exact absurd (hs' ▸ hold) (hunused k)
      · exact absurd (hs ▸ hold') (hunused k')
      · rfl
    case compound =>
      intro g args s hg
      obtain ⟨gname, names, hgname, hargs, hs⟩ := hnamed.compound g args s hg
      exact ⟨gname, names, hextends.symbols g gname hgname, hargs, hs⟩
    case symbols =>
      intro g s hg
      rcases hcases g s hg with hg | ⟨rfl, rfl⟩
      · exact insert_keeps (hnamed.symbols g s hg)
      · exact insert_new hstring
    case symbolsOwned =>
      intro g s hg
      rcases insert_eq_some hg with hg | ⟨rfl, rfl⟩
      · exact hextends.symbols g s (hnamed.symbolsOwned g s hg)
      · exact hself

mutual

theorem sizeOf_le_of_mem_subelements {e : DomainElement} :
    ∀ d : DomainElement, e ∈ subelements d → sizeOf e ≤ sizeOf d
  | .int _, h => by rw [List.mem_singleton.mp h]
  | .double _ _, h => by rw [List.mem_singleton.mp h]
  | .string _, h => by rw [List.mem_singleton.mp h]
  | .compound f args, h => by
    rcases List.mem_cons.mp h with rfl | h
    · exact le_rfl
    · have hle := sizeOf_le_of_mem_occurring args h
      simp only [DomainElement.compound.sizeOf_spec]
      omega

theorem sizeOf_le_of_mem_occurring {e : DomainElement} :
    ∀ ds : List DomainElement, e ∈ occurring ds → sizeOf e ≤ sizeOf ds
  | [], h => nomatch h
  | d :: ds, h => by
    simp only [List.cons.sizeOf_spec]
    rcases List.mem_append.mp h with h | h
    · have hle := sizeOf_le_of_mem_subelements d h
      omega
    · have hle := sizeOf_le_of_mem_occurring ds h
      omega

end

theorem compound_notMem_occurring (f : Function) (args : List DomainElement) :
    DomainElement.compound f args ∉ occurring args := by
  intro h
  have hle := sizeOf_le_of_mem_occurring args h
  simp only [DomainElement.compound.sizeOf_spec] at hle
  omega

theorem mem_subelements_self (d : DomainElement) : d ∈ subelements d := by
  cases d <;> simp [subelements]

@[simp]
theorem occurring_singleton (d : DomainElement) : occurring [d] = subelements d := by simp [occurring]

structure Encodes (setting : Setting) (t : Translator) (ds : List DomainElement) (names : List Name)
    (t' : Translator) : Prop where
  named : t'.Named setting
  extends_ : t.Extends t'
  given : List.Forall₂ (fun d name => t'.domainelsToPrologString d = some name) ds names
  only : ∀ e str, t'.domainelsToPrologString e = some str →
    (∃ str', t.domainelsToPrologString e = some str') ∨ e ∈ occurring ds

theorem encodes_found (h : t.Named setting) (hd : t.domainelsToPrologString d = some str) :
    Encodes setting t [d] [str] t :=
  ⟨h, .refl t, .cons hd .nil, fun _ s he => .inl ⟨s, he⟩⟩

theorem encodes_added (h : t.Named setting) (hnone : t.domainelsToPrologString d = none)
    (hdescribes : Describes setting t d str) : Encodes setting t [d] [str] (addToMappings d str t) := by
  refine ⟨named_addToMappings h hnone hdescribes, extends_addToMappings, .cons (insert_new hnone) .nil, ?_⟩
  intro e s he
  rcases insert_eq_some he with he | ⟨rfl, -⟩
  · exact .inl ⟨s, he⟩
  · exact .inr (by simp [mem_subelements_self])

mutual

theorem toPrologTerm_encodes (setting : Setting) : ∀ (d : DomainElement) (t : Translator), t.Named setting →
    ∃ str t', toPrologTerm setting t d = (str, t') ∧ Encodes setting t [d] [str] t'
  | .int n, t, h => by
    cases hd : t.domainelsToPrologString (.int n) with
    | some str => exact ⟨str, t, by simp [toPrologTerm, hd], encodes_found h hd⟩
    | none => exact ⟨_, _, by rw [toPrologTerm, hd], encodes_added h hd rfl⟩
  | .double x hx, t, h => by
    cases hd : t.domainelsToPrologString (.double x hx) with
    | some str => exact ⟨str, t, by simp [toPrologTerm, hd], encodes_found h hd⟩
    | none => exact ⟨_, _, by rw [toPrologTerm, hd], encodes_added h hd rfl⟩
  | .string s, t, h => by
    cases hd : t.domainelsToPrologString (.string s) with
    | some str => exact ⟨str, t, by simp [toPrologTerm, hd], encodes_found h hd⟩
    | none =>
      refine ⟨_, _, by rw [toPrologTerm, hd, makeIntoPrologTermName_eq (x_mem_quoted _)], ?_⟩
      obtain ⟨hnamed, hextends, hgiven, honly⟩ := encodes_added (named_newID h) hd
        ⟨⟨_, le_rfl, toSimpleChars ('"' :: (bytes s ++ ['"'])), rfl⟩, fun k => by
          cases k with
          | text s' => exact unused_of_fresh h _ (.text s')
          | symbol f => exact unused_of_fresh h _ (.symbol f)⟩
      exact ⟨hnamed, ⟨hextends.elements, hextends.symbols⟩, hgiven, honly⟩
  | .compound f args, t, h => by
    cases hd : t.domainelsToPrologString (.compound f args) with
    | some str => exact ⟨str, t, by simp [toPrologTerm, hd], encodes_found h hd⟩
    | none =>
      obtain ⟨fname, t₁, hsymbol, hnamed₁, hextends₁, hf, hsame⟩ := symbolToPrologTerm_named h f
      obtain ⟨names, t₂, hargs, henc⟩ := toPrologTerms_encodes setting args t₁ hnamed₁
      have hnone : t₂.domainelsToPrologString (.compound f args) = none := by
        by_contra hsome
        obtain ⟨str, hstr⟩ := Option.ne_none_iff_exists'.mp hsome
        rcases henc.only _ str hstr with ⟨str', hstr'⟩ | hmem
        · rw [hsame, hd] at hstr'
          exact nomatch hstr'
        · exact compound_notMem_occurring f args hmem
      have hadded := encodes_added henc.named hnone ⟨fname, names, henc.extends_.symbols f fname hf, henc.given, rfl⟩
      refine ⟨_, _, by simp only [toPrologTerm, hd, hsymbol, hargs], hadded.named,
        (hextends₁.trans henc.extends_).trans hadded.extends_, hadded.given, ?_⟩
      intro e s he
      rcases hadded.only e s he with ⟨s', hs'⟩ | hmem
      · rcases henc.only e s' hs' with hold | hmem
        · exact .inl (hsame ▸ hold)
        · exact .inr (by simp [subelements, hmem])
      · exact .inr hmem

theorem toPrologTerms_encodes (setting : Setting) : ∀ (ds : List DomainElement) (t : Translator), t.Named setting →
    ∃ names t', toPrologTerms setting t ds = (names, t') ∧ Encodes setting t ds names t'
  | [], t, h => ⟨[], t, rfl, h, .refl t, .nil, fun _ s he => .inl ⟨s, he⟩⟩
  | d :: ds, t, h => by
    obtain ⟨str, t₁, hd, henc⟩ := toPrologTerm_encodes setting d t h
    obtain ⟨names, t₂, hds, henc'⟩ := toPrologTerms_encodes setting ds t₁ henc.named
    refine ⟨str :: names, t₂, by simp only [toPrologTerms, hd, hds], henc'.named, henc.extends_.trans henc'.extends_, ?_, ?_⟩
    · cases henc.given with
      | cons hhead _ => exact .cons (henc'.extends_.elements d str hhead) henc'.given
    · intro e s he
      rcases henc'.only e s he with ⟨s', hs'⟩ | hmem
      · rcases henc.only e s' hs' with hold | hmem
        · exact .inl hold
        · exact .inr (List.mem_append_left _ (by simpa using hmem))
      · exact .inr (List.mem_append_right _ hmem)

end

mutual

-- with an element all elements in it have a name
theorem named_subelements (h : t.Named setting) {e : DomainElement} : ∀ (d : DomainElement) (str : Name),
    t.domainelsToPrologString d = some str → e ∈ subelements d → ∃ s, t.domainelsToPrologString e = some s
  | .int _, str, hd, he => ⟨str, List.mem_singleton.mp he ▸ hd⟩
  | .double _ _, str, hd, he => ⟨str, List.mem_singleton.mp he ▸ hd⟩
  | .string _, str, hd, he => ⟨str, List.mem_singleton.mp he ▸ hd⟩
  | .compound f args, str, hd, he => by
    rcases List.mem_cons.mp he with rfl | he
    · exact ⟨str, hd⟩
    · obtain ⟨fname, names, -, hargs, -⟩ := h.compound f args str hd
      exact named_occurring h args names hargs he

theorem named_occurring (h : t.Named setting) {e : DomainElement} : ∀ (ds : List DomainElement) (names : List Name),
    List.Forall₂ (fun d name => t.domainelsToPrologString d = some name) ds names →
      e ∈ occurring ds → ∃ s, t.domainelsToPrologString e = some s
  | [], _, _, he => nomatch he
  | d :: ds, str :: names, .cons hd hds, he => by
    rcases List.mem_append.mp he with he | he
    · exact named_subelements h d str hd he
    · exact named_occurring h ds names hds he

end

end Encoding

end XSBToIDPTranslator
