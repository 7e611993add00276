import DeclarativeLocalSearch.Foundation.BracketSplitting
import DeclarativeLocalSearch.Foundation.DecimalPrinting
import DeclarativeLocalSearch.Structure.ElementOrder

namespace XSBToIDPTranslator

open ElementOrder BracketSplitting DecimalPrinting

-- a character is a byte
abbrev Name := List Char

mutual

def decEqElement : (d e : DomainElement) → Decidable (d = e)
  | .int m, .int n => decidable_of_iff (m = n) (by simp)
  | .double x _, .double y _ => decidable_of_iff (x = y) (by simp)
  | .string s, .string t => decidable_of_iff (s = t) (by simp)
  | .compound f as, .compound g bs =>
    have := decEqElements as bs
    decidable_of_iff (f = g ∧ as = bs) (by simp)
  | .int _, .double _ _ => isFalse nofun
  | .int _, .string _ => isFalse nofun
  | .int _, .compound _ _ => isFalse nofun
  | .double _ _, .int _ => isFalse nofun
  | .double _ _, .string _ => isFalse nofun
  | .double _ _, .compound _ _ => isFalse nofun
  | .string _, .int _ => isFalse nofun
  | .string _, .double _ _ => isFalse nofun
  | .string _, .compound _ _ => isFalse nofun
  | .compound _ _, .int _ => isFalse nofun
  | .compound _ _, .double _ _ => isFalse nofun
  | .compound _ _, .string _ => isFalse nofun

def decEqElements : (ds es : List DomainElement) → Decidable (ds = es)
  | [], [] => isTrue rfl
  | [], _ :: _ => isFalse nofun
  | _ :: _, [] => isFalse nofun
  | d :: ds, e :: es =>
    have := decEqElement d e
    have := decEqElements ds es
    decidable_of_iff (d = e ∧ ds = es) (by simp)

end

instance : DecidableEq DomainElement := decEqElement

structure Setting where
  shortNames : Bool
  fqnName : Function → Name
  isConstructed : VSort → Bool
  createLeaf : Name → VSort → DomainElement

structure Translator where
  prologStringToDomainels : Name → Option DomainElement
  domainelsToPrologString : DomainElement → Option Name
  prologStringToPfsymbols : Name → Option Function
  pfsymbolsToPrologString : Function → Option Name
  predicateNameCounter : ℕ

def Translator.empty : Translator :=
  ⟨fun _ => none, fun _ => none, fun _ => none, fun _ => none, 1⟩

-- as in an unordered map, a key that is there already keeps its value
def insert {κ α : Type} [DecidableEq κ] (m : κ → Option α) (k : κ) (a : α) : κ → Option α :=
  if (m k).isSome then m else Function.update m k (some a)

def isoperator (c : Char) : Bool :=
  ['*', '(', ')', '/', '-', '+', '=', '%', '<', '>', '^', '.'].contains c

def isXSBNumber (str : Name) : Bool := str.all fun c => c.isDigit || isoperator c

def isXSBBuiltIn (str : Name) : Bool := isXSBNumber str

-- a char is signed, the number of a negative one is taken as an unsigned int
def charCode (c : Char) : ℕ := if c.toNat < 128 then c.toNat else 2 ^ 32 - 256 + c.toNat

def toSimpleChars (str : Name) : Name :=
  str.flatMap fun c => if c.isAlphanum then [c] else 'x' :: (digits (charCode c) ++ ['x'])

def freshName (setting : Setting) (id : ℕ) (str : Name) : Name :=
  if setting.shortNames then 'x' :: digits id else 'i' :: 'x' :: '_' :: (digits id ++ '_' :: toSimpleChars str)

def makeIntoPrologTermName (setting : Setting) (str : Name) (t : Translator) : Name × Translator :=
  if isXSBBuiltIn str then (str, t)
  else (freshName setting (t.predicateNameCounter + 1) str,
    { t with predicateNameCounter := t.predicateNameCounter + 1 })

def addToMappings (d : DomainElement) (str : Name) (t : Translator) : Translator :=
  { t with
    prologStringToDomainels := insert t.prologStringToDomainels str d
    domainelsToPrologString := insert t.domainelsToPrologString d str }

def addSymbolToMappings (f : Function) (str : Name) (t : Translator) : Translator :=
  { t with
    prologStringToPfsymbols := insert t.prologStringToPfsymbols str f
    pfsymbolsToPrologString := insert t.pfsymbolsToPrologString f str }

-- the qualified name is followed by the pointer
def symbolText (setting : Setting) (f : Function) : Name :=
  setting.fqnName f ++ '0' :: 'x' :: Nat.toDigits 16 f.address

def symbolToPrologTerm (setting : Setting) (f : Function) (t : Translator) : Name × Translator :=
  match t.pfsymbolsToPrologString f with
  | some str => (str, t)
  | none =>
    let (str, t) := makeIntoPrologTermName setting (symbolText setting f) t
    (str, addSymbolToMappings f str t)

def bytes (s : String) : Name := s.toUTF8.toList.map fun b => Char.ofNat b.toNat

def printDouble : Double → Name
  | .nan => ['n', 'a', 'n']
  | .negInfinity => ['-', 'i', 'n', 'f']
  | .value q => print 15 q
  | .posInfinity => ['i', 'n', 'f']

def brackets : Delimiters Char := ⟨'(', ')', ',', by decide, by decide, by decide⟩

def termName (fname : Name) (args : List Name) : Name :=
  if args = [] then fname else brackets.apply fname args

mutual

def toPrologTerm (setting : Setting) (t : Translator) : DomainElement → Name × Translator
  | .int n =>
    match t.domainelsToPrologString (.int n) with
    | some str => (str, t)
    | none => (printInt n.1, addToMappings (.int n) (printInt n.1) t)
  | .double x h =>
    match t.domainelsToPrologString (.double x h) with
    | some str => (str, t)
    | none => (printDouble x, addToMappings (.double x h) (printDouble x) t)
  | .string s =>
    match t.domainelsToPrologString (.string s) with
    | some str => (str, t)
    | none =>
      let (str, t) := makeIntoPrologTermName setting (toSimpleChars ('"' :: (bytes s ++ ['"']))) t
      (str, addToMappings (.string s) str t)
  | .compound f args =>
    match t.domainelsToPrologString (.compound f args) with
    | some str => (str, t)
    | none =>
      let (fname, t₁) := symbolToPrologTerm setting f t
      let (names, t₂) := toPrologTerms setting t₁ args
      (termName fname names, addToMappings (.compound f args) (termName fname names) t₂)

def toPrologTerms (setting : Setting) (t : Translator) : List DomainElement → List Name × Translator
  | [] => ([], t)
  | d :: ds =>
    let (str, t₁) := toPrologTerm setting t d
    let (strs, t₂) := toPrologTerms setting t₁ ds
    (str :: strs, t₂)

end

-- the text between the first bracket and the last character
def argumentText (ctor str : Name) : Name :=
  (str.drop (ctor.length + 1)).take (str.length - 2 - ctor.length)

def constructorText (str : Name) : Name := str.takeWhile (· ≠ '(')

def argumentTexts (str : Name) : List Name :=
  let ctor := constructorText str
  if ctor.length < str.length then brackets.split (argumentText ctor str) else []

theorem weight_argumentTexts (str : Name) : Delimiters.weight (argumentTexts str) ≤ str.length := by
  simp only [argumentTexts]
  split
  · rw [Delimiters.weight_split, argumentText, List.length_take, List.length_drop]
    omega
  · exact Nat.zero_le _

-- the decoder keeps what it has read, for the other direction nothing is stored
def addAnswer (d : DomainElement) (str : Name) (t : Translator) : Translator :=
  { t with prologStringToDomainels := insert t.prologStringToDomainels str d }

mutual

def toIdpDomelem (setting : Setting) (t : Translator) (str : Name) (sort : VSort) :
    Option (DomainElement × Translator) :=
  match t.prologStringToDomainels str with
  | some d => some (d, t)
  | none =>
    if setting.isConstructed sort then
      match t.prologStringToPfsymbols (constructorText str) with
      -- a name that is no symbol's is looked up as a null pointer
      | none => none
      | some f =>
        match toIdpElementtuple setting t (argumentTexts str) f.sorts with
        | none => none
        | some (args, t') => some (.compound f args, addAnswer (.compound f args) str t')
    else some (setting.createLeaf str sort, addAnswer (setting.createLeaf str sort) str t)
termination_by 2 * str.length + 1
decreasing_by
  have hweight := weight_argumentTexts str
  omega

def toIdpElementtuple (setting : Setting) (t : Translator) (answers : List Name) (sorts : List VSort) :
    Option (List DomainElement × Translator) :=
  match answers, sorts with
  | [], _ => some ([], t)
  | _ :: _, [] => none
  | answer :: answers, sort :: sorts =>
    match toIdpDomelem setting t answer sort with
    | none => none
    | some (d, t') =>
      match toIdpElementtuple setting t' answers sorts with
      | none => none
      | some (ds, t'') => some (d :: ds, t'')
termination_by 2 * Delimiters.weight answers
decreasing_by
  all_goals simp only [Delimiters.weight, List.map_cons, List.sum_cons]; omega

end

mutual

def subelements : DomainElement → List DomainElement
  | .int n => [.int n]
  | .double x h => [.double x h]
  | .string s => [.string s]
  | .compound f args => .compound f args :: occurring args

def occurring : List DomainElement → List DomainElement
  | [] => []
  | d :: ds => subelements d ++ occurring ds

end

def printNumber : DomainElement → Option Name
  | .int n => some (printInt n.1)
  | .double x _ => some (printDouble x)
  | .string _ => none
  | .compound _ _ => none

def encode (setting : Setting) (l : List DomainElement) : Translator := (toPrologTerms setting .empty l).2

-- the answers are decoded one after the other
inductive Answering (setting : Setting) (l : List DomainElement) : Translator → Prop
  | encoded : Answering setting l (encode setting l)
  | answered {t t' str sort d} : Answering setting l t → toIdpDomelem setting t str sort = some (d, t') →
      Answering setting l t'

def nameOf (setting : Setting) (l : List DomainElement) (d : DomainElement) : Name :=
  (toPrologTerm setting (encode setting l) d).1

structure Faithful (setting : Setting) (l : List DomainElement) : Prop where
  given : (toPrologTerms setting .empty l).1 = l.map (nameOf setting l)
  injective : ∀ d ∈ occurring l, ∀ e ∈ occurring l, nameOf setting l d = nameOf setting l e → d = e
  roundTrip : ∀ t, Answering setting l t → ∀ d ∈ occurring l, ∀ sort,
    toIdpDomelem setting t (nameOf setting l d) sort = some (d, t)
  compound : ∀ t, Answering setting l t → ∀ f fname, t.pfsymbolsToPrologString f = some fname →
    ∀ args, (∀ a ∈ args, brackets.IsTerm a) → t.prologStringToDomainels (termName fname args) = none →
    ∀ sort, setting.isConstructed sort = true →
      (toIdpDomelem setting t (termName fname args) sort).map Prod.fst =
        (toIdpElementtuple setting t args f.sorts).map fun p => .compound f p.1

def NumbersApart (l : List DomainElement) : Prop :=
  ∀ d ∈ occurring l, ∀ e ∈ occurring l, ∀ str, printNumber d = some str → printNumber e = some str → d = e

end XSBToIDPTranslator
