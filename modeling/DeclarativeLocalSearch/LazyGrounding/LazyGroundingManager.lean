import DeclarativeLocalSearch.LazyGrounding.DelayedSentence

namespace LazyGrounding

variable {Q D C : Type} {arity : Q → ℕ}

abbrev ElementTuple (arity : Q → ℕ) (D : Type) (symbol : Q) := {t : List D // t.length = arity symbol}

-- an input atom is its symbol with its tuple
structure Literal (arity : Q → ℕ) (D : Type) where
  symbol : Q
  args : ElementTuple arity D symbol
  value : Bool
  deriving DecidableEq

instance [DecidableEq Q] [DecidableEq D] : LawfulBEq (Literal arity D) := inferInstance

-- a delayed sentence with what its grounder reports and the literals it was fired for
structure WatchingSentence (arity : Q → ℕ) (D C : Type) where
  delay : Delay arity D C
  groundersdone : List (C → Option D) → Bool
  sentence : DelayedSentence C D
  alreadygroundedlits : List (Literal arity D)

structure LazyGroundingManager (arity : Q → ℕ) (D C : Type) where
  symbol2knownlits : (symbol : Q) → Bool → List (ElementTuple arity D symbol)
  alreadygroundedlits : List (Literal arity D)
  sentences : List (WatchingSentence arity D C)
  symbol2watchedsentences : Q → Bool → List ℕ

namespace LazyGroundingManager

variable [DecidableEq Q] [DecidableEq C] [DecidableEq D]

def getFiredLits (m : LazyGroundingManager arity D C) (symbol : Q) (value : Bool) : List (List D) :=
  (m.symbol2knownlits symbol value).map Subtype.val

def addKnown (lit : Literal arity D) (m : LazyGroundingManager arity D C) : LazyGroundingManager arity D C :=
  if lit ∈ m.alreadygroundedlits then m
  else { m with
    symbol2knownlits := Function.update m.symbol2knownlits lit.symbol
      (Function.update (m.symbol2knownlits lit.symbol) lit.value
        (m.symbol2knownlits lit.symbol lit.value ++ [lit.args]))
    alreadygroundedlits := lit :: m.alreadygroundedlits }

def setWatched (symbol : Q) (value : Bool) (watching : List ℕ) (m : LazyGroundingManager arity D C) :
    LazyGroundingManager arity D C :=
  { m with
    symbol2watchedsentences := Function.update m.symbol2watchedsentences symbol
      (Function.update (m.symbol2watchedsentences symbol) value watching) }

end LazyGroundingManager

variable [DecidableEq Q] [DecidableEq C] [DecidableEq D]

def WatchingSentence.specificFire (firedLits : Q → Bool → List (List D)) (lit : Literal arity D)
    (s : WatchingSentence arity D C) : WatchingSentence arity D C :=
  if lit ∈ s.alreadygroundedlits then s
  else { s with
    alreadygroundedlits := lit :: s.alreadygroundedlits
    sentence :=
      if s.sentence.done then s.sentence
      else s.sentence.notifyFired s.groundersdone firedLits s.delay lit.symbol lit.args.1 }

namespace LazyGroundingManager

def specificFire (index : ℕ) (lit : Literal arity D) (m : LazyGroundingManager arity D C) :
    LazyGroundingManager arity D C :=
  { m with sentences := m.sentences.modify index (·.specificFire m.getFiredLits lit) }

def isDone (m : LazyGroundingManager arity D C) (index : ℕ) : Bool :=
  m.sentences[index]?.any (·.sentence.done)

-- the sentences that watch, without those that are done
def fireWatching (lit : Literal arity D) :
    List ℕ → LazyGroundingManager arity D C → List ℕ × LazyGroundingManager arity D C
  | [], m => ([], m)
  | index :: watching, m =>
    let m := m.specificFire index lit
    let (rest, m') := fireWatching lit watching m
    (if m.isDone index then rest else index :: rest, m')

def fired (lit : Literal arity D) (m : LazyGroundingManager arity D C) : LazyGroundingManager arity D C :=
  let m := m.addKnown lit
  let (watching, m) := fireWatching lit (m.symbol2watchedsentences lit.symbol lit.value) m
  m.setWatched lit.symbol lit.value watching

def watch (index : ℕ) (conjunct : ContainerAtom arity D C) (m : LazyGroundingManager arity D C) :
    LazyGroundingManager arity D C :=
  m.setWatched conjunct.symbol conjunct.watchedvalue
    (m.symbol2watchedsentences conjunct.symbol conjunct.watchedvalue ++ [index])

def fireAllKnown (index : ℕ) (conjunct : ContainerAtom arity D C) (m : LazyGroundingManager arity D C) :
    LazyGroundingManager arity D C :=
  (m.symbol2knownlits conjunct.symbol conjunct.watchedvalue).foldl
    (fun m args => m.specificFire index ⟨conjunct.symbol, args, conjunct.watchedvalue⟩) m

-- the literals that were introduced before are fired for every conjunct
def delay (d : Delay arity D C) (groundersdone : List (C → Option D) → Bool) (containers : C → Option D)
    (m : LazyGroundingManager arity D C) : LazyGroundingManager arity D C :=
  let index := m.sentences.length
  d.condition.foldl
    (fun m conjunct => d.condition.foldl (fun m conjunct => m.fireAllKnown index conjunct) (m.watch index conjunct))
    { m with sentences := m.sentences ++ [⟨d, groundersdone, ⟨false, containers, []⟩, []⟩] }

end LazyGroundingManager

inductive Event (arity : Q → ℕ) (D C : Type) where
  | fired (lit : Literal arity D)
  | delay (d : Delay arity D C) (groundersdone : List (C → Option D) → Bool) (containers : C → Option D)

namespace LazyGroundingManager

def handle (m : LazyGroundingManager arity D C) : Event arity D C → LazyGroundingManager arity D C
  | .fired lit => m.fired lit
  | .delay d groundersdone containers => m.delay d groundersdone containers

def handleAll (events : List (Event arity D C)) : LazyGroundingManager arity D C :=
  events.foldl handle ⟨fun _ _ => [], [], [], fun _ _ => []⟩

end LazyGroundingManager

end LazyGrounding
