import DeclarativeLocalSearch.Foundation.NaturalJoin

namespace LazyGrounding

variable {Q D C : Type} {arity : Q → ℕ}

abbrev SortTable (D : Type) := D → Bool

structure ContainerAtom (arity : Q → ℕ) (D C : Type) where
  symbol : Q
  tables : List (SortTable D)
  args : List C
  watchedvalue : Bool
  tables_length : tables.length = arity symbol
  args_length : args.length = arity symbol

-- no delay is found that watches a symbol on both values
structure Delay (arity : Q → ℕ) (D C : Type) where
  condition : List (ContainerAtom arity D C)
  nonempty : condition ≠ []
  one_value : ∀ c ∈ condition, ∀ c' ∈ condition, c.symbol = c'.symbol → c.watchedvalue = c'.watchedvalue

-- the runs of the sentence so far are the instantiations it was grounded for
structure DelayedSentence (C D : Type) where
  done : Bool
  containers : C → Option D
  grounded : List (C → Option D)

structure FireInformation (C D : Type) extends DelayedSentence C D where
  fullinstantiation : List C

namespace FireInformation

variable [DecidableEq C] [DecidableEq D]

def value (info : FireInformation C D) (c : C) : Option D :=
  if c ∈ info.fullinstantiation then info.containers c else none

def set (info : FireInformation C D) (container : C) (d : D) : FireInformation C D :=
  { info with
    containers := Function.update info.containers container (some d)
    fullinstantiation := container :: info.fullinstantiation }

-- whether the tuple is valid, and whether a container was bound
def bind : List (C × SortTable D × D) → Bool → FireInformation C D → Bool × Bool × FireInformation C D
  | [], changed, info => (true, changed, info)
  | (container, table, d) :: places, changed, info =>
    if container ∈ info.fullinstantiation then
      if info.containers container ≠ some d then (false, changed, info)
      else if table d then bind places changed info else (false, changed, info)
    else if table d then bind places true (info.set container d) else (false, true, info.set container d)

def run (groundersdone : List (C → Option D) → Bool) (info : FireInformation C D) : FireInformation C D :=
  let grounded := info.grounded ++ [info.value]
  { info with grounded, done := info.done || groundersdone grounded }

def restore (savedinst : List C) (info : FireInformation C D) : FireInformation C D :=
  { info with fullinstantiation := savedinst }

-- the tuples of a conjunct, the instantiation saved before them; next goes on with the other conjuncts
def fireTuples (next : FireInformation C D → FireInformation C D) (conjunct : ContainerAtom arity D C)
    (savedinst : List C) : List (List D) → Bool → FireInformation C D → FireInformation C D
  | [], _, info => info.restore savedinst
  | tuple :: tuples, changed, info =>
    let info := if changed then info.restore savedinst else info
    let (valid, changed, info) := info.bind (conjunct.args.zip (conjunct.tables.zip tuple)) false
    if valid then
      let info := next info
      if info.done then info else fireTuples next conjunct savedinst tuples changed info
    else fireTuples next conjunct savedinst tuples changed info

def recursiveFire (groundersdone : List (C → Option D) → Bool) (firedLits : Q → Bool → List (List D))
    (firedindex : ℕ) (tuplefired : List D) :
    List (ContainerAtom arity D C) → ℕ → FireInformation C D → FireInformation C D
  | [], _, info => info.run groundersdone
  | conjunct :: conjunction, currentindex, info =>
    if info.done then info
    else fireTuples (recursiveFire groundersdone firedLits firedindex tuplefired conjunction (currentindex + 1))
      conjunct info.fullinstantiation
      (if firedindex = currentindex then [tuplefired] else firedLits conjunct.symbol conjunct.watchedvalue) false info

end FireInformation

section NotifyFired

variable [DecidableEq Q] [DecidableEq C] [DecidableEq D] (groundersdone : List (C → Option D) → Bool)
  (firedLits : Q → Bool → List (List D)) (delay : Delay arity D C)

def Delay.matchedindices (symbol : Q) : List ℕ :=
  (delay.condition.zipIdx.filter fun c => c.1.symbol = symbol).map Prod.snd

def DelayedSentence.fireAt (tuple : List D) (index : ℕ) (sentence : DelayedSentence C D) : DelayedSentence C D :=
  (FireInformation.recursiveFire groundersdone firedLits index tuple delay.condition 0
    ⟨sentence, []⟩).toDelayedSentence

-- nothing is grounded while a conjunct has no tuple
def DelayedSentence.notifyFired (symbol : Q) (tuple : List D) (sentence : DelayedSentence C D) :
    DelayedSentence C D :=
  if ∃ c ∈ delay.condition, firedLits c.symbol c.watchedvalue = [] then sentence
  else (delay.matchedindices symbol).foldl
    (fun sentence index => sentence.fireAt groundersdone firedLits delay tuple index) sentence

end NotifyFired

end LazyGrounding
