import Mathlib

namespace TwoValued

inductive TruthValue where
  | true
  | false
  | unknown
  deriving DecidableEq, Repr

inductive Atom (P F D : Type) where
  | pred (p : P) (tuple : List D)
  | graph (f : F) (domainElement : List D) (image : D)
  deriving DecidableEq

-- the symbols with the tables of their sorts
structure Vocabulary (P F D : Type) where
  preds : List P
  funcs : List F
  isPartial : F → Bool
  predUniverse : P → List (List D)
  domain : F → List (List D)
  imageSort : F → List D
  preds_nodup : preds.Nodup
  funcs_nodup : funcs.Nodup
  predUniverse_nodup : ∀ p, (predUniverse p).Nodup
  domain_nodup : ∀ f, (domain f).Nodup
  imageSort_nodup : ∀ f, (imageSort f).Nodup

-- a consistent structure; a function is known to be two-valued when it has a function table, and of
-- a predicate it may not be known
structure Interpretation (P F D : Type) where
  value : Atom P F D → TruthValue
  functable : F → Bool
  approxTwoValued : P → Bool

variable {P F D : Type} [DecidableEq P] [DecidableEq F] [DecidableEq D]

def Interpretation.set (s : Interpretation P F D) (a : Atom P F D) (v : TruthValue) :
    Interpretation P F D :=
  { s with value := fun b => if b = a then v else s.value b }

section Clean

variable (voc : Vocabulary P F D) (s : Interpretation P F D) (f : F)

def images (v : TruthValue) (d : List D) : List D :=
  (voc.imageSort f).filter fun e => s.value (.graph f d e) = v

def tableSize (v : TruthValue) : ℕ :=
  ((voc.domain f).map fun d => (images voc s f v d).length).sum

def isInverse : Bool :=
  tableSize voc s f .true + tableSize voc s f .false =
    (voc.domain f).length * (voc.imageSort f).length

def approxTotalityCheck : Bool := tableSize voc s f .true = (voc.domain f).length

-- an image excludes the others
def excludeOthers : Interpretation P F D :=
  { s with
    value := fun
      | .graph g d e =>
        if g = f ∧ d ∈ voc.domain f ∧ e ∈ voc.imageSort f ∧ ∃ e' ∈ images voc s f .true d, e' ≠ e then
          .false
        else s.value (.graph g d e)
      | a => s.value a }

def setFuncTable : Interpretation P F D :=
  { s with
    value := fun
      | .graph g d e =>
        if g = f ∧ s.value (.graph f d e) ≠ .true then .false else s.value (.graph g d e)
      | a => s.value a
    functable := fun g => if g = f then Bool.true else s.functable g }

def cleanFunc : Interpretation P F D :=
  if s.functable f then s
  else
    let s := if voc.isPartial f then excludeOthers voc s f else s
    if (voc.isPartial f && isInverse voc s f) || approxTotalityCheck voc s f then
      if (voc.domain f).all fun d => (images voc s f .true d).length ≤ 1 then setFuncTable s f else s
    else s

-- cleaning a predicate changes no truth value
def clean : Interpretation P F D := voc.funcs.foldl (cleanFunc voc) s

end Clean

section MakeTwoValued

variable (voc : Vocabulary P F D)

def chooseImage (f : F) (s : Interpretation P F D) (d : List D) : Interpretation P F D :=
  if images voc s f .true d ≠ [] then s
  else
    match (voc.imageSort f).find? fun e => s.value (.graph f d e) ≠ .false with
    | some e => s.set (.graph f d e) .true
    | none => s

def makeTwoValuedFunc (s : Interpretation P F D) (f : F) : Interpretation P F D :=
  if s.functable f then s
  else cleanFunc voc ((voc.domain f).foldl (chooseImage voc f) s) f

def makeTwoValuedPred (s : Interpretation P F D) (p : P) : Interpretation P F D :=
  { s with
    value := fun
      | .pred q t => if q = p ∧ s.value (.pred q t) = .unknown then .false else s.value (.pred q t)
      | a => s.value a }

def makeTwoValued (s : Interpretation P F D) : Interpretation P F D :=
  clean voc (voc.preds.foldl makeTwoValuedPred (voc.funcs.foldl (makeTwoValuedFunc voc) s))

end MakeTwoValued

section Generate

def maxInt : ℕ := 2 ^ 31 - 1

def needFixedNumberOfModels (expected : ℕ) : Bool := expected ≠ 0 && expected < maxInt

def needMoreModels (expected found : ℕ) : Bool :=
  expected = 0 || (needFixedNumberOfModels expected && found < expected)

variable (voc : Vocabulary P F D) (need : ℕ → Bool) (original : Interpretation P F D)

def addModels (make : Interpretation P F D → Interpretation P F D) (others : ℕ) :
    List (Interpretation P F D) → List (Interpretation P F D) → List (Interpretation P F D)
  | [], newstructs => newstructs
  | s :: extensions, newstructs =>
    if need (others + newstructs.length) then
      addModels make others extensions (newstructs ++ [make s])
    else newstructs

def chooseImages (f : F) (d : List D) (extensions : List (Interpretation P F D)) :
    List D → List (Interpretation P F D) → List (Interpretation P F D) →
      List (Interpretation P F D)
  | [], partialfalsestructs, newstructs => newstructs ++ partialfalsestructs
  | e :: images, partialfalsestructs, newstructs =>
    if original.value (.graph f d e) = .false then
      chooseImages f d extensions images partialfalsestructs newstructs
    else
      chooseImages f d extensions images
        (partialfalsestructs.map fun s => s.set (.graph f d e) .false)
        (addModels need (fun s => clean voc (s.set (.graph f d e) .true))
          partialfalsestructs.length extensions newstructs)

def generateMorePreciseStructures (f : F) (d : List D)
    (extensions : List (Interpretation P F D)) : List (Interpretation P F D) :=
  chooseImages voc need original f d extensions (voc.imageSort f)
    (if voc.isPartial f then extensions else []) []

def extendDomain (f : F) :
    List (List D) → List (Interpretation P F D) → List (Interpretation P F D)
  | [], extensions => extensions
  | d :: ds, extensions =>
    if need extensions.length then
      if images voc original f .true d ≠ [] then extendDomain f ds extensions
      else extendDomain f ds (generateMorePreciseStructures voc need original f d extensions)
    else extensions

def extendFuncs : List F → List (Interpretation P F D) → List (Interpretation P F D)
  | [], extensions => extensions
  | f :: fs, extensions =>
    if need extensions.length then
      if original.functable f then extendFuncs fs extensions
      else extendFuncs fs (extendDomain voc need original f (voc.domain f) extensions)
    else extensions

def decideAtom (a : Atom P F D) :
    List (Interpretation P F D) → List (Interpretation P F D) → List (Interpretation P F D)
  | [], newstructs => newstructs
  | s :: extensions, newstructs =>
    if need newstructs.length then
      if need (newstructs ++ [s.set a .true]).length then
        decideAtom a extensions (newstructs ++ [s.set a .true] ++ [s.set a .false])
      else newstructs ++ [s.set a .true]
    else newstructs

def extendAtoms (p : P) :
    List (List D) → List (Interpretation P F D) → List (Interpretation P F D)
  | [], extensions => extensions
  | t :: ts, extensions =>
    if need extensions.length then
      if original.value (.pred p t) = .true then extendAtoms p ts extensions
      else extendAtoms p ts (decideAtom need (.pred p t) extensions [])
    else extensions

def extendPreds : List P → List (Interpretation P F D) → List (Interpretation P F D)
  | [], extensions => extensions
  | p :: ps, extensions =>
    if need extensions.length then
      if original.approxTwoValued p then extendPreds ps extensions
      else
        let pt := (voc.predUniverse p).filter fun t => original.value (.pred p t) ≠ .false
        extendPreds ps (extendAtoms need original p pt extensions)
    else extensions

def approxTwoValued : Bool :=
  voc.funcs.all original.functable && voc.preds.all original.approxTwoValued

def generateEnoughTwoValuedExtensions (expected prevcount : ℕ) : List (Interpretation P F D) :=
  if approxTwoValued voc original then [original]
  else
    let need := fun found => needMoreModels expected (found + prevcount)
    let extensions := extendPreds voc need original voc.preds
      (extendFuncs voc need original voc.funcs [original])
    let extensions :=
      if needFixedNumberOfModels expected then extensions.map (makeTwoValued voc) else extensions
    extensions.map (clean voc)

end Generate

end TwoValued
