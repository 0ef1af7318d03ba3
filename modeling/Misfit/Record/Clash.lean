import Misfit.Record.Trail

/-!
# Clashes

What a comparison finds where it fails: two types that clash as a whole, or object shapes that clash in
some of their properties. A shape clash sorts the property names of the target into groups, and lists
what the source has beyond the target if it was compared in both directions. Everything that sorting a
clash into its kind depends on is recorded in the clash.
-/
namespace Misfit

/-- What is known of one side of a type clash. -/
structure Facts where
  isArray : Bool := false
  /-- `never` or an array of it. -/
  isNever : Bool := false
  isSimple : Bool := false
  deriving DecidableEq, Repr

/-- Two types that clash as a whole. -/
structure TypeClash where
  sourceSide : Description
  targetSide : Description
  source : Facts
  target : Facts
  /-- Both types belong to one family of primitive types. -/
  like : Bool
  deriving DecidableEq, Repr

/-- Property names of the source that the target does not have. -/
structure Surplus where
  missing : List String := []
  optional : List String := []
  contextual : List String := []
  deriving DecidableEq, Repr

/-- Two object types whose properties clash. The lists hold names of the target's properties. -/
structure ShapeClash where
  targetSide : Description
  sourceSide : Description
  /-- On both sides with the same type. -/
  matched : List String := []
  mismatch : List String := []
  /-- On both sides with different types, but declared with the same text. -/
  misslike : List String := []
  /-- Required, and not on the source. -/
  missing : List String := []
  /-- Not required, and not on the source. -/
  optional : List String := []
  /-- Left to a comparison of their own, which was not made. -/
  unchecked : List String := []
  /-- Shown for orientation only. -/
  contextual : List String := []
  /-- The number of names on which the sides agree as far as was checked. -/
  overlap : Nat := 0
  /-- The number of properties of the larger side. -/
  total : Nat := 0
  surplus : Option Surplus := none
  deriving DecidableEq, Repr

/-- Why two types do not fit. -/
inductive Clash
  | types (clash : TypeClash)
  /-- One or more explanations, the best first. -/
  | shapes (candidates : List ShapeClash)
  /-- The number of arguments is wrong; no types were compared. -/
  | arity
  deriving DecidableEq, Repr

/-- Where a comparison fails, and why. -/
structure Conflict where
  trail : Trail
  clash : Clash
  deriving DecidableEq, Repr

/-- An argument of a call beside the parameter in its position. -/
structure ArgumentPair where
  source : Option Description := none
  target : Option Description := none
  /-- The parameter may be left out. -/
  optional : Bool := false
  deriving DecidableEq, Repr

/-- The arguments of a call beside its parameters. -/
structure CallOutline where
  pairs : List ArgumentPair := []
  /-- Position of the argument that was flagged. -/
  flagged : Option Nat := none
  tooMany : Bool := false
  tooFew : Bool := false
  deriving DecidableEq, Repr

/-- The kinds of conflict. -/
inductive ConflictKind
  | mustDeclare | arrayToNonArray | nonArrayToArray | misslike | mismatch | simpleToObject
  | objectToSimple | propMismatch | targetPropMissing | sourcePropMissing | bothMissing | both
  | missingIndex | tooManyArgs | tooFewArgs
  deriving DecidableEq, Repr

namespace ConflictKind

/-- The key under which a kind is reported. -/
def key : ConflictKind → String
  | mustDeclare => "mustDeclare"
  | arrayToNonArray => "arrayToNonArray"
  | nonArrayToArray => "nonArrayToArray"
  | misslike => "misslike"
  | mismatch => "mismatch"
  | simpleToObject => "simpleToObject"
  | objectToSimple => "objectToSimple"
  | propMismatch => "propMismatch"
  | targetPropMissing => "targetPropMissing"
  | sourcePropMissing => "sourcePropMissing"
  | bothMissing => "bothMissing"
  | both => "both"
  | missingIndex => "missingIndex"
  | tooManyArgs => "tooManyArgs"
  | tooFewArgs => "tooFewArgs"

/-- What a kind of conflict means to a reader. -/
def title : ConflictKind → String
  | mustDeclare => "Source needs declaration"
  | arrayToNonArray => "Source is an array but should be simple"
  | nonArrayToArray => "Source should be an array"
  | misslike => "Source needs a typecast"
  | mismatch => "The types are mismatched"
  | simpleToObject => "Source should be a function or object"
  | objectToSimple => "Source is a function or object but should be simple"
  | propMismatch => "Source has mismatched properties"
  | targetPropMissing => "Source is missing properties"
  | sourcePropMissing => "Source has too many properties"
  | bothMissing => "Object has missing properties"
  | both => "Object has mismatched and missing properties"
  | missingIndex => "The map is missing an index property"
  | tooManyArgs => "Too many calling arguments"
  | tooFewArgs => "Too few calling arguments"

end ConflictKind

namespace ShapeClash

/-- The required names of the source that the target lacks. -/
def surplusMissing (c : ShapeClash) : List String := c.surplus.elim [] Surplus.missing

end ShapeClash

namespace TypeClash

/-- The kind of a type clash. -/
def kind (c : TypeClash) : ConflictKind :=
  if c.source.isNever || c.target.isNever then .mustDeclare
  else if c.source.isArray && !c.target.isArray then .arrayToNonArray
  else if !c.source.isArray && c.target.isArray then .nonArrayToArray
  else if c.sourceSide.typeText = c.targetSide.typeText then .mismatch
  else if c.like then .misslike
  else if c.source.isSimple && c.target.isSimple then .mismatch
  else if c.source.isSimple then .simpleToObject
  else .objectToSimple

end TypeClash

namespace ShapeClash

/-- The kind of a shape clash; `indexed` says that the target is a map that rejects the key. -/
def kind (c : ShapeClash) (indexed : Bool) : ConflictKind :=
  let targetLacks := c.missing ≠ []
  let sourceLacks := c.surplusMissing ≠ []
  if c.misslike ≠ [] then .misslike
  else if (targetLacks ∨ sourceLacks) ∧ c.mismatch ≠ [] then .both
  else if (targetLacks ∨ sourceLacks) ∧ indexed then .missingIndex
  else if targetLacks ∧ sourceLacks then .bothMissing
  else if targetLacks then .targetPropMissing
  else if sourceLacks then .sourcePropMissing
  else .propMismatch

end ShapeClash

namespace Clash

/-- The kind of a clash in itself; of several explanations the first decides. -/
def kind (c : Clash) (indexed : Bool) : ConflictKind :=
  match c with
  | types clash => clash.kind
  | shapes (first :: _) => first.kind indexed
  | shapes [] => .mismatch
  | arity => .mismatch

/-- The kind of a clash found at a call: a wrong number of arguments comes before everything else. -/
def classify (c : Clash) (call : Option CallOutline) (indexed : Bool) : ConflictKind :=
  if call.any (·.tooMany) then .tooManyArgs
  else if call.any (·.tooFew) then .tooFewArgs
  else c.kind indexed

@[simp] theorem classify_none (c : Clash) (indexed : Bool) :
    c.classify none indexed = c.kind indexed := by simp [classify]

end Clash

end Misfit
