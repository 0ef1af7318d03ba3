import Misfit.Compare.Property
import Misfit.Compare.Select
import Misfit.Guard

/-!
# Comparing a source type with a target type

A comparison answers which part of a source does not fit a target. Arrays are compared by their
elements, unions are taken apart on both sides, and object shapes are set against each other property by
property. Pairs of properties that have parts of their own are compared only after the shapes around
them agree, so a conflict is always reported at the shallowest level that explains it.

A guard bounds the comparison. A pair that is being compared already, further up, counts as fitting, and
so does any pair beyond the limits. The recursion is on the depth that the guard still allows.
-/
namespace Misfit

/-- How types are compared. -/
structure Mode where
  /-- At the top level, a literal fits a target of its family, as it does in a call. -/
  callArgument : Bool := false
  /-- The properties of the source are looked up on the target as well. -/
  bothWays : Bool := true
  deriving DecidableEq, Repr

namespace Mode

/-- For the arguments of a call. -/
def call : Mode := { callArgument := true }

end Mode

/-- What is compared, and how. -/
structure Comparison where
  program : Program
  mode : Mode := {}

/-- Pairs of types, ordered by the first one and then by the second. -/
instance : Ord (TypeId × TypeId) := lexOrd

/-- The pairs of types that are being compared. -/
abbrev Walk := Guard (TypeId × TypeId)

/-- A walk before its first comparison. -/
def Walk.start : Walk := { limits := Limits.shapeComparison }

/-- A comparison of a target with a source: a conflict, unless the source fits, and the records after.
What is kept on record is left open: one round of a comparison only passes it on, and just the guard
looks into it. -/
abbrev Comparer (ω : Type) := TypeId → TypeId → Trail → ω → Option Conflict × ω

/-- What setting a member of the source against a member of the target comes to. -/
inductive MemberMatch
  /-- They agree, as far as can be said before the pairs are compared. -/
  | satisfied (open_ : List NestedPair)
  | shape (clash : ShapeClash)
  /-- Two arrays whose elements conflict. -/
  | nested (conflict : Conflict)
  | unrelated
  deriving DecidableEq, Repr

/-- The explanations found for a member of the source that has not been matched yet. -/
structure Candidates where
  shapes : List ShapeClash := []
  nested : Option Conflict := none
  deriving DecidableEq, Repr

namespace Types

/-- The types are the same, print the same, or one of them is `any`. -/
def triviallyFits (t : Types) (target source : TypeId) : Bool :=
  target = source || target = TypeId.any || source = TypeId.any || t.render target = t.render source

/-- The facts about one side of a type clash. -/
def facts (t : Types) (i : TypeId) : Facts where
  isArray := t.isArray i
  isNever := t.isNever i
  isSimple := t.isSimple i

end Types

namespace Program

/-- The clash of two types as a whole. -/
def typeClash (p : Program) (target source : TypeId) : TypeClash where
  sourceSide := p.describeType source
  targetSide := p.describeType target
  source := p.types.facts source
  target := p.types.facts target
  like := p.types.areLike source target

end Program

/-- Just one side is an array, and the other is not a union that may have an array among its members. -/
def Shape.arrayAgainstOther : Shape → Shape → Bool
  | .arrayOf _, .arrayOf _ => false
  | .arrayOf _, .union _ => false
  | .union _, .arrayOf _ => false
  | .arrayOf _, _ => true
  | _, .arrayOf _ => true
  | _, _ => false

/-- An array is set against something else exactly if only one side is an array and the other one is
not a union. -/
theorem Shape.arrayAgainstOther_eq_false_iff {a b : Shape} (h : (a.isArray && b.isArray) = false) :
    a.arrayAgainstOther b = false ↔
      (a.isArray = true → b.isUnion = true) ∧ (b.isArray = true → a.isUnion = true) := by
  cases a <;> cases b <;> simp_all [arrayAgainstOther, isArray, isUnion]

/-- Where an array is set against something else, no side is a union. -/
theorem Shape.of_arrayAgainstOther {a b : Shape} (h : a.arrayAgainstOther b = true) :
    (a.isArray = true ∨ b.isArray = true) ∧ a.isUnion = false ∧ b.isUnion = false := by
  cases a <;> cases b <;> simp_all [arrayAgainstOther, isArray, isUnion]

/-- Objects and functions. -/
def Shape.hasProperties : Shape → Bool
  | .structured _ | .function _ => true
  | _ => false

namespace Comparison

variable (c : Comparison) {ω : Type}

/-- Sets two shapes against each other on the surface. -/
def matchShapes (target source : TypeId) : MemberMatch :=
  let forward := c.program.diffProperties target source
  let reverse := if c.mode.bothWays then some (c.program.diffProperties source target) else none
  if forward.hasProblem || reverse.any PropertyDiff.hasProblem then
    .shape (c.program.shapeClash target source forward reverse)
  else .satisfied forward.nested

/-- A literal argument fits a parameter of its family. -/
def fitsAsArgument (target source : TypeId) (trail : Trail) : Bool :=
  c.mode.callArgument && trail.length = 1 && c.program.types.isLiteral source &&
    c.program.types.areLike source target

/-- Sets a member of the source against a member of the target. -/
def matchMember (inner : Comparer ω) (trail : Trail) (target source : TypeId) (w : ω) :
    MemberMatch × ω :=
  let types := c.program.types
  if types.triviallyFits target source || c.fitsAsArgument target source trail then (.satisfied [], w)
  else match types.shape target, types.shape source with
    | .arrayOf targetElement, .arrayOf sourceElement =>
      match inner targetElement sourceElement trail w with
      | (none, w) => (.satisfied [], w)
      | (some conflict, w) => (.nested conflict, w)
    | targetShape, sourceShape =>
      if targetShape.hasProperties && sourceShape.hasProperties then (c.matchShapes target source, w)
      else (.unrelated, w)

/-- Looks for the first of several targets that a member of the source agrees with. -/
def firstMatch (inner : Comparer ω) (trail : Trail) (source : TypeId) :
    List TypeId → Candidates → ω → Except Candidates (List NestedPair) × ω
  | [], found, w => (.error found, w)
  | target :: rest, found, w =>
    match c.matchMember inner trail target source w with
    | (.satisfied pairs, w) => (.ok pairs, w)
    | (.shape clash, w) =>
      firstMatch inner trail source rest { found with shapes := found.shapes ++ [clash] } w
    | (.nested conflict, w) =>
      firstMatch inner trail source rest { found with nested := found.nested.or (some conflict) } w
    | (.unrelated, w) => firstMatch inner trail source rest found w

/-- The best explanation for a member of the source that agrees with no member of the target. -/
def explain (trail : Trail) (target member : TypeId) (found : Candidates) : Conflict :=
  match found.shapes, found.nested with
  | [], some conflict => conflict
  | [], none => ⟨trail, .types (c.program.typeClash target member)⟩
  | shapes, _ => ⟨trail, .shapes (selectBest shapes)⟩

/-- Matches every member of the source, and collects the pairs left open. -/
def matchAll (inner : Comparer ω) (trail : Trail) (target : TypeId) (targets : List TypeId) :
    List TypeId → ω → Except Conflict (List NestedPair) × ω
  | [], w => (.ok [], w)
  | member :: rest, w =>
    match c.firstMatch inner trail member targets {} w with
    | (.error found, w) => (.error (c.explain trail target member found), w)
    | (.ok pairs, w) =>
      match matchAll inner trail target targets rest w with
      | (.ok more, w) => (.ok (pairs ++ more), w)
      | (.error conflict, w) => (.error conflict, w)

/-- Compares pairs left open, each one layer deeper, up to the first conflict. -/
def compareOpen (inner : Comparer ω) (trail : Trail) : List NestedPair → ω → Option Conflict × ω
  | [], w => (none, w)
  | pair :: rest, w =>
    match inner pair.target pair.source (trail.push pair.layer) w with
    | (none, w) => compareOpen inner trail rest w
    | (some conflict, w) => (some conflict, w)

/-- Compares two types that the guard has let in. -/
def compareEntered (inner : Comparer ω) (target source : TypeId) (trail : Trail) (w : ω) :
    Option Conflict × ω :=
  let types := c.program.types
  if types.triviallyFits target source then (none, w)
  else match types.shape target, types.shape source with
    | .arrayOf targetElement, .arrayOf sourceElement => inner targetElement sourceElement trail w
    | targetShape, sourceShape =>
      if targetShape.arrayAgainstOther sourceShape then
        (some ⟨trail, .types (c.program.typeClash target source)⟩, w)
      else
        match c.matchAll inner trail target (types.members target) (types.members source) w with
        | (.error conflict, w) => (some conflict, w)
        | (.ok pairs, w) => compareOpen inner trail pairs w

/-- Compares two types while at most `depth` more pairs can be entered. Beyond that, an attempt is
only counted. -/
def compareWithin : Nat → Comparer Walk
  | 0, _, _, _, w => (none, w.count)
  | depth + 1, target, source, trail, w =>
    match w.enter (target, source) with
    | (.entered, w) =>
      let (result, w) := c.compareEntered (compareWithin depth) target source trail w
      (result, w.leave (target, source))
    | (_, w) => (none, w)

/-- Compares a source with a target, in a walk that is under way. The trail ends with the layer that
describes the pair. -/
def compare : Comparer Walk := fun target source trail w =>
  c.compareWithin (w.limits.depth - w.depth) target source trail w

/-- Compares a source with a target in a walk of its own. -/
def conflict? (target source : TypeId) (trail : Trail) : Option Conflict :=
  (c.compare target source trail Walk.start).1

end Comparison

end Misfit
