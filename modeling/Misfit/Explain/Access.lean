import Misfit.Explain.Site

/-!
# Dotted accesses

For a conflict in `a.b.c = v` the objects along the access are shown as breadcrumbs: `a`, which is asked
for `b`, and `a.b`, which is asked for `c`. Where the conflict is about a key rather than a node, as in
a write to a property that the object does not have, a placeholder stands in for the source.
-/
namespace Misfit

/-- An object along a dotted access and the key that it is asked for. -/
structure Segment where
  node : NodeId
  type : TypeId
  key : String
  deriving DecidableEq, Repr

namespace SourceFile

/-- The name that an access asks its object for. -/
def accessedName (f : SourceFile) (name : NodeId) : String := (f.declaredName name).getD (f.text name)

/-- The objects of nested accesses with the keys they are asked for, innermost access first, at most
`steps` of them. -/
def hops (f : SourceFile) : Nat → NodeId → List (NodeId × String)
  | 0, _ => []
  | steps + 1, access =>
    match f.node? access with
    | none => []
    | some n =>
      if n.kind = .propertyAccessExpression then
        (n.child 0, f.accessedName (n.child 1)) :: hops f steps (n.child 0)
      else []

end SourceFile

namespace Types

/-- The first member of a union that declares a key; the type itself if it is not a union or has no such
member. -/
def declaringMember (t : Types) (i : TypeId) (key : String) : TypeId :=
  let members := t.members i
  if members.length < 2 then i else (members.find? fun m => (t.property? m key).isSome).getD i

end Types

namespace Site

variable (s : Site)

/-- The type of an object along an access: the one the checker gave it, or else the type of the property
that the object before it was asked for. -/
def resolve (before : Option Segment) (node : NodeId) : Option TypeId :=
  (s.typeOf node).or <| before.bind fun b => (s.types.property? b.type b.key).map Member.type

/-- The segments of an access, up to the first object whose type is not known. -/
def segments (before : Option Segment) : List (NodeId × String) → List Segment
  | [] => []
  | (node, key) :: rest =>
    match s.resolve before node with
    | none => []
    | some type =>
      let segment : Segment := ⟨node, s.types.declaringMember type key, key⟩
      segment :: segments (some segment) rest

/-- The objects along an access, outermost first. -/
def accessPath (access : NodeId) : List Segment :=
  s.segments none (s.source.hops Limits.accessPath.depth access).reverse

/-- A layer for an object along an access, with nothing known of the source but the key. -/
def breadcrumb (segment : Segment) : Layer :=
  ⟨s.describe segment.node segment.type, .placeholder {} (some segment.key)⟩

/-- The trail along an access. -/
def breadcrumbs (path : List Segment) : Trail := Trail.ofLayers (path.map s.breadcrumb)

/-- Compares a placeholder with a single key of a target. A key that the target has is a mismatch, and
one that it does not have is missing; its other keys are shown as context. -/
def placeholderConflict (base : Trail) (node : NodeId) (target : TypeId) (placeholder : Description)
    (key : String) : Conflict :=
  let properties := (s.types.properties target).map Member.name
  let clash : ShapeClash :=
    { targetSide := s.program.describeType target
      sourceSide := placeholder
      mismatch := if key ∈ properties then [key] else []
      missing := if key ∈ properties then [] else [key]
      total := properties.length
      surplus := some { contextual := properties.filter (· ≠ key) } }
  { trail := base.push ⟨s.describe node target, .placeholder placeholder (some key)⟩
    clash := .shapes [clash] }

end Site

/-- How a placeholder for a key is shown, with a value of the given type. -/
def describePlaceholder (key typeText link : String) (type : TypeId) : Description :=
  { shown := key, typeText, label := labelOf key typeText, link, type := some type }

end Misfit
