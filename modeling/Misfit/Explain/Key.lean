import Misfit.Explain.Access

/-!
# Keys that an object does not have

Two conflicts are about a key: a write to a property that the type of the object does not declare, and a
read from a map whose index signatures do not accept the key. A placeholder stands in for the source of
both.
-/
namespace Misfit

namespace Types

/-- An index signature accepts a key of its own type and, if it is for strings, numeric keys. -/
def acceptsKey (t : Types) (signature key : TypeId) : Bool :=
  signature = TypeId.any || key = TypeId.any || t.render signature = t.renderWidened key ||
    (signature = TypeId.string && t.isOneOf key Category.numberLike)

end Types

namespace Site

variable (s : Site)

/-- The value that is written, if an access is what an assignment writes to. -/
def writtenValue? (access : NodeId) : Option NodeId :=
  (s.source.node? (s.source.parent access)).bind fun n =>
    if n.kind = .binaryExpression ∧ n.flags.assignment = true ∧ n.child 0 = access then some (n.child 1)
    else none

/-- Explains a write to a property that the object does not declare. -/
def explainWrite : Explaining := fun r =>
  match s.writtenValue? s.root with
  | none => (.error .unsupportedKind, r)
  | some value =>
    match s.typeOf value with
    | none => (.error .missingType, r)
    | some type =>
      let path := s.accessPath s.root
      match path.getLast? with
      | none => (.error .missingType, r)
      | some object =>
        let r := if (s.types.indexes object.type).isEmpty then r else { r with missingIndex := true }
        let placeholder := describePlaceholder object.key (s.types.renderWidened type)
          (s.source.link value) type
        (.ok (), r.add
          { conflict := s.placeholderConflict (s.breadcrumbs path.dropLast) object.node object.type
              placeholder object.key
            source := some value, target := some object.node
            missingKey := some ⟨object.key, object.type⟩ })

/-- Evidence that a map rejects a key; nothing if the access is not a read of that sort. -/
def rejectedKey? (access : NodeId) : Option Evidence :=
  let object := s.source.child access 0
  let keyNode := s.source.child access 1
  match s.typeOf object, s.typeOf keyNode with
  | some objectType, some keyType =>
    let signatures := s.types.indexes objectType
    if signatures.isEmpty || signatures.any (s.types.acceptsKey ·.key keyType) then none
    else
      let key := "[key: " ++ s.types.renderWidened keyType ++ "]"
      let placeholder := describePlaceholder key "any" (s.source.link keyNode) TypeId.any
      some
        { conflict := s.placeholderConflict Trail.empty object objectType placeholder key
          source := some keyNode, target := some object, missingKey := some ⟨key, objectType⟩ }
  | _, _ => none

end Site

end Misfit
