import Misfit.Explain.Key
import Misfit.Explain.Returned

/-!
# Assignments

A declaration with an initializer and an assignment statement are explained alike: an array literal by
its elements, a function by what it returns, a read from a map by its key, and everything else by
comparing the value as a whole.
-/
namespace Misfit

namespace Site

variable (s : Site)

/-- The trail to what an assignment writes to. -/
def trailTo (target : NodeId) : Trail :=
  if s.source.kind? target = some .propertyAccessExpression then
    s.breadcrumbs (s.accessPath target)
  else Trail.empty

/-- Compares a value as a whole with what it is assigned to. -/
def compareAssigned (target : NodeId) (targetType : TypeId) (value : NodeId) : Explaining := fun r =>
  match s.typeOf value with
  | none => (.error .missingType, r)
  | some type =>
    let layer : Layer := ⟨s.describe target targetType, .node (s.describe value type)⟩
    match s.conflict? {} targetType type ((s.trailTo target).push layer) with
    | none => (.ok (), r)
    | some conflict =>
      (.ok (), r.add { conflict, source := value.toOption, target := target.toOption })

/-- The result that is asked of an assigned function. -/
def resultFor? (targetType : TypeId) (value : NodeId) : Option TypeId :=
  if (s.source.kind? value).any Kind.isFunctionLike then
    (s.types.function? targetType).map FunctionShape.result
  else none

/-- Evidence that an assigned read from a map has a key that the map rejects. -/
def rejectedRead? (value : NodeId) : Option Evidence :=
  if s.source.kind? value = some .elementAccessExpression then s.rejectedKey? value else none

/-- Explains an assignment; `site` is the node that an array literal is recorded under. -/
def explainAssigned (site target : NodeId) (targetType : TypeId) (value : NodeId) : Explaining :=
  fun r =>
    match s.elementsFor targetType site with
    | some (element, elements) =>
      s.matchElements {} ⟨s.describe target element, some target, element⟩ {} elements r
    | none =>
      match s.resultFor? targetType value with
      | some result => s.explainFunction target result value r
      | none =>
        match s.rejectedRead? value with
        | some evidence => (.ok (), { r with missingIndex := true }.add evidence)
        | none => s.compareAssigned target targetType value r

/-- Explains a declaration with an initializer. -/
def explainDeclaration : Explaining := fun r =>
  let name := s.source.child s.root 0
  let initializer := s.source.lastChild s.root
  if (s.source.children s.root).length < 2 ∨ s.source.kind? initializer = some .annotatedType then
    (.error .unsupportedKind, r)
  else match (s.typeOf name).or (s.typeOf s.root) with
    | none => (.error .missingType, r)
    | some type => s.explainAssigned s.root name type initializer r

/-- Explains a statement that consists of an assignment. -/
def explainStatement : Explaining := fun r =>
  let expression := s.source.child s.root 0
  match s.source.node? expression with
  | none => (.error .unsupportedKind, r)
  | some n =>
    if n.kind = .binaryExpression ∧ n.flags.assignment = true then
      match s.typeOf (n.child 0) with
      | none => (.error .missingType, r)
      | some type => s.explainAssigned expression (n.child 0) type (n.child 1) r
    else (.error .unsupportedKind, r)

end Site

end Misfit
