import Misfit.Explain.Element

/-!
# Returned values

A `return` is compared with the declared result of the innermost function around it. Where a function is
assigned to something of a function type, its `return`s are compared with the result of that type, and
the expression it consists of stands in where it has none.
-/
namespace Misfit

namespace Site

variable (s : Site)

/-- The result that a function is declared to have. -/
def declaredResult (function : NodeId) : Option TypeId :=
  ((s.typeOf function).bind s.types.function?).map FunctionShape.result

/-- The result of a function, shown under the function's name. -/
def describeResult (function : NodeId) (type : TypeId) : Description :=
  let shown := (s.source.declaredName function).getD "return"
  let typeText := s.types.render type
  { shown, typeText, label := labelOf shown typeText, link := s.source.link function
    type := some type }

/-- The elements of the array literal recorded under a node, if they are to be compared one by one with
the elements of a target type. -/
def elementsFor (target : TypeId) (site : NodeId) : Option (TypeId × List Element) :=
  match s.types.element? target, s.index.elementsAt site with
  | some element, some elements => some (element, elements)
  | _, _ => none

/-- Explains a `return`. -/
def explainReturn : Explaining := fun r =>
  match s.index.containerOf s.root with
  | none => (.error .unsupportedKind, r)
  | some function =>
    match s.declaredResult function with
    | none => (.error .missingSignature, r)
    | some result =>
      let expression := s.source.child s.root 0
      if expression = NodeId.none then (.ok (), r)
      else match s.elementsFor result s.root with
        | some (element, elements) =>
          s.matchElements s.returnMode ⟨s.describeResult function element, some function, element⟩ {}
            elements r
        | none =>
          match s.typeOf expression with
          | none => (.error .missingType, r)
          | some type =>
            (.ok (), (s.compareValue s.returnMode function (s.describeResult function result) result
              expression type r).2)

/-- What a call evaluates to: the result of its callee's type, or else the type of the call. -/
def callResult (call : NodeId) : Option TypeId :=
  (s.declaredResult (s.source.child call 0)).or (s.typeOf call)

/-- Compares `return`s of an assigned function with the result that is asked for, one after the other, up
to the first that does not fit. -/
def matchReturns (target : NodeId) (result : TypeId) : List NodeId → Explaining
  | [], r => (.ok (), r)
  | statement :: rest, r =>
    let expression := s.source.child statement 0
    if expression = NodeId.none then matchReturns target result rest r
    else match s.elementsFor result statement with
      | some (element, elements) =>
        let shown := s.describe target element
        untilRecorded (s.matchElements s.returnMode ⟨shown, some target, element⟩ {} elements)
          (matchReturns target result rest) r
      | none =>
        match s.typeOf expression with
        | none => (.error .missingType, r)
        | some type =>
          match s.compareValue s.returnMode target (s.describe target result) result expression type
              r with
          | (true, r') => (.ok (), r')
          | (false, r') => matchReturns target result rest r'

/-- Compares the expression that a function without `return`s consists of. -/
def matchBody (target : NodeId) (result : TypeId) (function : NodeId) : Explaining := fun r =>
  let body := s.source.lastChild function
  let type? := match s.source.kind? body with
    | none | some .block => none
    | some .callExpression => some (s.callResult body)
    | some _ => some (s.typeOf body)
  match type? with
  | none => (.ok (), r)
  | some none => (.error .missingType, r)
  | some (some type) =>
    (.ok (), (s.compareValue s.returnMode target (s.describe target result) result body type r).2)

/-- Compares what an assigned function returns with the result that is asked for. -/
def explainFunction (target : NodeId) (result : TypeId) (function : NodeId) : Explaining :=
  match s.index.returnsOf function with
  | [] => s.matchBody target result function
  | returns => s.matchReturns target result returns

end Site

end Misfit
