import Misfit.Explain.Element

/-!
# Calls

The number of arguments is checked before any types are compared. A parameter may be left out if it is
marked so or if its type admits `undefined`; for the comparison `undefined` is taken out of its type,
which may enter a new union into the table of types. Then each argument is compared with its parameter,
up to the first that does not fit.
-/
namespace Misfit

/-- A parameter with `undefined` taken out of its type. -/
structure Parameter where
  shown : Description
  type : TypeId
  optional : Bool
  deriving DecidableEq, Repr

/-- An argument of a known type. -/
structure Argument where
  node : NodeId
  type : TypeId
  shown : Description
  deriving DecidableEq, Repr

namespace Program

/-- Takes `undefined` out of the type of a parameter. -/
def narrowParameter (p : Program) (m : Member) : Program × Parameter :=
  let (types, type, narrowed) := p.types.withoutUndefined m.type
  let p := { p with types }
  let optional := m.optional || narrowed
  let typeText := types.render type
  let shown : Description :=
    { shown := m.name, typeText, label := labelOf (m.name ++ (if optional then "?" else "")) typeText
      link := m.declaration.elim "" p.declarationLink, type := some type }
  (p, ⟨shown, type, optional⟩)

/-- Narrows parameters one after the other. -/
def narrowParameters (p : Program) : List Member → Program × List Parameter
  | [] => (p, [])
  | m :: rest =>
    let (p, parameter) := p.narrowParameter m
    let (p, parameters) := narrowParameters p rest
    (p, parameter :: parameters)

end Program

/-- Arguments and parameters by position, as far as there are either. -/
def pairUp (arguments : List Argument) (parameters : List Parameter) : List ArgumentPair :=
  (List.range (max arguments.length parameters.length)).map fun i =>
    { source := arguments[i]?.map Argument.shown
      target := parameters[i]?.map Parameter.shown
      optional := parameters[i]?.any Parameter.optional }

/-- A parameter that may not be left out, but is. -/
def ArgumentPair.isUnmet (pair : ArgumentPair) : Bool :=
  pair.source.isNone && pair.target.isSome && !pair.optional

namespace CallOutline

/-- The position at which the number of arguments goes wrong. -/
def offending? (o : CallOutline) (parameters : Nat) : Option Nat :=
  if o.tooMany then some parameters else o.pairs.findIdx? ArgumentPair.isUnmet

/-- Evidence of a wrong number of arguments, shown at the position where it goes wrong. -/
def arityEvidence (o : CallOutline) (callee : NodeId) (arguments : List Argument) (position : Nat) :
    Evidence :=
  let pair := o.pairs[position]?.getD {}
  let layer : Layer := ⟨pair.target.getD {}, .node (pair.source.getD {})⟩
  { conflict := ⟨Trail.empty.push layer, .arity⟩
    source := arguments[position]?.map Argument.node, target := some callee, call := some o
    remaining := o.pairs.length - position - 1 }

end CallOutline

namespace Site

variable (s : Site)

/-- The nodes of the arguments of a call. -/
def argumentNodes (call : NodeId) : List NodeId := (s.source.children call).drop 1

/-- The arguments of a call, if the types of all of them are known. -/
def typedArguments? (nodes : List NodeId) : Option (List Argument) :=
  nodes.mapM fun node => (s.typeOf node).map fun type =>
    ⟨node, type, s.program.describeWidened s.source node type⟩

/-- A node lies at or below another one. -/
def lies (node above : NodeId) : Bool := above ∈ s.source.lineage node

/-- The arguments of a call beside its parameters. -/
def outline (arguments : List Argument) (parameters : List Parameter) : CallOutline :=
  let pairs := pairUp arguments parameters
  { pairs
    flagged := arguments.findIdx? fun a => s.lies s.flagged a.node
    tooMany := parameters.length < arguments.length
    tooFew := pairs.any ArgumentPair.isUnmet }

/-- The elements of an argument, if they are to be compared one by one with the elements of a parameter's
type. -/
def elementsOf? (parameter : Parameter) (argument : Argument) : Option (TypeId × List Element) :=
  let elements? := if s.source.kind? argument.node = some .arrayLiteralExpression then
      s.index.elementsAt argument.node else none
  match elements?, s.types.element? parameter.type with
  | some elements, some element => some (element, elements)
  | _, _ => none

/-- Compares arguments with parameters one after the other, up to the first that does not fit. -/
def matchArguments (callee : NodeId) (o : CallOutline) : List Parameter → List Argument → Explaining
  | parameter :: parameters, argument :: arguments, r =>
    match s.elementsOf? parameter argument with
    | some (element, elements) =>
      let shown := { parameter.shown with typeText := s.types.render element, type := some element }
      untilRecorded
        (s.matchElements Mode.call ⟨shown, some callee, element⟩ { call := some o } elements)
        (matchArguments callee o parameters arguments) r
    | none =>
      match s.conflict? Mode.call parameter.type argument.type
          (Trail.empty.push ⟨parameter.shown, .node argument.shown⟩) with
      | none => matchArguments callee o parameters arguments r
      | some conflict =>
        (.ok (), r.add
          { conflict, source := some argument.node, target := some callee, call := some o
            remaining := arguments.length })
  | _, _, r => (.ok (), r)

/-- Explains a call whose parameters have been narrowed. -/
def explainArguments (parameters : List Parameter) : Explaining := fun r =>
  match s.typedArguments? (s.argumentNodes s.root) with
  | none => (.error .missingType, r)
  | some arguments =>
    let callee := s.source.child s.root 0
    let o := s.outline arguments parameters
    match o.offending? parameters.length with
    | some position => (.ok (), r.add (o.arityEvidence callee arguments position))
    | none => s.matchArguments callee o parameters arguments r

/-- The signature of what a call calls. -/
def signature? : Option FunctionShape :=
  (s.typeOf (s.source.child s.root 0)).bind s.types.function?

/-- Explains a call; the program may gain types on the way. -/
def explainCall (r : Recorded) : Program × Except Reason Unit × Recorded :=
  match s.signature? with
  | none => (s.program, .error .missingSignature, r)
  | some shape =>
    let (program, parameters) := s.program.narrowParameters shape.parameters
    (program, { s with program }.explainArguments parameters r)

end Site

end Misfit
