import Misfit.Explain.Site

/-!
# Array literals, element by element

A checker reports a literal `[a, b, c]` as one failed assignment. Here each element is compared on its
own, so that the explanation points at the first element that does not fit.
-/
namespace Misfit

/-- What the elements of an array literal are compared with. -/
structure ElementTarget where
  shown : Description
  node : Option NodeId
  element : TypeId
  deriving DecidableEq, Repr

/-- What is known of a conflict before it is found. -/
structure Circumstances where
  call : Option CallOutline := none
  missingKey : Option MissingKey := none
  deriving DecidableEq, Repr

/-- The single element that stands for an empty literal. -/
def emptyShapeDescription : Description where
  shown := "\x7b\x7d"
  typeText := "\x7b\x7d"
  label := labelOf "\x7b\x7d" "\x7b\x7d"
  type := some TypeId.emptyObject

namespace Site

variable (s : Site)

/-- Node, type and description of an element; nothing if its type is not known. -/
def elementSource : Element → Option (Option NodeId × TypeId × Description)
  | .expr node => (s.typeOf node).map fun type => (some node, type, s.describe node type)
  | .emptyShape => some (none, TypeId.emptyObject, emptyShapeDescription)

/-- Compares the elements of a literal with their target, up to the first that does not fit. -/
def matchElements (mode : Mode) (target : ElementTarget) (known : Circumstances) :
    List Element → Explaining
  | [], r => (.ok (), r)
  | element :: rest, r =>
    match s.elementSource element with
    | none => (.error .missingType, r)
    | some (node, type, shown) =>
      match s.conflict? mode target.element type (Trail.empty.push ⟨target.shown, .node shown⟩) with
      | none => matchElements mode target known rest r
      | some conflict =>
        (.ok (), r.add
          { conflict, source := node, target := target.node, call := known.call
            missingKey := known.missingKey, remaining := rest.length })

end Site

end Misfit
