import Misfit.Program
import Misfit.Record.Trail

/-!
# Describing the sides of a comparison

A side of a comparison is shown by its source text, the text of its type, a label made of the two and a
link. A property is shown the way it was declared, if its declaration is known.
-/
namespace Misfit

/-- `name: type`, or whichever half is worth showing on its own. -/
def labelOf (name type : String) (isLiteral : Bool := false) : String :=
  if isLiteral || name = type || type = "" then name
  else if name = "" then type
  else name ++ ": " ++ type

/-- Opening brackets of a declaration; `<` opens a list of type arguments. -/
def isOpening (c : Char) : Bool := c = '(' || c = '[' || c = '\x7b' || c = '<'

/-- Closing brackets of a declaration. -/
def isClosing (c : Char) : Bool := c = ')' || c = ']' || c = '\x7d' || c = '>'

/-- What follows the first colon outside brackets, read from inside `depth` open brackets. -/
def annotationWithin : Nat → List Char → Option (List Char)
  | _, [] => none
  | depth, c :: rest =>
    if isOpening c then annotationWithin (depth + 1) rest
    else if isClosing c then annotationWithin (depth - 1) rest
    else if c = ':' ∧ depth = 0 then some (Text.trim rest)
    else annotationWithin depth rest

/-- The type annotation in the text of a member declaration. -/
def annotationOf (declaration : String) : Option String :=
  (annotationWithin 0 declaration.toList).map String.ofList

/-- A text without the semicolons and blanks at its end. -/
def withoutSemicolons (text : String) : String :=
  String.ofList (Text.trimEnd (Text.dropTailWhile (· = ';') text.toList))

namespace SourceFile

/-- A node with the text of its type. -/
def describe (f : SourceFile) (node : NodeId) (typeText : String) (type : TypeId) : Description :=
  let shown := Text.oneLine (f.text node)
  { shown, typeText, label := labelOf shown typeText ((f.kind? node).any Kind.isLiteral)
    link := f.link node, type := some type }

end SourceFile

namespace Program

/-- A node of a known type. -/
def describeNode (p : Program) (f : SourceFile) (node : NodeId) (type : TypeId) : Description :=
  f.describe node (p.types.render type) type

/-- A node of a known type, whose text gives a literal as the type it belongs to. -/
def describeWidened (p : Program) (f : SourceFile) (node : NodeId) (type : TypeId) : Description :=
  f.describe node (p.types.renderWidened type) type

/-- Where something was declared. -/
def declarationLink (p : Program) (d : DeclRef) : String :=
  (p.file? d.file).elim "" (·.link d.node)

/-- The text of a declaration on one line; nothing if the declaration is empty or not there. -/
def declarationText (p : Program) (d : DeclRef) : Option String :=
  (p.file? d.file).bind fun f =>
    let text := withoutSemicolons (Text.oneLine (f.text d.node))
    if text = "" then none else some text

/-- A type without a node of its own; a named object type links to its declaration. -/
def describeType (p : Program) (type : TypeId) : Description :=
  let text := p.types.render type
  let declaration := (p.types.object? type).bind ObjectShape.declaration
  { shown := text, typeText := text, label := text
    link := declaration.elim "" p.declarationLink, type := some type }

/-- A property, the way it was declared if that is known. -/
def describeMember (p : Program) (m : Member) : Description :=
  let rendered := p.types.render m.type
  let link := m.declaration.elim "" p.declarationLink
  match m.declaration.bind p.declarationText with
  | some text =>
    let typeText := ((annotationOf text).filter (· ≠ "")).getD rendered
    { shown := m.name, typeText, label := text, link, type := some m.type }
  | none =>
    { shown := m.name, typeText := rendered, label := labelOf (m.name ++ m.mark) rendered
      link, type := some m.type }

@[simp] theorem type_describeMember (p : Program) (m : Member) :
    (p.describeMember m).type = some m.type := by
  unfold describeMember
  split <;> rfl

@[simp] theorem shown_describeMember (p : Program) (m : Member) :
    (p.describeMember m).shown = m.name := by
  unfold describeMember
  split <;> rfl

end Program

end Misfit
