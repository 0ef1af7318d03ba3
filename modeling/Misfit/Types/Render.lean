import Misfit.Types.Category

/-!
# The text of a type

Types are printed the way a checker prints them. Two types with one text count as the same type wherever
types are compared, so the text is more than decoration. A named object type prints as its name, which
is what ends the text of a type that mentions itself; a type that contains itself without a name in
between is cut off where it would begin again.
-/
namespace Misfit

/-- Literals print as their value, strings in quotes. -/
def Literal.render : Literal → String
  | string value => "\"" ++ value ++ "\""
  | number spelling => spelling
  | bigint spelling => spelling ++ "n"
  | boolean value => if value then "true" else "false"

/-- `name: type`, with a mark if the member may be left out. -/
def Member.render (part : TypeId → String) (m : Member) : String :=
  m.name ++ m.mark ++ ": " ++ part m.type

def IndexSignature.render (part : TypeId → String) (s : IndexSignature) : String :=
  "[key: " ++ part s.key ++ "]: " ++ part s.value

/-- The name of a shape, or its members in braces. -/
def ObjectShape.render (part : TypeId → String) (s : ObjectShape) : String :=
  match s.name with
  | some name => name
  | none => match s.properties.map (Member.render part) ++ s.indexes.map (IndexSignature.render part) with
    | [] => "\x7b\x7d"
    | members => "\x7b " ++ "; ".intercalate members ++ "; \x7d"

def FunctionShape.render (part : TypeId → String) (s : FunctionShape) : String :=
  "(" ++ ", ".intercalate (s.parameters.map (Member.render part)) ++ ") => " ++ part s.result

namespace Types

/-- What stands for a type inside its own text. -/
def ellipsis : String := "..."

/-- A union or a function is put in parentheses where it is the element of an array. -/
def needsParentheses (t : Types) (i : TypeId) : Bool :=
  match t.get? i with
  | some (.union _) | some (.function _) => true
  | _ => false

/-- The text of a type, given the texts of its parts. -/
def renderWith (t : Types) (part : TypeId → String) (i : TypeId) : String :=
  match t.get? i with
  | none => "unknown"
  | some (.intrinsic kind) => kind.name
  | some (.literal value) => value.render
  | some (.enumMember enum member _) => enum ++ "." ++ member
  | some (.array element) =>
    if t.needsParentheses element then "(" ++ part element ++ ")[]" else part element ++ "[]"
  | some (.union list) => " | ".intercalate ((t.listAt list).map part)
  | some (.object shape) => (t.objectAt shape).render part
  | some (.function shape) => (t.functionAt shape).render part

/-- The text of a type inside the texts of the types in `path`, at most `depth` levels deep. -/
def renderWithin (t : Types) : Nat → List TypeId → TypeId → String
  | 0, _, _ => ellipsis
  | depth + 1, path, i =>
    if i ∈ path then ellipsis else t.renderWith (renderWithin t depth (i :: path)) i

/-- The text of a type. No path through the table is longer than the table, so the depth is enough. -/
def render (t : Types) (i : TypeId) : String := t.renderWithin (t.size + 1) [] i

/-- The text of a type in which a literal gives way to the type it belongs to. -/
def renderWidened (t : Types) (i : TypeId) : String :=
  if t.isOneOf i Category.stringLike then "string"
  else if t.isOneOf i Category.numberLike then "number"
  else if t.isOneOf i Category.booleanLike then "boolean"
  else if t.isOneOf i Category.bigintLike then "bigint"
  else t.render i

end Types

end Misfit
