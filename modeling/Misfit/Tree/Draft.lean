import Misfit.Tree.File

/-!
# Assembling a source file

A draft is a source file under construction: a name, the nodes made so far and the line that the next
node starts on. Nodes are made bottom-up and their text is put together from the texts of their
children, so that the tree reads like the source it stands for. An index that names no node contributes
no text.
-/
namespace Misfit

/-- A source file under construction. -/
structure Draft where
  name : String
  arena : Arena := {}
  line : Nat := 1
  deriving Repr

namespace Draft

/-- The draft with a node added, and the index of that node. -/
abbrev Grown := Draft × NodeId

/-- Starts the next line. -/
def newline (d : Draft) : Draft := { d with line := d.line + 1 }

def text (d : Draft) (i : NodeId) : String := (d.arena.get? i).elim "" Node.text

/-- The texts of several nodes with a separator between them. -/
def joined (d : Draft) (nodes : List NodeId) (separator : String) : String :=
  separator.intercalate (nodes.map d.text)

/-- Adds a node on the current line. -/
def add (d : Draft) (kind : Kind) (children : List NodeId) (text : String)
    (name : Option String := none) (flags : Flags := {}) : Grown :=
  let (arena, id) := d.arena.add kind flags children text d.line name
  ({ d with arena }, id)

/-- The mark written after the name of something that may be left out. -/
def optionalMark (optional : Bool) : String := if optional then "?" else ""

/-! ### Tokens -/

def identifier (d : Draft) (name : String) : Grown := d.add .identifier [] name

def stringLiteral (d : Draft) (value : String) : Grown :=
  d.add .stringLiteral [] ("\"" ++ value ++ "\"")

def numericLiteral (d : Draft) (digits : String) : Grown := d.add .numericLiteral [] digits

def bigIntLiteral (d : Draft) (digits : String) : Grown := d.add .bigIntLiteral [] digits

def booleanLiteral (d : Draft) (value : Bool) : Grown :=
  if value then d.add .trueKeyword [] "true" else d.add .falseKeyword [] "false"

def nullLiteral (d : Draft) : Grown := d.add .nullKeyword [] "null"

def annotatedType (d : Draft) (type : String) : Grown := d.add .annotatedType [] type

/-! ### Expressions -/

def propertyAccess (d : Draft) (object : NodeId) (name : String) : Grown :=
  let (d, nameNode) := d.identifier name
  d.add .propertyAccessExpression [object, nameNode] (d.text object ++ "." ++ name)

def elementAccess (d : Draft) (object key : NodeId) : Grown :=
  d.add .elementAccessExpression [object, key] (d.text object ++ "[" ++ d.text key ++ "]")

def call (d : Draft) (callee : NodeId) (arguments : List NodeId) : Grown :=
  d.add .callExpression (callee :: arguments) (d.text callee ++ "(" ++ d.joined arguments ", " ++ ")")

def assignment (d : Draft) (left right : NodeId) : Grown :=
  d.add .binaryExpression [left, right] (d.text left ++ " = " ++ d.text right) none
    { assignment := true }

def arrayLiteral (d : Draft) (elements : List NodeId) : Grown :=
  d.add .arrayLiteralExpression elements ("[" ++ d.joined elements ", " ++ "]")

def objectLiteral (d : Draft) (properties : List NodeId) : Grown :=
  let text := if properties.isEmpty then "\x7b\x7d"
    else "\x7b " ++ d.joined properties ", " ++ " \x7d"
  d.add .objectLiteralExpression properties text

def propertyAssignment (d : Draft) (name : String) (value : NodeId) : Grown :=
  let (d, nameNode) := d.identifier name
  d.add .propertyAssignment [nameNode, value] (name ++ ": " ++ d.text value) (some name)

def arrowFunction (d : Draft) (parameters : List NodeId) (body : NodeId) : Grown :=
  d.add .arrowFunction (parameters ++ [body])
    ("(" ++ d.joined parameters ", " ++ ") => " ++ d.text body)

def functionExpression (d : Draft) (parameters : List NodeId) (body : NodeId) : Grown :=
  d.add .functionExpression (parameters ++ [body])
    ("function (" ++ d.joined parameters ", " ++ ") " ++ d.text body)

/-! ### Declarations -/

def parameter (d : Draft) (name : String) (optional : Bool) (type : Option String) : Grown :=
  let (d, nameNode) := d.identifier name
  let marked := name ++ optionalMark optional
  match type with
  | some type =>
    let (d, typeNode) := d.annotatedType type
    d.add .parameter [nameNode, typeNode] (marked ++ ": " ++ type) (some name) { optional }
  | none => d.add .parameter [nameNode] marked (some name) { optional }

def propertySignature (d : Draft) (name : String) (optional : Bool) (type : String) : Grown :=
  let (d, nameNode) := d.identifier name
  let (d, typeNode) := d.annotatedType type
  d.add .propertySignature [nameNode, typeNode] (name ++ optionalMark optional ++ ": " ++ type)
    (some name) { optional }

def interfaceDeclaration (d : Draft) (name : String) (members : List NodeId) : Grown :=
  d.add .interfaceDeclaration members
    ("interface " ++ name ++ " \x7b " ++ d.joined members "; " ++ " \x7d") (some name)

def typeAlias (d : Draft) (name type : String) : Grown :=
  let (d, typeNode) := d.annotatedType type
  d.add .typeAliasDeclaration [typeNode] ("type " ++ name ++ " = " ++ type) (some name)

/-- A declaration `name: type = initializer`, whose last two parts may be absent. -/
def variableDeclaration (d : Draft) (name : String) (type : Option String)
    (initializer : Option NodeId) : Grown :=
  let (d, nameNode) := d.identifier name
  let (d, typeNode, typePart) := match type with
    | some type => let (d, i) := d.annotatedType type; (d, [i], ": " ++ type)
    | none => (d, [], "")
  let valuePart := initializer.elim "" fun i => " = " ++ d.text i
  d.add .variableDeclaration (nameNode :: typeNode ++ initializer.toList)
    (name ++ typePart ++ valuePart) (some name)

def functionDeclaration (d : Draft) (name : String) (parameters : List NodeId)
    (returnType : Option String) (body : NodeId) : Grown :=
  let returnPart := returnType.elim "" fun type => ": " ++ type
  d.add .functionDeclaration (parameters ++ [body])
    ("function " ++ name ++ "(" ++ d.joined parameters ", " ++ ")" ++ returnPart ++ " " ++ d.text body)
    (some name)

def methodDeclaration (d : Draft) (name : String) (parameters : List NodeId) (body : NodeId) :
    Grown :=
  d.add .methodDeclaration (parameters ++ [body])
    (name ++ "(" ++ d.joined parameters ", " ++ ") " ++ d.text body) (some name)

/-! ### Statements -/

def variableStatement (d : Draft) (declaration : NodeId) : Grown :=
  d.add .variableStatement [declaration] ("const " ++ d.text declaration ++ ";")

def expressionStatement (d : Draft) (expression : NodeId) : Grown :=
  d.add .expressionStatement [expression] (d.text expression ++ ";")

def returnStatement (d : Draft) : Option NodeId → Grown
  | some expression => d.add .returnStatement [expression] ("return " ++ d.text expression ++ ";")
  | none => d.add .returnStatement [] "return;"

def block (d : Draft) (statements : List NodeId) : Grown :=
  d.add .block statements ("\x7b " ++ d.joined statements " " ++ " \x7d")

/-- The finished file: its top-level statements under one root that starts on the first line. -/
def finish (d : Draft) (statements : List NodeId) : SourceFile :=
  let (arena, root) := d.arena.add .sourceFile {} statements (d.joined statements "\n") 1
  { name := d.name, arena, root }

@[simp] theorem size_add (d : Draft) (kind children text name flags) :
    (d.add kind children text name flags).1.arena.size = d.arena.size + 1 := by
  simp [add]

theorem add_snd (d : Draft) (kind children text name flags) :
    (d.add kind children text name flags).2 = ⟨d.arena.size⟩ := rfl

end Draft

end Misfit
