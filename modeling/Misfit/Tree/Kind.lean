/-!
# Kinds of syntax nodes

Every node of a syntax tree has one of the kinds below. The positions of a node's children are fixed
by its kind: a declaration has its name first and its initializer last, a call its callee and then the
arguments, a function its parameters and then its body, an access its object and then the name or key.
-/
namespace Misfit

/-- What a syntax node stands for. -/
inductive Kind
  | sourceFile
  | block
  | variableStatement
  | variableDeclaration
  | expressionStatement
  | returnStatement
  | functionDeclaration
  | functionExpression
  | arrowFunction
  | methodDeclaration
  | getAccessor
  | setAccessor
  | constructor
  | parameter
  | identifier
  | binaryExpression
  | propertyAccessExpression
  | elementAccessExpression
  | callExpression
  | arrayLiteralExpression
  | objectLiteralExpression
  | propertyAssignment
  | stringLiteral
  | numericLiteral
  | bigIntLiteral
  | trueKeyword
  | falseKeyword
  | nullKeyword
  | interfaceDeclaration
  | typeAliasDeclaration
  | propertySignature
  | annotatedType
  deriving DecidableEq, Repr

namespace Kind

/-- All kinds, in the order in which they are declared. -/
def all : List Kind :=
  [.sourceFile, .block, .variableStatement, .variableDeclaration, .expressionStatement,
    .returnStatement, .functionDeclaration, .functionExpression, .arrowFunction, .methodDeclaration,
    .getAccessor, .setAccessor, .constructor, .parameter, .identifier, .binaryExpression,
    .propertyAccessExpression, .elementAccessExpression, .callExpression, .arrayLiteralExpression,
    .objectLiteralExpression, .propertyAssignment, .stringLiteral, .numericLiteral, .bigIntLiteral,
    .trueKeyword, .falseKeyword, .nullKeyword, .interfaceDeclaration, .typeAliasDeclaration,
    .propertySignature, .annotatedType]

/-- The name under which a kind is reported. -/
def name : Kind → String
  | sourceFile => "SourceFile"
  | block => "Block"
  | variableStatement => "VariableStatement"
  | variableDeclaration => "VariableDeclaration"
  | expressionStatement => "ExpressionStatement"
  | returnStatement => "ReturnStatement"
  | functionDeclaration => "FunctionDeclaration"
  | functionExpression => "FunctionExpression"
  | arrowFunction => "ArrowFunction"
  | methodDeclaration => "MethodDeclaration"
  | getAccessor => "GetAccessor"
  | setAccessor => "SetAccessor"
  | constructor => "Constructor"
  | parameter => "Parameter"
  | identifier => "Identifier"
  | binaryExpression => "BinaryExpression"
  | propertyAccessExpression => "PropertyAccessExpression"
  | elementAccessExpression => "ElementAccessExpression"
  | callExpression => "CallExpression"
  | arrayLiteralExpression => "ArrayLiteralExpression"
  | objectLiteralExpression => "ObjectLiteralExpression"
  | propertyAssignment => "PropertyAssignment"
  | stringLiteral => "StringLiteral"
  | numericLiteral => "NumericLiteral"
  | bigIntLiteral => "BigIntLiteral"
  | trueKeyword => "TrueKeyword"
  | falseKeyword => "FalseKeyword"
  | nullKeyword => "NullKeyword"
  | interfaceDeclaration => "InterfaceDeclaration"
  | typeAliasDeclaration => "TypeAliasDeclaration"
  | propertySignature => "PropertySignature"
  | annotatedType => "TypeAnnotation"

/-- The kind reported under a name. -/
def ofName? (s : String) : Option Kind := all.find? (·.name == s)

/-- Anything with parameters and a body that a `return` binds to. -/
def isFunctionLike : Kind → Bool
  | functionDeclaration | functionExpression | arrowFunction | methodDeclaration | getAccessor
  | setAccessor | constructor => true
  | _ => false

/-- Tokens that print as their own value. -/
def isLiteral : Kind → Bool
  | stringLiteral | numericLiteral | bigIntLiteral | trueKeyword | falseKeyword | nullKeyword => true
  | _ => false

/-- A scope is what variable declarations are looked up in: a block or the whole file. -/
def isScope : Kind → Bool
  | block | sourceFile => true
  | _ => false

end Kind

end Misfit
