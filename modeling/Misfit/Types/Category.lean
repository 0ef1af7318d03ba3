import Misfit.Types.Table

/-!
# Categories of types

The categories sort types into families. A type has one category, except that a member of an
enumeration also has the category of its value. A union is only ever a union: nothing is taken over
from its members.
-/
namespace Misfit

/-- What sort of type a type is. -/
inductive Category
  | any | unknown | string | number | boolean | bigint | symbol | void | undefined | null | never
  | stringLiteral | numberLiteral | bigintLiteral | booleanLiteral | enumLiteral
  | object | union | nonPrimitive
  deriving DecidableEq, Repr

namespace Category

/-- The bit by which a category is reported. -/
def bit (c : Category) : Nat := Nat.pow 2 c.ctorIdx

/-- The bits of several distinct categories together. -/
def bits (cs : List Category) : Nat := cs.foldl (fun n c => n + c.bit) 0

/-- Strings and string literals. -/
def stringLike : List Category := [string, stringLiteral]
def numberLike : List Category := [number, numberLiteral]
def booleanLike : List Category := [boolean, booleanLiteral]
def bigintLike : List Category := [bigint, bigintLiteral]

/-- The families whose members count as like each other. -/
def families : List (List Category) :=
  [stringLike, numberLike, booleanLike, bigintLike, [symbol], [enumLiteral]]

/-- Literals of all kinds, and members of enumerations. -/
def literals : List Category :=
  [stringLiteral, numberLiteral, bigintLiteral, booleanLiteral, enumLiteral]

/-- Types that have parts. -/
def structured : List Category := [object, union]

/-- The types that are not simple; a union is judged by its members instead. -/
def notSimple : List Category := [object, union, undefined, never, null]

end Category

def Intrinsic.category : Intrinsic → Category
  | any => .any
  | unknown => .unknown
  | never => .never
  | void => .void
  | undefined => .undefined
  | null => .null
  | string => .string
  | number => .number
  | boolean => .boolean
  | bigint => .bigint
  | symbol => .symbol
  | object => .nonPrimitive

def Literal.category : Literal → Category
  | string _ => .stringLiteral
  | number _ => .numberLiteral
  | bigint _ => .bigintLiteral
  | boolean _ => .booleanLiteral

def TypeData.categories : TypeData → List Category
  | intrinsic kind => [kind.category]
  | literal value => [value.category]
  | enumMember _ _ value => [.enumLiteral, value.category]
  | array _ => [.object]
  | object _ => [.object]
  | function _ => [.object]
  | union _ => [.union]

namespace Types

/-- The categories of a type; an id without a type counts as unknown. -/
def categories (t : Types) (i : TypeId) : List Category :=
  (t.get? i).elim [.unknown] TypeData.categories

/-- The type has one of the given categories. -/
def isOneOf (t : Types) (i : TypeId) (cs : List Category) : Bool := (t.categories i).any (· ∈ cs)

end Types

end Misfit
