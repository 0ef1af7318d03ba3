import Misfit.Tree.File

/-!
# Types

A type is known by its id. What the id stands for is a `TypeData`; the parts of it that do not fit
inline (the members of a union, the shape of an object or of a function) lie in pools of their own and
are known by ids as well. The first few type ids are reserved, so that the common types can be named
without looking them up.
-/
namespace Misfit

/-- Id of a type. -/
structure TypeId where
  raw : Nat
  deriving DecidableEq, Repr

namespace TypeId

def any : TypeId := ⟨0⟩
def unknown : TypeId := ⟨1⟩
def never : TypeId := ⟨2⟩
def void : TypeId := ⟨3⟩
def undefined : TypeId := ⟨4⟩
def null : TypeId := ⟨5⟩
def string : TypeId := ⟨6⟩
def number : TypeId := ⟨7⟩
def boolean : TypeId := ⟨8⟩
def bigint : TypeId := ⟨9⟩
def symbol : TypeId := ⟨10⟩
/-- Everything that is not primitive. -/
def object : TypeId := ⟨11⟩
def booleanTrue : TypeId := ⟨12⟩
def booleanFalse : TypeId := ⟨13⟩
/-- The object type without properties. -/
def emptyObject : TypeId := ⟨14⟩

/-- The reserved types in the order of their ids, with the names by which they are referred to. -/
def reserved : List (String × TypeId) :=
  [("any", any), ("unknown", unknown), ("never", never), ("void", void), ("undefined", undefined),
    ("null", null), ("string", string), ("number", number), ("boolean", boolean), ("bigint", bigint),
    ("symbol", symbol), ("object", object), ("true", booleanTrue), ("false", booleanFalse),
    ("\x7b\x7d", emptyObject)]

/-- Ids in the order in which they are handed out. -/
instance : Ord TypeId := ⟨compareOn raw⟩

instance : Std.TransOrd TypeId := inferInstanceAs (Std.TransCmp (compareOn raw))

instance : Std.LawfulEqOrd TypeId where
  compare_self := Nat.compare_eq_eq.2 rfl
  eq_of_compare {a b} h := by
    cases a
    cases b
    exact congrArg mk (Nat.compare_eq_eq.1 h)

/-- The first id that is not reserved. -/
def firstFree : Nat := 15

/-- The reserved ids. -/
def isReserved (t : TypeId) : Bool := t.raw < firstFree

end TypeId

/-- The types that are built in. -/
inductive Intrinsic
  | any | unknown | never | void | undefined | null | string | number | boolean | bigint | symbol
  | object
  deriving DecidableEq, Repr

namespace Intrinsic

/-- The built-in types in the order of their reserved ids. -/
def all : List Intrinsic :=
  [.any, .unknown, .never, .void, .undefined, .null, .string, .number, .boolean, .bigint, .symbol,
    .object]

def name : Intrinsic → String
  | any => "any"
  | unknown => "unknown"
  | never => "never"
  | void => "void"
  | undefined => "undefined"
  | null => "null"
  | string => "string"
  | number => "number"
  | boolean => "boolean"
  | bigint => "bigint"
  | symbol => "symbol"
  | object => "object"

/-- The built-in type of a name. -/
def ofName? (s : String) : Option Intrinsic := all.find? (·.name == s)

end Intrinsic

/-- A literal value. Numbers keep their spelling and are never read. -/
inductive Literal
  | string (value : String)
  | number (spelling : String)
  | bigint (spelling : String)
  | boolean (value : Bool)
  deriving DecidableEq, Repr

/-- Id of a list of union members. -/
structure ListId where
  raw : Nat
  deriving DecidableEq, Repr

/-- Id of an object shape. -/
structure ObjectId where
  raw : Nat
  deriving DecidableEq, Repr

/-- Id of a function shape. -/
structure FunctionId where
  raw : Nat
  deriving DecidableEq, Repr

/-- What a type is. -/
inductive TypeData
  | intrinsic (kind : Intrinsic)
  | literal (value : Literal)
  /-- A member of an enumeration, such as `Color.Red`. -/
  | enumMember (enum member : String) (value : Literal)
  | array (element : TypeId)
  | union (members : ListId)
  | object (shape : ObjectId)
  | function (shape : FunctionId)
  deriving DecidableEq, Repr

/-- Where something was declared. -/
structure DeclRef where
  file : FileId
  node : NodeId
  deriving DecidableEq, Repr

/-- A property of an object or a parameter of a function. -/
structure Member where
  name : String
  type : TypeId
  optional : Bool := false
  declaration : Option DeclRef := none
  deriving DecidableEq, Repr

/-- `[key: K]: V`: every key of type `K` holds a value of type `V`. -/
structure IndexSignature where
  key : TypeId
  value : TypeId
  deriving DecidableEq, Repr

/-- Properties and index signatures of an object type. A named shape stands for the interface, class or
alias of that name. -/
structure ObjectShape where
  name : Option String := none
  properties : List Member := []
  indexes : List IndexSignature := []
  declaration : Option DeclRef := none
  deriving DecidableEq, Repr

namespace ObjectShape

/-- The empty shape of a name. -/
def named (name : String) : ObjectShape := { name := some name }

/-- The first property of a name. -/
def property? (s : ObjectShape) (name : String) : Option Member :=
  s.properties.find? (·.name = name)

end ObjectShape

/-- Parameters and result of a function type. -/
structure FunctionShape where
  parameters : List Member := []
  result : TypeId := TypeId.unknown
  deriving DecidableEq, Repr

/-- What follows the name of a member that may be left out. -/
def Member.mark (m : Member) : String := if m.optional then "?" else ""

theorem Member.name_of_property? {s : ObjectShape} {name : String} {m : Member}
    (h : s.property? name = some m) : m.name = name ∧ m ∈ s.properties :=
  ⟨by simpa using List.find?_some h, List.mem_of_find?_eq_some h⟩

end Misfit
