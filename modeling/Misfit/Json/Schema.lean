import Misfit.Json.Read

/-!
# What a JSON text is read as

Whoever wants to read JSON says what it is read as: of which sort each value is, and what the fields of a
record are called and set. The reading itself is up to a deserializer. The one here goes by the readers of
values; it is one of many, and what is read with it is said for any.
-/
namespace Misfit.Json

mutual

/-- What a value is read as. -/
inductive Schema : Type → Type 1
  | bool : Schema Bool
  | string : Schema String
  /-- A natural number below a bound. -/
  | natural (bound : Nat) : Schema Nat
  | list {α : Type} (item : Schema α) : Schema (List α)
  /-- A value, or `null`. -/
  | option {α : Type} (value : Schema α) : Schema (Option α)
  /-- A truth value or a string, whichever is there. -/
  | boolOrString : Schema (Bool ⊕ String)
  /-- A value that is made into another one, or refused with a message. -/
  | refined {α β : Type} (value : Schema α) (refine : α → Except String β) : Schema β
  /-- An object whose members set the fields of a record; a field that is not given stays as it is
  initially. -/
  | record {ρ : Type} (fields : Fields ρ) (initial : ρ) : Schema ρ

/-- The fields of a record: the name of each, what its value is read as, and how it is set. -/
inductive Fields : Type → Type 1
  | none {ρ : Type} : Fields ρ
  | field {ρ α : Type} (name : String) (value : Schema α) (set : α → ρ → ρ) (rest : Fields ρ) : Fields ρ

end

/-- Reads texts as what a schema says, or tells why it cannot. -/
structure Deserializer (ε : Type) where
  read : {α : Type} → Schema α → List Char → Except ε α

/-! ### Reading by readers -/

mutual

/-- The reader of a schema. -/
def Schema.reader : {α : Type} → Schema α → Reader α
  | _, .bool => readBool
  | _, .string => readString
  | _, .natural bound => readNat bound
  | _, .list item => readList item.reader
  | _, .option value => readOptional value.reader
  | _, .boolOrString => readBoolOrString
  | _, .refined value refine => readRefined value.reader refine
  | _, .record fields initial => readRecord fields.readers initial

/-- The readers of the fields of a record. -/
def Fields.readers : {ρ : Type} → Fields ρ → List (RecordField ρ)
  | _, .none => []
  | _, .field name value set rest => .of name value.reader set :: rest.readers

end

/-- Reads a text as the document it makes. -/
def deserializer : Deserializer Flaw where
  read s text := (Document.ofText text).read s.reader

end Misfit.Json
