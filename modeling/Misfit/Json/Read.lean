import Misfit.Json.Tree

/-!
# Reading JSON values as what they are meant to be

A reader walks through a value in the order in which it is written and answers what it says, or the
first flaw it meets. A value of another sort than asked for is a flaw as well; if it is a number or a
string it is read to its end first. Members that nobody asks for are skipped, under looser rules: their
strings may hold unpaired surrogates, their numbers may be of any size, and they may be nested to any
depth.
-/
namespace Misfit.Json

/-- Reads a value, with so many levels of brackets to spare. -/
abbrev Reader (α : Type) := Nat → Value → Except Flaw α

/-- Values that are read are nested at most this deep. -/
def maxDepth : Nat := 127

/-- The value is JSON, but not what was asked for. -/
def unfit : Flaw := .unfit none

/-! ### String literals -/

/-- The first half of a pair of surrogates. -/
def isHighSurrogate (n : Nat) : Bool := 0xD800 ≤ n && n ≤ 0xDBFF

/-- The second half of a pair of surrogates. -/
def isLowSurrogate (n : Nat) : Bool := 0xDC00 ≤ n && n ≤ 0xDFFF

/-- The character that a pair of surrogates stands for. -/
def ofSurrogates (high low : Nat) : Char :=
  Char.ofNat (0x10000 + (high - 0xD800) * 0x400 + (low - 0xDC00))

/-- The characters of a string literal on a line; surrogates have to come in pairs. -/
def readPieces (line : Nat) (broken : Option Break) : List Piece → Except Flaw (List Char)
  | [] => match broken with
    | none => .ok []
    | some b => .error b.read
  | .char c :: rest => (c :: ·) <$> readPieces line broken rest
  | .unit n :: rest =>
    if isLowSurrogate n then .error (.malformed line)
    else if isHighSurrogate n then
      match rest, broken with
      | .unit m :: after, _ =>
        if isLowSurrogate m then (ofSurrogates n m :: ·) <$> readPieces line broken after
        else .error (.malformed line)
      | [], some b => .error b.read
      | _, _ => .error (.malformed line)
    else (Char.ofNat n :: ·) <$> readPieces line broken rest

/-- What a string literal says. -/
def Quoted.read (q : Quoted) : Except Flaw String :=
  String.ofList <$> readPieces q.line q.broken q.pieces

/-! ### Values of any sort -/

/-- A number that is read is within range. -/
def readNumber (line : Nat) (n : Numeral) : Except Flaw Numeral :=
  if n.isTooLarge then .error (.malformed line) else .ok n

mutual

/-- The first flaw of a value of any sort that is read as a whole. -/
def checkValue : Nat → Value → Except Flaw Unit
  | _, .null => .ok ()
  | _, .bool _ => .ok ()
  | _, .number line n => (fun _ => ()) <$> readNumber line n
  | _, .text q => (fun _ => ()) <$> q.read
  | 0, .array line _ => .error (.malformed line)
  | levels + 1, .array _ items => checkItems levels items
  | 0, .object line _ => .error (.malformed line)
  | levels + 1, .object _ members => checkMembers levels members
  | _, .broken b => .error b.read

/-- The first flaw of the rest of an array. -/
def checkItems : Nat → Items → Except Flaw Unit
  | _, .closed => .ok ()
  | _, .broken flaw => .error flaw
  | levels, .cons _ value rest => do
    checkValue levels value
    checkItems levels rest

/-- The first flaw of the rest of an object. -/
def checkMembers : Nat → Members → Except Flaw Unit
  | _, .closed => .ok ()
  | _, .broken flaw => .error flaw
  | levels, .cons key value rest => do
    discard key.read
    checkValue levels value
    checkMembers levels rest

end

/-- Skips a string literal. -/
def Quoted.skip (q : Quoted) : Except Flaw Unit := q.broken.elim (.ok ()) fun b => .error b.skipped

mutual

/-- Skips a value. -/
def skipValue : Value → Except Flaw Unit
  | .null => .ok ()
  | .bool _ => .ok ()
  | .number _ _ => .ok ()
  | .text q => q.skip
  | .array _ items => skipItems items
  | .object _ members => skipMembers members
  | .broken b => .error b.skipped

/-- Skips the rest of an array. -/
def skipItems : Items → Except Flaw Unit
  | .closed => .ok ()
  | .broken flaw => .error flaw
  | .cons _ value rest => do
    skipValue value
    skipItems rest

/-- Skips the rest of an object. -/
def skipMembers : Members → Except Flaw Unit
  | .closed => .ok ()
  | .broken flaw => .error flaw
  | .cons key value rest => do
    key.skip
    skipValue value
    skipMembers rest

end

/-- Refuses a value of another sort than asked for. -/
def refuse {α : Type} : Value → Except Flaw α
  | .null => .error unfit
  | .bool _ => .error unfit
  | .number line n => do
    discard (readNumber line n)
    .error unfit
  | .text q => do
    discard q.read
    .error unfit
  | .array _ _ => .error unfit
  | .object _ _ => .error unfit
  | .broken b => .error b.read

/-! ### Values of a certain sort -/

/-- Reads a truth value. -/
def readBool : Reader Bool
  | _, .bool b => .ok b
  | _, other => refuse other

/-- Reads a natural number below a bound. -/
def readNat (bound : Nat) : Reader Nat
  | _, .number line n => do
    discard (readNumber line n)
    match n.natBelow? bound with
    | some value => .ok value
    | none => .error unfit
  | _, other => refuse other

/-- Reads a string. -/
def readString : Reader String
  | _, .text q => q.read
  | _, other => refuse other

/-- Reads a truth value or a string. The value is read to its end, whatever it is. -/
def readBoolOrString : Reader (Bool ⊕ String) := fun levels value => do
  checkValue levels value
  match value with
  | .bool b => return .inl b
  | .text q => .inr <$> q.read
  | _ => .error unfit

/-- Reads a value and makes another one of it, or refuses it with a message. -/
def readRefined {α β : Type} (read : Reader α) (refine : α → Except String β) : Reader β :=
  fun levels value => do
    match refine (← read levels value) with
    | .ok result => .ok result
    | .error reason => .error (.unfit (some reason))

/-- Reads a value that may be `null`. -/
def readOptional {α : Type} (read : Reader α) : Reader (Option α)
  | _, .null => .ok none
  | levels, other => some <$> read levels other

/-- Reads the items of a list. -/
def readItems {α : Type} (read : Reader α) (levels : Nat) : Items → Except Flaw (List α)
  | .closed => .ok []
  | .broken flaw => .error flaw
  | .cons _ value rest => do
    let head ← read levels value
    let tail ← readItems read levels rest
    return head :: tail

/-- Reads a list. -/
def readList {α : Type} (read : Reader α) : Reader (List α)
  | 0, .array line _ => .error (.malformed line)
  | levels + 1, .array _ items => readItems read levels items
  | _, other => refuse other

/-! ### Records -/

/-- A field of a record: its name, and how its value is entered into the record. -/
structure RecordField (ρ : Type) where
  name : String
  enter : Nat → Value → ρ → Except Flaw ρ

/-- A field whose value is read and then set. -/
def RecordField.of {ρ α : Type} (name : String) (read : Reader α) (set : α → ρ → ρ) :
    RecordField ρ where
  name := name
  enter levels value record := (set · record) <$> read levels value

/-- Enters the members of an object. A field may be given once; other members are skipped. -/
def readMembers {ρ : Type} (fields : List (RecordField ρ)) (levels : Nat) :
    List String → ρ → Members → Except Flaw ρ
  | _, record, .closed => .ok record
  | _, _, .broken flaw => .error flaw
  | seen, record, .cons key value rest => do
    let name ← key.read
    match fields.find? (·.name = name) with
    | none =>
      skipValue value
      readMembers fields levels seen record rest
    | some field =>
      if name ∈ seen then .error unfit
      else
        let record ← field.enter levels value record
        readMembers fields levels (name :: seen) record rest

/-- Enters the items of an array into the fields in their order. Fields at the end may be left out, but
there may be no items beyond them. -/
def readPositions {ρ : Type} (levels : Nat) : List (RecordField ρ) → ρ → Items → Except Flaw ρ
  | _, record, .closed => .ok record
  | _, _, .broken flaw => .error flaw
  | [], _, .cons line _ _ => .error (.malformed line)
  | field :: fields, record, .cons _ value rest => do
    let record ← field.enter levels value record
    readPositions levels fields record rest

/-- Reads a record from an object or from an array of its fields. -/
def readRecord {ρ : Type} (fields : List (RecordField ρ)) (initial : ρ) : Reader ρ
  | 0, .array line _ => .error (.malformed line)
  | 0, .object line _ => .error (.malformed line)
  | levels + 1, .array _ items => readPositions levels fields initial items
  | levels + 1, .object _ members => readMembers fields levels [] initial members
  | _, other => refuse other

/-- Reads a document; nothing may follow its value. -/
def Document.read {α : Type} (read : Reader α) (d : Document) : Except Flaw α := do
  let result ← read maxDepth d.value
  match d.trailing with
  | none => .ok result
  | some flaw => .error flaw

end Misfit.Json
