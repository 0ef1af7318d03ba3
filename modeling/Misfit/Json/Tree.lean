import Misfit.Json.Numeral

/-!
# JSON values

The tokens of a text make a tree. Where they stop making one, the tree holds the flaw in the place in
which it was met, and nothing after it. Whoever walks through a tree in order therefore meets the first
flaw of the text exactly where a reader of the text would.
-/
namespace Misfit.Json

mutual

/-- A value. -/
inductive Value
  | null
  | bool (value : Bool)
  | number (line : Nat) (numeral : Numeral)
  | text (quoted : Quoted)
  | array (line : Nat) (items : Items)
  | object (line : Nat) (members : Members)
  /-- No value begins here, or the one that does breaks off. -/
  | broken (b : Break)

/-- The rest of an array. -/
inductive Items
  | closed
  /-- Neither a comma nor the closing bracket follows. -/
  | broken (flaw : Flaw)
  | cons (line : Nat) (value : Value) (rest : Items)

/-- The rest of an object. -/
inductive Members
  | closed
  | broken (flaw : Flaw)
  | cons (key : Quoted) (value : Value) (rest : Members)

end

/-- What it means that another token was expected in the place of this one. -/
def Lexeme.unexpected (l : Lexeme) : Flaw :=
  match l.token with
  | .finish => .ended
  | _ => .malformed l.line

/-- The flaw at the front of tokens that do not go on as expected. -/
def unexpected : List Lexeme → Flaw
  | [] => .ended
  | l :: _ => l.unexpected

/-- Something made of tokens and the tokens after it; none of them count after a flaw. -/
abbrev Parsed (α : Type) := α × Option (List Lexeme)

mutual

/-- The value at the front of some tokens. -/
def parseValue : Nat → List Lexeme → Parsed Value
  | 0, ls => (.broken (.both (unexpected ls)), none)
  | _ + 1, [] => (.broken (.both .ended), none)
  | count + 1, l :: rest =>
    match l.token with
    | .null => (.null, some rest)
    | .bool b => (.bool b, some rest)
    | .number n => (.number l.line n, some rest)
    | .text q => (.text q, if q.broken.isSome then none else some rest)
    | .openBracket =>
      match rest with
      | ⟨_, .closeBracket⟩ :: after => (.array l.line .closed, some after)
      | _ => let (items, after) := parseItem count rest; (.array l.line items, after)
    | .openBrace =>
      match rest with
      | ⟨_, .closeBrace⟩ :: after => (.object l.line .closed, some after)
      | _ => let (members, after) := parseMember count rest; (.object l.line members, after)
    | .broken b => (.broken b, none)
    | _ => (.broken (.both l.unexpected), none)

/-- An item of an array, and the items after it. -/
def parseItem : Nat → List Lexeme → Parsed Items
  | 0, ls => (.broken (unexpected ls), none)
  | _ + 1, [] => (.broken .ended, none)
  | count + 1, l :: rest =>
    let (value, after?) := parseValue count (l :: rest)
    let (items, after?) := match after? with
      | none => (.closed, none)
      | some (⟨_, .closeBracket⟩ :: after) => (.closed, some after)
      | some (⟨_, .comma⟩ :: after) => parseItem count after
      | some other => (.broken (unexpected other), none)
    (.cons l.line value items, after?)

/-- A member of an object, and the members after it. -/
def parseMember : Nat → List Lexeme → Parsed Members
  | 0, ls => (.broken (unexpected ls), none)
  | count + 1, ⟨_, .text key⟩ :: rest =>
    let (value, after?) := match rest with
      | ⟨_, .colon⟩ :: after => parseValue count after
      | other => (.broken (.both (unexpected other)), none)
    let (members, after?) := match after? with
      | none => (.closed, none)
      | some (⟨_, .closeBrace⟩ :: after) => (.closed, some after)
      | some (⟨_, .comma⟩ :: after) => parseMember count after
      | some other => (.broken (unexpected other), none)
    (.cons key value members, after?)
  | _ + 1, ls => (.broken (unexpected ls), none)

end

/-- What a text says: a value, and a flaw if something follows the value. -/
structure Document where
  value : Value
  trailing : Option Flaw

namespace Document

/-- The document that tokens make. Every second call at least takes a token. -/
def ofTokens (ls : List Lexeme) : Document :=
  match parseValue (2 * ls.length + 1) ls with
  | (value, some (⟨_, .finish⟩ :: _)) => ⟨value, none⟩
  | (value, some (l :: _)) => ⟨value, some (.malformed l.line)⟩
  | (value, _) => ⟨value, none⟩

/-- The document that a text makes. -/
def ofText (text : List Char) : Document := ofTokens (lex text)

end Document

end Misfit.Json
