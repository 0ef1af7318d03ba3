import Misfit.Binary64

/-!
# JSON tokens

A text is cut into tokens, each with the line it starts on. Nothing is refused at this stage: a text that
stops being JSON yields the tokens before that point and then one that says how it breaks off. A value
that is skipped is held to looser rules than one that is read, so a break says what it means for either.
-/
namespace Misfit.Json

/-- Why a text cannot be used. -/
inductive Flaw
  /-- The text ends early. -/
  | ended
  /-- The text is not JSON; the line is that of the character after which this is plain. -/
  | malformed (line : Nat)
  /-- The text is JSON, but says something else than was asked for. -/
  | unfit (reason : Option String)
  deriving DecidableEq, Repr

/-- A token that breaks off. -/
structure Break where
  /-- What it means in a value that is read. -/
  read : Flaw
  /-- What it means in a value that is skipped. -/
  skipped : Flaw
  deriving DecidableEq, Repr

namespace Break

/-- A flaw of values that are read and of values that are skipped. -/
def both (flaw : Flaw) : Break := ⟨flaw, flaw⟩

end Break

/-- The line after a character. -/
def lineAfter (line : Nat) (c : Char) : Nat := if c = '\n' then line + 1 else line

/-! ### String literals -/

/-- A piece of a string literal. -/
inductive Piece
  | char (c : Char)
  /-- A code unit of UTF-16, written as `\u` and four hexadecimal digits. -/
  | unit (n : Nat)
  deriving DecidableEq, Repr

/-- A string literal up to its closing quote or to the point where it breaks off. -/
structure Quoted where
  line : Nat
  pieces : List Piece := []
  broken : Option Break := none
  deriving DecidableEq, Repr

namespace Quoted

def cons (piece : Piece) (q : Quoted) : Quoted := { q with pieces := piece :: q.pieces }

end Quoted

/-- The character that a short escape stands for. -/
def shortEscape? (c : Char) : Option Char :=
  match c with
  | '"' => some '"'
  | '\\' => some '\\'
  | '/' => some '/'
  | 'b' => some '\x08'
  | 'f' => some '\x0c'
  | 'n' => some '\n'
  | 'r' => some '\r'
  | 't' => some '\t'
  | _ => none

def hexDigit? (c : Char) : Option Nat :=
  if '0' ≤ c ∧ c ≤ '9' then some (c.toNat - '0'.toNat)
  else if 'a' ≤ c ∧ c ≤ 'f' then some (c.toNat - 'a'.toNat + 10)
  else if 'A' ≤ c ∧ c ≤ 'F' then some (c.toNat - 'A'.toNat + 10)
  else none

/-- The number that four hexadecimal digits make. -/
def hexUnit? (a b c d : Char) : Option Nat :=
  match hexDigit? a, hexDigit? b, hexDigit? c, hexDigit? d with
  | some a, some b, some c, some d => some (((a * 16 + b) * 16 + c) * 16 + d)
  | _, _, _, _ => none

/-- The line after `size` bytes of a text; nothing if the text is shorter. -/
def lineAfterBytes? (line : Nat) : Nat → List Char → Option Nat
  | 0, _ => some line
  | _ + 1, [] => none
  | size + 1, c :: rest => lineAfterBytes? (lineAfter line c) (size + 1 - c.utf8Size) rest

/-- How an escape breaks off whose digits are not hexadecimal: the four bytes in their place are taken
together. -/
def hexBreak (line : Nat) (rest : List Char) : Break :=
  .both ((lineAfterBytes? line 4 rest).elim .ended .malformed)

/-- Reads a string literal after its opening quote; answers the text after it. -/
def readQuoted (line : Nat) : List Char → Quoted × List Char
  | [] => breakOff (.both .ended)
  | c :: rest =>
    if c = '"' then ({ line }, rest)
    else if c = '\\' then
      match rest with
      | [] => breakOff (.both .ended)
      | e :: afterEscape =>
        match shortEscape? e with
        | some short => extend (.char short) (readQuoted line afterEscape)
        | none =>
          if e = 'u' then
            match afterEscape with
            | h₁ :: h₂ :: h₃ :: h₄ :: more =>
              match hexUnit? h₁ h₂ h₃ h₄ with
              | some n => extend (.unit n) (readQuoted line more)
              | none => breakOff (hexBreak line (h₁ :: h₂ :: h₃ :: h₄ :: more))
            | short => breakOff (hexBreak line short)
          else breakOff (.both (.malformed (lineAfter line e)))
    else if c.toNat < 0x20 then breakOff ⟨.malformed (lineAfter line c), .malformed line⟩
    else extend (.char c) (readQuoted line rest)
where
  breakOff (b : Break) : Quoted × List Char := ({ line, broken := some b }, [])
  extend (piece : Piece) (r : Quoted × List Char) : Quoted × List Char := (r.1.cons piece, r.2)

/-! ### Numbers -/

/-- A number as it is written: its digits by place, and the exponent. -/
structure Numeral where
  negative : Bool := false
  whole : List Nat
  fraction : List Nat := []
  /-- Sign and digits of the exponent. -/
  exponent : Option (Bool × List Nat) := none
  deriving DecidableEq, Repr

def digit? (c : Char) : Option Nat := if '0' ≤ c ∧ c ≤ '9' then some (c.toNat - '0'.toNat) else none

/-- The digits at the front of a text, and what follows them. -/
def spanDigits : List Char → List Nat × List Char
  | [] => ([], [])
  | c :: rest =>
    match digit? c with
    | some d => ((d :: (spanDigits rest).1), (spanDigits rest).2)
    | none => ([], c :: rest)

/-- How a number breaks off before a text, where a digit is missing. Skipping a number does not tell the
end of the text from a wrong character. -/
def numberBreak (line : Nat) : List Char → Break
  | [] => ⟨.ended, .malformed line⟩
  | c :: _ => .both (.malformed (lineAfter line c))

/-- Reads the exponent of a number, from the letter that marks it. -/
def readExponent (line : Nat) (n : Numeral) (text : List Char) : Except Break (Numeral × List Char) :=
  match text with
  | c :: rest =>
    if c = 'e' ∨ c = 'E' then
      let (negative, rest) := match rest with
        | s :: more => if s = '+' then (false, more) else if s = '-' then (true, more) else (false, rest)
        | [] => (false, [])
      match spanDigits rest with
      | ([], rest) => .error (numberBreak line rest)
      | (digits, rest) => .ok ({ n with exponent := some (negative, digits) }, rest)
    else .ok (n, text)
  | [] => .ok (n, [])

/-- Reads what follows the whole part of a number. -/
def readFraction (line : Nat) (n : Numeral) (text : List Char) : Except Break (Numeral × List Char) :=
  match text with
  | c :: rest =>
    if c = '.' then
      match spanDigits rest with
      | ([], rest) => .error (numberBreak line rest)
      | (digits, rest) => readExponent line { n with fraction := digits } rest
    else readExponent line n text
  | [] => .ok (n, [])

/-- Reads a number after its sign. A zero in front is followed by no other digit. -/
def readNumeral (line : Nat) (negative : Bool) (text : List Char) :
    Except Break (Numeral × List Char) :=
  match spanDigits text with
  | ([], rest) => .error (numberBreak line rest)
  | (0 :: _ :: _, _) => .error (.both (.malformed line))
  | (digits, rest) => readFraction line { negative, whole := digits } rest

/-! ### All tokens -/

/-- A token of JSON. -/
inductive Token
  | openBrace | closeBrace | openBracket | closeBracket | comma | colon
  | null
  | bool (value : Bool)
  | number (numeral : Numeral)
  | text (quoted : Quoted)
  /-- A number or a word that breaks off. -/
  | broken (b : Break)
  /-- A character that begins no token. -/
  | stray
  /-- The end of the text. -/
  | finish
  deriving DecidableEq, Repr

/-- A token and the line it starts on. -/
structure Lexeme where
  line : Nat
  token : Token
  deriving DecidableEq, Repr

/-- Blanks between tokens. -/
def isSpace (c : Char) : Bool := c = ' ' || c = '\n' || c = '\t' || c = '\r'

/-- Takes the letters of a word off the front of a text. -/
def readWord (line : Nat) : List Char → List Char → Except Break (List Char)
  | [], rest => .ok rest
  | _ :: _, [] => .error (.both .ended)
  | w :: word, c :: rest =>
    if c = w then readWord line word rest else .error (.both (.malformed (lineAfter line c)))

/-- The token that stands for a single character. -/
def mark? (c : Char) : Option Token :=
  match c with
  | '\x7b' => some .openBrace
  | '\x7d' => some .closeBrace
  | '[' => some .openBracket
  | ']' => some .closeBracket
  | ',' => some .comma
  | ':' => some .colon
  | _ => none

/-- The letters of a word that begins with a letter, and the token it is. -/
def word? (c : Char) : Option (List Char × Token) :=
  match c with
  | 'n' => some (['u', 'l', 'l'], .null)
  | 't' => some (['r', 'u', 'e'], .bool true)
  | 'f' => some (['a', 'l', 's', 'e'], .bool false)
  | _ => none

/-- The token that begins with a character which is not blank, and the text after it. -/
def readToken (line : Nat) (c : Char) (rest : List Char) : Token × List Char :=
  match mark? c, word? c with
  | some mark, _ => (mark, rest)
  | none, some (letters, word) => orBroken word (readWord line letters rest)
  | none, none =>
    if c = '"' then let (q, after) := readQuoted line rest; (.text q, after)
    else if c = '-' then number (readNumeral line true rest)
    else if (digit? c).isSome then number (readNumeral line false (c :: rest))
    else (.stray, rest)
where
  orBroken (word : Token) : Except Break (List Char) → Token × List Char
    | .ok after => (word, after)
    | .error b => (.broken b, [])
  number : Except Break (Numeral × List Char) → Token × List Char
    | .ok (n, after) => (.number n, after)
    | .error b => (.broken b, [])

/-- Nothing is read after a token that breaks off. -/
def Token.isLast : Token → Bool
  | text q => q.broken.isSome
  | broken _ | stray | finish => true
  | _ => false

/-- The first tokens of a text; every token takes a character, so `count` bounds them. -/
def lexFrom : Nat → Nat → List Char → List Lexeme
  | _, line, [] => [⟨line, .finish⟩]
  | 0, line, _ => [⟨line, .finish⟩]
  | count + 1, line, c :: rest =>
    if isSpace c then lexFrom count (lineAfter line c) rest
    else
      let (token, after) := readToken line c rest
      ⟨line, token⟩ :: if token.isLast then [] else lexFrom count line after

/-- The tokens of a text. -/
def lex (text : List Char) : List Lexeme := lexFrom text.length 1 text

end Misfit.Json
