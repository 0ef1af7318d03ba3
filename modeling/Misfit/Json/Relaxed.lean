import Misfit.Text.Blank

/-!
# JSON with comments and trailing commas

Options files may hold comments and commas after the last value of an array or object. Both are taken
out before the text is read: `withoutComments` first, then `withoutTrailingCommas`. String literals are
left as they are, and newlines inside comments are kept, so that lines keep their numbers. Both passes
go through the text one character at a time and look no further back than the zone they are in.
-/
namespace Misfit.Relaxed

/-- Whether a character stands in a string literal. -/
inductive Quoting
  | outside
  /-- In a literal; `escaped` directly after a backslash. -/
  | inside (escaped : Bool)
  deriving DecidableEq, Repr

/-- Where the character after `c` stands. -/
def Quoting.next : Quoting → Char → Quoting
  | outside, c => if c = '"' then inside false else outside
  | inside true, _ => inside false
  | inside false, c => if c = '\\' then inside true else if c = '"' then outside else inside false

/-- Whether a character stands in a comment. -/
inductive Zone
  | text (quoting : Quoting)
  | lineComment
  /-- On the star that opens a block comment. -/
  | blockOpening
  /-- In a block comment; `star` directly after a star. -/
  | blockComment (star : Bool)
  deriving DecidableEq, Repr

namespace Zone

/-- A zone outside comments and string literals. -/
def plain : Zone := text .outside

/-- A comment begins at `c`, which is followed by `ahead`. -/
def opensComment (z : Zone) (c : Char) (ahead : Option Char) : Bool :=
  z = plain && c = '/' && (ahead = some '/' || ahead = some '*')

/-- The zone of the character after `c`. -/
def next (z : Zone) (c : Char) (ahead : Option Char) : Zone :=
  match z with
  | text q =>
    if z.opensComment c ahead then (if ahead = some '/' then lineComment else blockOpening)
    else text (q.next c)
  | lineComment => if c = '\n' then plain else lineComment
  | blockOpening => blockComment false
  | blockComment star => if star = true ∧ c = '/' then plain else blockComment (c = '*')

/-- Text outside comments is kept, and of a comment its newlines. -/
def keeps (z : Zone) (c : Char) (ahead : Option Char) : Bool :=
  match z with
  | text _ => !z.opensComment c ahead
  | _ => c = '\n'

end Zone

/-- A text that begins in a zone, without its comments. -/
def stripFrom : Zone → List Char → List Char
  | _, [] => []
  | z, c :: rest =>
    let stripped := stripFrom (z.next c rest.head?) rest
    if z.keeps c rest.head? then c :: stripped else stripped

/-- A text without its comments. -/
def withoutComments (text : List Char) : List Char := stripFrom Zone.plain text

/-- The next character that is not blank closes an array or object. -/
def closes (rest : List Char) : Bool :=
  match Text.trimStart rest with
  | c :: _ => c = '\x7d' || c = ']'
  | [] => false

/-- A text without the commas outside string literals that stand directly before a closing bracket. -/
def dropFrom : Quoting → List Char → List Char
  | _, [] => []
  | q, c :: rest =>
    if q = .outside ∧ c = ',' ∧ closes rest then dropFrom q rest
    else c :: dropFrom (q.next c) rest

/-- A text without trailing commas. -/
def withoutTrailingCommas (text : List Char) : List Char := dropFrom .outside text

/-- The plain JSON behind a text with comments and trailing commas. -/
def normalize (text : List Char) : List Char := withoutTrailingCommas (withoutComments text)

@[simp] theorem stripFrom_nil (z : Zone) : stripFrom z [] = [] := by
  cases z <;> rfl

@[simp] theorem dropFrom_nil (q : Quoting) : dropFrom q [] = [] := by
  cases q <;> rfl

theorem stripFrom_cons (z : Zone) (c : Char) (rest : List Char) :
    stripFrom z (c :: rest) =
      (if z.keeps c rest.head? then [c] else []) ++ stripFrom (z.next c rest.head?) rest := by
  simp only [stripFrom]
  split <;> simp

/-- A character inside a string literal is kept. -/
theorem stripFrom_inside (escaped : Bool) (c : Char) (rest : List Char) :
    stripFrom (.text (.inside escaped)) (c :: rest) =
      c :: stripFrom (.text ((Quoting.inside escaped).next c)) rest := by
  simp [stripFrom, Zone.keeps, Zone.next, Zone.opensComment, Zone.plain]

end Misfit.Relaxed
