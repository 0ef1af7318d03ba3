import Misfit.Json.Token
import Misfit.Text.Blank
import Mathlib.Data.List.Chain

/-!
# JSON as it is written

The tokens of JSON with their spelling, the sequences of them that make a JSON text, and two ways to
write such a sequence down. A spaced text has nothing but blanks between the tokens. A rendering may
have comments there as well, and a comma after the last value of an array or object.
-/
namespace Misfit.Json

/-! ### Tokens with their spelling -/

/-- A hexadecimal digit as it is written. -/
structure Hex where
  value : Fin 16
  capital : Bool := false
  deriving DecidableEq, Repr

def Hex.char (h : Hex) : Char :=
  if h.capital then (Nat.digitChar h.value).toUpper else Nat.digitChar h.value

/-- The characters that make an escape with the backslash before them. -/
def shortEscapes : List Char := ['"', '\\', '/', 'b', 'f', 'n', 'r', 't']

/-- A character of a string literal as it is written. -/
inductive Letter
  | plain (c : Char) (printable : 0x20 ≤ c.toNat := by decide) (quote : c ≠ '"' := by decide)
    (backslash : c ≠ '\\' := by decide)
  | short (e : Char) (known : e ∈ shortEscapes := by decide)
  | unit (h₁ h₂ h₃ h₄ : Hex)
  deriving DecidableEq, Repr

def Letter.spelling : Letter → List Char
  | plain c _ _ _ => [c]
  | short e _ => ['\\', e]
  | unit h₁ h₂ h₃ h₄ => ['\\', 'u', h₁.char, h₂.char, h₃.char, h₄.char]

/-- The character as it stands, if it needs no escape. -/
def Letter.ofChar? (c : Char) : Option Letter :=
  if h : 0x20 ≤ c.toNat ∧ c ≠ '"' ∧ c ≠ '\\' then some (.plain c h.1 h.2.1 h.2.2) else none

/-- The letters of a word without escapes. -/
def lettersOf (word : String) : List Letter := word.toList.filterMap Letter.ofChar?

/-- One or more decimal digits. -/
structure Digits where
  first : Fin 10
  rest : List (Fin 10) := []
  deriving DecidableEq, Repr

def Digits.toList (d : Digits) : List (Fin 10) := d.first :: d.rest

def Digits.spelling (d : Digits) : List Char := d.toList.map fun i : Fin 10 => Nat.digitChar i.val

/-- The exponent of a number as it is written; `sign` says whether its sign is a minus. -/
structure Exponent where
  capital : Bool := false
  sign : Option Bool := none
  digits : Digits
  deriving DecidableEq, Repr

def Exponent.spelling (e : Exponent) : List Char :=
  (if e.capital then 'E' else 'e') ::
    ((e.sign.elim [] fun minus => [if minus then '-' else '+']) ++ e.digits.spelling)

/-- A number as it is written. A zero in front is followed by no other digit. -/
structure Decimal where
  negative : Bool := false
  whole : Digits
  fraction : Option Digits := none
  exponent : Option Exponent := none
  no_leading_zero : whole.first.val = 0 → whole.rest = [] := by decide
  deriving DecidableEq, Repr

def Decimal.scale (n : Decimal) : List Char := n.exponent.elim [] Exponent.spelling

/-- What follows the whole part of a number. -/
def Decimal.tail (n : Decimal) : List Char := (n.fraction.elim [] fun d => '.' :: d.spelling) ++ n.scale

def Decimal.spelling (n : Decimal) : List Char :=
  (if n.negative then ['-'] else []) ++ (n.whole.spelling ++ n.tail)

/-- A token that is a single character. -/
inductive Mark
  | openBrace | closeBrace | openBracket | closeBracket | comma | colon
  deriving DecidableEq, Repr

namespace Mark

def char : Mark → Char
  | openBrace => '\x7b'
  | closeBrace => '\x7d'
  | openBracket => '['
  | closeBracket => ']'
  | comma => ','
  | colon => ':'

/-- The mark ends an array or object. -/
def closes : Mark → Bool
  | closeBrace | closeBracket => true
  | _ => false

end Mark

/-- A token as it is written. -/
inductive Written
  | mark (m : Mark)
  | null
  | bool (value : Bool)
  | number (n : Decimal)
  | text (letters : List Letter)
  deriving DecidableEq, Repr

namespace Written

def spelling : Written → List Char
  | mark m => [m.char]
  | null => ['n', 'u', 'l', 'l']
  | bool true => ['t', 'r', 'u', 'e']
  | bool false => ['f', 'a', 'l', 's', 'e']
  | number n => n.spelling
  | text letters => '"' :: (letters.flatMap Letter.spelling ++ ['"'])

def isMark : Written → Bool
  | mark _ => true
  | _ => false

def isText : Written → Bool
  | text _ => true
  | _ => false

/-- The token ends an array or object. -/
def closes : Written → Bool
  | mark m => m.closes
  | _ => false

/-- A value can end with the token. -/
def endsValue : Written → Bool
  | mark m => m.closes
  | _ => true

end Written

/-! ### Valid texts -/

/-- A part of a JSON text: a value, or what stands between the brackets of an array or object that is
not empty. -/
inductive Part
  | value | items | members
  deriving DecidableEq, Repr

open Written in
/-- The sequences of tokens that make a part of a JSON text. -/
inductive Derives : Part → List Written → Prop
  | null : Derives .value [null]
  | bool (b : Bool) : Derives .value [bool b]
  | number (n : Decimal) : Derives .value [number n]
  | text (letters : List Letter) : Derives .value [text letters]
  | emptyArray : Derives .value [mark .openBracket, mark .closeBracket]
  | array {items : List Written} (h : Derives .items items) :
    Derives .value (mark .openBracket :: (items ++ [mark .closeBracket]))
  | emptyObject : Derives .value [mark .openBrace, mark .closeBrace]
  | object {members : List Written} (h : Derives .members members) :
    Derives .value (mark .openBrace :: (members ++ [mark .closeBrace]))
  | item {value : List Written} (h : Derives .value value) : Derives .items value
  | items {value rest : List Written} (h : Derives .value value) (hrest : Derives .items rest) :
    Derives .items (value ++ mark .comma :: rest)
  | member (key : List Letter) {value : List Written} (h : Derives .value value) :
    Derives .members (text key :: mark .colon :: value)
  | members (key : List Letter) {value rest : List Written} (h : Derives .value value)
    (hrest : Derives .members rest) :
    Derives .members (text key :: mark .colon :: (value ++ mark .comma :: rest))

/-- Two tokens that may stand side by side: one of them is a mark, and no comma stands before a closing
bracket. -/
def Neighbours (t u : Written) : Prop :=
  (t.isMark ∨ u.isMark) ∧ (t = .mark .comma → u.closes = false)

/-- Tokens that make a part of a JSON text, as far as their neighbours can see. -/
structure Composed (ts : List Written) : Prop where
  chain : ts.IsChain Neighbours
  ne_nil : ts ≠ []
  head_opens : ∀ t ∈ ts.head?, t.closes = false
  last_ne_comma : ∀ t ∈ ts.getLast?, t ≠ .mark .comma

namespace Composed

variable {ts rest : List Written} {t : Written} {m : Mark}

theorem single (hopens : t.closes = false) (hcomma : t ≠ .mark .comma) : Composed [t] :=
  ⟨List.isChain_singleton t, by simp, by simpa using hopens, by simpa using hcomma⟩

/-- A mark other than a comma may stand in front. -/
theorem mark_cons (h : Composed ts) (hopens : m.closes = false) (hcomma : m ≠ .comma) :
    Composed (.mark m :: ts) where
  chain := by
    refine List.isChain_cons.mpr ⟨fun t _ => ⟨.inl rfl, fun heq => ?_⟩, h.chain⟩
    exact (hcomma (Written.mark.inj heq)).elim
  ne_nil := List.cons_ne_nil _ _
  head_opens := by simpa [Written.closes] using hopens
  last_ne_comma := by rw [List.getLast?_cons_of_ne_nil h.ne_nil]; exact h.last_ne_comma

/-- A closing bracket may stand at the end. -/
theorem closed (h : Composed ts) (hm : m.closes) : Composed (ts ++ [.mark m]) where
  chain := by
    refine List.isChain_append.mpr ⟨h.chain, List.isChain_singleton _, fun t ht u hu => ?_⟩
    obtain rfl : _ = u := by simpa using hu
    exact ⟨.inr rfl, fun hcomma => (h.last_ne_comma t ht hcomma).elim⟩
  ne_nil := by simp
  head_opens := by rw [List.head?_append_of_ne_nil _ h.ne_nil]; exact h.head_opens
  last_ne_comma := by
    intro t ht hcomma
    obtain rfl : _ = t := by simpa using ht
    simp [(Written.mark.inj hcomma : m = .comma), Mark.closes] at hm

/-- Two parts may stand side by side with a comma between them. -/
theorem joined (h : Composed ts) (hrest : Composed rest) : Composed (ts ++ .mark .comma :: rest) where
  chain := by
    refine List.isChain_append.mpr ⟨h.chain, List.isChain_cons.mpr ⟨fun t ht => ?_, hrest.chain⟩, ?_⟩
    · exact ⟨.inl rfl, fun _ => hrest.head_opens t ht⟩
    · intro t ht u hu
      obtain rfl : _ = u := by simpa using hu
      exact ⟨.inr rfl, fun _ => rfl⟩
  ne_nil := by simp
  head_opens := by rw [List.head?_append_of_ne_nil _ h.ne_nil]; exact h.head_opens
  last_ne_comma := by
    rw [List.getLast?_append_of_ne_nil _ (List.cons_ne_nil _ _),
      List.getLast?_cons_of_ne_nil hrest.ne_nil]
    exact hrest.last_ne_comma

/-- A key and a colon may stand in front. -/
theorem keyed (key : List Letter) (h : Composed ts) :
    Composed (.text key :: .mark .colon :: ts) := by
  have htail : Composed (.mark .colon :: ts) := h.mark_cons rfl (by decide)
  exact {
    chain := List.isChain_cons_cons.mpr ⟨⟨.inr rfl, fun h => nomatch h⟩, htail.chain⟩
    ne_nil := List.cons_ne_nil _ _
    head_opens := by simp [Written.closes]
    last_ne_comma := by rw [List.getLast?_cons_of_ne_nil htail.ne_nil]; exact htail.last_ne_comma }

end Composed

theorem Derives.composed {part : Part} {ts : List Written} (h : Derives part ts) : Composed ts := by
  induction h with
  | null => exact .single rfl (by decide)
  | bool b => exact .single rfl (by simp)
  | number n => exact .single rfl (by simp)
  | text letters => exact .single rfl (by simp)
  | emptyArray => exact .closed (.single rfl (by decide)) rfl
  | array _ ih => exact (ih.closed rfl).mark_cons rfl (by decide)
  | emptyObject => exact .closed (.single rfl (by decide)) rfl
  | object _ ih => exact (ih.closed rfl).mark_cons rfl (by decide)
  | item _ ih => exact ih
  | items _ _ ih ihrest => exact ih.joined ihrest
  | member key _ ih => exact ih.keyed key
  | members key _ _ ih ihrest => exact (ih.joined ihrest).keyed key

/-! ### Ways to write tokens down -/

/-- Blanks of a class and comments. A block comment ends with the first `*/`, and a line comment with
its line. -/
inductive Gap (p : Char → Bool) : List Char → Prop
  | nil : Gap p []
  | blank {c : Char} {gap : List Char} (hc : p c) (h : Gap p gap) : Gap p (c :: gap)
  | block {content gap : List Char} (hcontent : ¬ ['*', '/'] <:+: content) (h : Gap p gap) :
    Gap p ('/' :: '*' :: (content ++ '*' :: '/' :: gap))
  | line {content gap : List Char} (hcontent : '\n' ∉ content) (h : Gap p gap) :
    Gap p ('/' :: '/' :: (content ++ '\n' :: gap))

theorem isBlank_of_isSpace (c : Char) (hc : isSpace c) : Text.isBlank c := by
  simp only [isSpace, Bool.or_eq_true, decide_eq_true_eq] at hc
  obtain ((rfl | rfl) | rfl) | rfl := hc <;> rfl

/-- Blanks of a class and nothing else. -/
def Blanks (p : Char → Bool) (gap : List Char) : Prop := ∀ c ∈ gap, p c

theorem Blanks.append {p : Char → Bool} {g g' : List Char} (h : Blanks p g) (h' : Blanks p g') :
    Blanks p (g ++ g') := List.forall_mem_append.mpr ⟨h, h'⟩

/-- The tokens in their spelling, with gaps before, between and after them. A comma may be put in
between the token that ends the last value of an array or object and the closing bracket. -/
inductive Rendering (gap : List Char → Prop) : Option Written → List Written → List Char → Prop
  | finish {last : Option Written} {g : List Char} (hg : gap g) : Rendering gap last [] g
  | token {last : Option Written} {t : Written} {ts : List Written} {g rest : List Char} (hg : gap g)
    (h : Rendering gap (some t) ts rest) : Rendering gap last (t :: ts) (g ++ (t.spelling ++ rest))
  | comma {last t : Written} {ts : List Written} {g g' rest : List Char} (hg : gap g) (hg' : gap g')
    (hlast : last.endsValue) (ht : t.closes) (h : Rendering gap (some t) ts rest) :
    Rendering gap (some last) (t :: ts) (g ++ ',' :: (g' ++ (t.spelling ++ rest)))

/-- The text renders the tokens, with blanks of a class, comments and trailing commas. -/
def Renders (p : Char → Bool) (ts : List Written) (text : List Char) : Prop :=
  Rendering (Gap p) none ts text

/-- The text is the tokens in their order and spelling, with nothing but blanks of a class before,
between and after them. -/
inductive Spaced (p : Char → Bool) : List Written → List Char → Prop
  | finish {g : List Char} (hg : Blanks p g) : Spaced p [] g
  | token {t : Written} {ts : List Written} {g rest : List Char} (hg : Blanks p g)
    (h : Spaced p ts rest) : Spaced p (t :: ts) (g ++ (t.spelling ++ rest))

/-- The spellings one after another are a spaced text. -/
theorem Spaced.bare {p : Char → Bool} (ts : List Written) : Spaced p ts (ts.flatMap Written.spelling) := by
  have hnil : Blanks p [] := by simp [Blanks]
  induction ts with
  | nil => exact .finish hnil
  | cons t ts ih => exact .token hnil ih

theorem Gap.of_blanks {p : Char → Bool} {g : List Char} (h : Blanks p g) : Gap p g := by
  induction g with
  | nil => exact .nil
  | cons c g ih =>
    obtain ⟨hc, hg⟩ := List.forall_mem_cons.mp h
    exact .blank hc (ih hg)

/-- A spaced text is a rendering without comments and trailing commas. -/
theorem Spaced.rendering {p : Char → Bool} {ts : List Written} {text : List Char} (h : Spaced p ts text)
    (last : Option Written) : Rendering (Gap p) last ts text := by
  induction h generalizing last with
  | finish hg => exact .finish (.of_blanks hg)
  | token hg h ih => exact .token (.of_blanks hg) (ih _)

theorem Renders.of_eq {p : Char → Bool} {ts : List Written} {text : List Char}
    (h : text = ts.flatMap Written.spelling) : Renders p ts text := h ▸ (Spaced.bare ts).rendering none

end Misfit.Json
