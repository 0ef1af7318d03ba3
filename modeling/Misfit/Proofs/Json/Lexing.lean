import Misfit.Proofs.Json.Lines
import Misfit.Proofs.Json.Renderings

/-!
# The tokens of a spaced text

A token that is written is read as what it says, whatever follows it, except that a number goes on with
what could be part of it. In a JSON text no number is followed by such a thing. So the tokens of a spaced
text are those it was made of, on whatever lines they stand.
-/
namespace Misfit.Json

/-! ### What tokens say -/

def Letter.piece : Letter → Piece
  | plain c _ _ _ => .char c
  | short e _ => .char ((shortEscape? e).getD e)
  | unit h₁ h₂ h₃ h₄ => .unit (((h₁.value.val * 16 + h₂.value) * 16 + h₃.value) * 16 + h₄.value)

def Digits.values (d : Digits) : List Nat := d.toList.map Fin.val

def Decimal.numeral (n : Decimal) : Numeral where
  negative := n.negative
  whole := n.whole.values
  fraction := n.fraction.elim [] Digits.values
  exponent := n.exponent.map fun e => (e.sign.getD false, e.digits.values)

def Mark.token : Mark → Token
  | openBrace => .openBrace
  | closeBrace => .closeBrace
  | openBracket => .openBracket
  | closeBracket => .closeBracket
  | comma => .comma
  | colon => .colon

/-- The token that is read on a line. -/
def Written.token (line : Nat) : Written → Token
  | mark m => m.token
  | null => .null
  | bool b => .bool b
  | number n => .number n.numeral
  | text letters => .text { line, pieces := letters.map Letter.piece }

/-- The token on no line. -/
def Written.lexeme (t : Written) : Lexeme := ⟨0, t.token 0⟩

theorem Written.token_unplaced (t : Written) (line : Nat) : (t.token line).unplaced = t.token 0 := by
  cases t with
  | mark m => cases m <;> rfl
  | _ => rfl

theorem Written.token_isLast (t : Written) (line : Nat) : (t.token line).isLast = false := by
  cases t with
  | mark m => cases m <;> rfl
  | _ => rfl

/-! ### String literals -/

theorem Hex.digit (h : Hex) : hexDigit? h.char = some h.value.val := by
  obtain ⟨value, capital⟩ := h
  revert value capital
  decide

theorem shortEscape?_isSome {e : Char} (h : e ∈ shortEscapes) : (shortEscape? e).isSome = true := by
  have hall : shortEscapes.all (fun e => (shortEscape? e).isSome) = true := by decide
  exact List.all_eq_true.mp hall e h

variable {line : Nat} {rest : List Char}

theorem readQuoted_letter (l : Letter) (rest : List Char) :
    readQuoted line (l.spelling ++ rest) =
      ((readQuoted line rest).1.cons l.piece, (readQuoted line rest).2) := by
  cases l with
  | plain c printable quote backslash =>
    have hprintable : ¬ c.toNat < 0x20 := Nat.not_lt.mpr printable
    rw [Letter.spelling, List.cons_append, readQuoted.eq_def]
    simp [quote, backslash, hprintable, readQuoted.extend, Letter.piece]
  | short e known =>
    obtain ⟨short, hshort⟩ := Option.isSome_iff_exists.mp (shortEscape?_isSome known)
    rw [Letter.spelling, List.cons_append, readQuoted.eq_def]
    simp [hshort, readQuoted.extend, Letter.piece]
  | unit h₁ h₂ h₃ h₄ =>
    have hshort : shortEscape? 'u' = none := rfl
    rw [Letter.spelling, List.cons_append, readQuoted.eq_def]
    simp [hshort, hexUnit?, h₁.digit, h₂.digit, h₃.digit, h₄.digit, readQuoted.extend, Letter.piece]

theorem readQuoted_letters (ls : List Letter) (rest : List Char) :
    readQuoted line (ls.flatMap Letter.spelling ++ '"' :: rest) =
      ({ line, pieces := ls.map Letter.piece }, rest) := by
  induction ls with
  | nil => rw [List.flatMap_nil, List.nil_append, readQuoted.eq_def]; rfl
  | cons l ls ih => rw [List.flatMap_cons, List.append_assoc, readQuoted_letter, ih]; rfl

/-! ### Numbers -/

/-- No number goes on with this text. -/
def EndsNumber (rest : List Char) : Prop :=
  ∀ c ∈ rest.head?, digit? c = none ∧ c ≠ '.' ∧ c ≠ 'e' ∧ c ≠ 'E'

theorem digit?_digitChar (i : Fin 10) : digit? (Nat.digitChar i) = some i.val := by
  revert i
  decide

theorem spanDigits_of_head (h : ∀ c ∈ rest.head?, digit? c = none) : spanDigits rest = ([], rest) := by
  cases rest with
  | nil => rfl
  | cons c rest => simp [spanDigits, h c rfl]

theorem spanDigits_spelling (d : Digits) (h : ∀ c ∈ rest.head?, digit? c = none) :
    spanDigits (d.spelling ++ rest) = (d.values, rest) := by
  simp only [Digits.spelling, Digits.values]
  induction d.toList with
  | nil => exact spanDigits_of_head h
  | cons i digits ih => simp [spanDigits, digit?_digitChar, ih]

theorem EndsNumber.digit (h : EndsNumber rest) : ∀ c ∈ rest.head?, digit? c = none :=
  fun c hc => (h c hc).1

theorem readExponent_of_ends (n : Numeral) (h : EndsNumber rest) :
    readExponent line n rest = .ok (n, rest) := by
  cases rest with
  | nil => rfl
  | cons c rest =>
    obtain ⟨-, -, hsmall, hcapital⟩ := h c rfl
    simp [readExponent, hsmall, hcapital]

theorem digitChar_ne_sign (i : Fin 10) : Nat.digitChar i ≠ '+' ∧ Nat.digitChar i ≠ '-' := by
  revert i
  decide

theorem readExponent_spelling (n : Numeral) (e : Exponent) (h : EndsNumber rest) :
    readExponent line n (e.spelling ++ rest) =
      .ok ({ n with exponent := some (e.sign.getD false, e.digits.values) }, rest) := by
  have hspan := spanDigits_spelling e.digits h.digit
  have hletter : (if e.capital then 'E' else 'e') = 'e' ∨ (if e.capital then 'E' else 'e') = 'E' := by
    cases e.capital <;> simp
  obtain ⟨capital, - | minus, digits⟩ := e
  · have hsign := digitChar_ne_sign digits.first
    simp only [Exponent.spelling, Option.elim_none, List.nil_append, List.cons_append, readExponent,
      if_pos hletter]
    simp only [Digits.spelling, Digits.toList, List.map_cons, List.cons_append, if_neg hsign.1,
      if_neg hsign.2] at hspan ⊢
    rw [hspan]
    rfl
  · simp only [Exponent.spelling, Option.elim_some, List.cons_append, List.nil_append, readExponent,
      if_pos hletter]
    cases minus <;> simp [hspan] <;> rfl

/-- Neither a digit nor a point stands where an exponent may begin. -/
theorem Decimal.scale_head (n : Decimal) (h : EndsNumber rest) :
    ∀ c ∈ (n.scale ++ rest).head?, digit? c = none ∧ c ≠ '.' := by
  rw [scale]
  cases n.exponent with
  | none => exact fun c hc => ⟨(h c hc).1, (h c hc).2.1⟩
  | some e =>
    intro c hc
    obtain rfl : _ = c := Option.some.inj hc
    cases e.capital <;> decide

theorem Decimal.tail_head (n : Decimal) (h : EndsNumber rest) :
    ∀ c ∈ (n.tail ++ rest).head?, digit? c = none := by
  rw [tail]
  cases n.fraction with
  | none => exact fun c hc => (n.scale_head h c hc).1
  | some d =>
    intro c hc
    obtain rfl : _ = c := Option.some.inj hc
    rfl

theorem readExponent_scale (n : Decimal) {m : Numeral} (hm : m.exponent = none) (h : EndsNumber rest) :
    readExponent line m (n.scale ++ rest) = .ok ({ m with exponent := n.numeral.exponent }, rest) := by
  rw [Decimal.scale, Decimal.numeral]
  cases n.exponent with
  | none => rw [Option.map_none, ← hm]; exact readExponent_of_ends m h
  | some e => exact readExponent_spelling m e h

theorem readFraction_of_head (m : Numeral) (h : ∀ c ∈ rest.head?, c ≠ '.') :
    readFraction line m rest = readExponent line m rest := by
  cases rest with
  | nil => rfl
  | cons c rest => rw [readFraction, if_neg (h c rfl)]

theorem readFraction_tail (n : Decimal) (h : EndsNumber rest) :
    readFraction line { negative := n.negative, whole := n.whole.values } (n.tail ++ rest) =
      .ok (n.numeral, rest) := by
  have hhead := n.scale_head h
  rw [Decimal.tail]
  cases hfraction : n.fraction with
  | none =>
    rw [Option.elim_none, List.nil_append, readFraction_of_head _ fun c hc => (hhead c hc).2,
      readExponent_scale n rfl h]
    simp [Decimal.numeral, hfraction]
  | some d =>
    have hspan := spanDigits_spelling d fun c hc => (hhead c hc).1
    simp only [Option.elim_some, List.cons_append, List.append_assoc, readFraction, if_true, hspan]
    refine (readExponent_scale n rfl h).trans ?_
    simp [Decimal.numeral, hfraction]

/-- A number is read after its sign. -/
theorem readNumeral_spelling (n : Decimal) (h : EndsNumber rest) :
    readNumeral line n.negative (n.whole.spelling ++ (n.tail ++ rest)) = .ok (n.numeral, rest) := by
  have hspan := spanDigits_spelling n.whole (n.tail_head h)
  have htail : readFraction line _ (n.tail ++ rest) = _ := readFraction_tail n h
  rw [readNumeral, hspan]
  obtain ⟨negative, ⟨⟨first, hfirst⟩, digits⟩, fraction, exponent, hzero⟩ := n
  -- whether a second digit is refused is decided by the first one
  cases first with
  | zero =>
    obtain rfl : digits = [] := hzero rfl
    exact htail
  | succ k => exact htail

/-! ### Tokens -/

/-- A digit begins no other token. -/
theorem digitChar_begins (i : Fin 10) : let c := Nat.digitChar i
    isSpace c = false ∧ mark? c = none ∧ word? c = none ∧ c ≠ '"' ∧ c ≠ '-' := by
  revert i
  decide

theorem readToken_digit (i : Fin 10) (rest : List Char) :
    readToken line (Nat.digitChar i) rest =
      readToken.number (readNumeral line false (Nat.digitChar i :: rest)) := by
  obtain ⟨-, hmark, hword, hquote, hminus⟩ := digitChar_begins i
  simp [readToken, hmark, hword, hquote, hminus, digit?_digitChar]

theorem lexFrom_of_readToken {t : Written} {c : Char} {after : List Char} (hc : isSpace c = false)
    (h : readToken line c rest = (t.token line, after)) (count : Nat) :
    lexFrom (count + 1) line (c :: rest) = ⟨line, t.token line⟩ :: lexFrom count line after := by
  simp [lexFrom, hc, h, t.token_isLast]

/-- A token is read as what it says, unless it is a number that goes on. -/
theorem lexFrom_spelling (t : Written) (h : t.isMark ∨ EndsNumber rest) (count : Nat) :
    lexFrom (count + 1) line (t.spelling ++ rest) = ⟨line, t.token line⟩ :: lexFrom count line rest := by
  cases t with
  | mark m => cases m <;> rfl
  | null => rfl
  | bool b => cases b <;> rfl
  | number n =>
    have hread : readNumeral line n.negative (n.whole.spelling ++ (n.tail ++ rest)) = _ :=
      readNumeral_spelling n (h.resolve_left Bool.false_ne_true)
    rw [Written.spelling, Decimal.spelling, List.append_assoc, List.append_assoc]
    cases hnegative : n.negative with
    | true =>
      rw [hnegative] at hread
      have htoken : readToken line '-' _ = ((Written.number n).token line, rest) :=
        congrArg readToken.number hread
      exact lexFrom_of_readToken rfl htoken count
    | false =>
      rw [hnegative] at hread
      have htoken := (readToken_digit n.whole.first _).trans (congrArg readToken.number hread)
      exact lexFrom_of_readToken (digitChar_begins n.whole.first).1 htoken count
  | text letters =>
    have htoken : readToken line '"' _ = ((Written.text letters).token line, rest) :=
      congrArg (fun r : Quoted × List Char => (Token.text r.1, r.2)) (readQuoted_letters letters rest)
    rw [Written.spelling, List.cons_append, List.append_assoc]
    exact lexFrom_of_readToken rfl htoken count

theorem lexFrom_blank {c : Char} (hc : isSpace c = true) (count : Nat) :
    lexFrom (count + 1) line (c :: rest) = lexFrom count (lineAfter line c) rest := by
  simp [lexFrom, hc]

/-- Blanks are passed over; what follows them stands on some line. -/
theorem lexFrom_blanks {g : List Char} (hg : Blanks isSpace g) (rest : List Char) (count line : Nat) :
    ∃ line', lexFrom (g.length + count) line (g ++ rest) = lexFrom count line' rest := by
  induction g generalizing line with
  | nil => exact ⟨line, by simp⟩
  | cons c g ih =>
    obtain ⟨hc, hg⟩ := List.forall_mem_cons.mp hg
    obtain ⟨line', heq⟩ := ih hg (lineAfter line c)
    refine ⟨line', ?_⟩
    rw [List.length_cons, Nat.add_right_comm, List.cons_append, lexFrom_blank hc, heq]

theorem isSpace_endsNumber {c : Char} (hc : isSpace c = true) :
    digit? c = none ∧ c ≠ '.' ∧ c ≠ 'e' ∧ c ≠ 'E' := by
  simp only [isSpace, Bool.or_eq_true, decide_eq_true_eq] at hc
  obtain ((rfl | rfl) | rfl) | rfl := hc <;> decide

theorem mark_endsNumber (m : Mark) : EndsNumber (m.char :: rest) := by
  intro c hc
  obtain rfl : _ = c := Option.some.inj hc
  cases m <;> decide

/-- In a spaced text a number ends where its spelling does, if a mark comes next. -/
theorem Spaced.endsNumber {ts : List Written} {text : List Char} (h : Spaced isSpace ts text)
    (hts : ∀ t ∈ ts.head?, t.isMark) : EndsNumber text := by
  have hblanks : ∀ {g rest : List Char}, Blanks isSpace g → EndsNumber rest → EndsNumber (g ++ rest) := by
    intro g rest hg hrest
    cases g with
    | nil => exact hrest
    | cons c g =>
      intro d hd
      obtain rfl : c = d := Option.some.inj hd
      exact isSpace_endsNumber (hg c List.mem_cons_self)
  cases h with
  | finish hg => exact List.append_nil text ▸ hblanks hg (fun c hc => nomatch hc)
  | @token t ts g rest hg h =>
    refine hblanks hg ?_
    cases t with
    | mark m => exact mark_endsNumber m
    | _ => exact absurd (hts _ rfl) Bool.false_ne_true

theorem Written.spelling_length_pos (t : Written) : 0 < t.spelling.length := by
  cases t with
  | bool b => cases b <;> decide
  | number n => exact List.length_pos_of_ne_nil n.spelling_ne_nil
  | _ => exact Nat.succ_pos _

/-- The tokens of a spaced text, on whatever lines they stand, are those it is made of. By induction on
the tokens; the bound on their number is met, since every token takes a character. -/
theorem Spaced.lexFrom_eq {ts : List Written} {text : List Char} (h : Spaced isSpace ts text)
    (hts : ts.IsChain Neighbours) (count line : Nat) (hcount : text.length ≤ count) :
    (lexFrom count line text).map Lexeme.unplaced = ts.map Written.lexeme ++ [⟨0, .finish⟩] := by
  induction h generalizing count line with
  | @finish g hg =>
    obtain ⟨count, rfl⟩ := Nat.exists_eq_add_of_le hcount
    obtain ⟨line', heq⟩ := lexFrom_blanks hg [] count line
    rw [List.append_nil] at heq
    rw [heq]
    cases count <;> rfl
  | @token t ts g rest hg h ih =>
    obtain ⟨hnext, htail⟩ := List.isChain_cons.mp hts
    have hpos := t.spelling_length_pos
    simp only [List.length_append] at hcount
    -- one step of the bound goes to each blank and one to the token, which takes at least a character
    obtain ⟨bound, rfl⟩ : ∃ bound, count = g.length + (bound + 1) := ⟨count - g.length - 1, by omega⟩
    have hend : t.isMark ∨ EndsNumber rest := by
      by_cases ht : t.isMark
      · exact .inl ht
      · exact .inr (h.endsNumber fun u hu => (hnext u hu).1.resolve_left ht)
    obtain ⟨line', heq⟩ := lexFrom_blanks hg (t.spelling ++ rest) (bound + 1) line
    rw [heq, lexFrom_spelling t hend, List.map_cons, ih htail bound line' (by omega)]
    simp [Lexeme.unplaced, t.token_unplaced, Written.lexeme]

/-- The function takes no notice of the blanks between the tokens of a JSON text. -/
def IgnoresBlanks {α : Type} (f : List Char → α) : Prop :=
  ∀ ts text text', Derives .value ts → Spaced isSpace ts text → Spaced isSpace ts text' → f text = f text'

/-- What a spaced text says, without its lines, is what its tokens say. -/
theorem Spaced.ofText_unplaced {ts : List Written} {text : List Char} (h : Spaced isSpace ts text)
    (hts : Derives .value ts) :
    (Document.ofText text).unplaced = Document.ofTokens (ts.map Written.lexeme ++ [⟨0, .finish⟩]) := by
  rw [Document.ofText, lex, ← Document.ofTokens_unplaced,
    h.lexFrom_eq hts.composed.chain text.length 1 (Nat.le_refl _)]

/-- What a text says, without its lines, depends on its tokens only. -/
theorem ofText_ignoresBlanks : IgnoresBlanks fun text => (Document.ofText text).unplaced :=
  fun _ _ _ hts h h' => (h.ofText_unplaced hts).trans (h'.ofText_unplaced hts).symm

/-- What is read of a text is what is read of the document without its lines, up to the line in a flaw. -/
theorem deserializer_read_unplaced {α : Type} (s : Schema α) (text : List Char) :
    placeless (deserializer.read s text) = (Document.ofText text).unplaced.read s.reader :=
  (Document.read_unplaced s.reader_placeless _).symm

theorem deserializer_ignoresBlanks {α : Type} (s : Schema α) :
    IgnoresBlanks fun text => placeless (deserializer.read s text) := by
  intro ts text text' hts h h'
  simp only [deserializer_read_unplaced]
  exact congrArg (Document.read s.reader) (ofText_ignoresBlanks ts text text' hts h h')

end Misfit.Json
