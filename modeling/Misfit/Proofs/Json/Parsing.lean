import Misfit.Proofs.Json.Lexing

/-!
# What JSON tokens say

The tokens of a JSON text are parsed to the end, whatever follows them, and the value they make has no
flaw. A bound on the calls is part of the parser, so each lemma here asks for enough of them: two for each
token.
-/
namespace Misfit.Json

/-- The tokens on no line. -/
def lexemes (ts : List Written) : List Lexeme := ts.map Written.lexeme

/-- A string literal on no line. -/
def quoted (letters : List Letter) : Quoted := { line := 0, pieces := letters.map Letter.piece }

/-- The tokens are parsed as the value. -/
def Parses (ts : List Written) (value : Value) : Prop :=
  ∀ count rest, 2 * ts.length ≤ count → parseValue count (lexemes ts ++ rest) = (value, some rest)

/-- The tokens are parsed as the items of an array, up to its closing bracket. -/
def ParsesItems (ts : List Written) (items : Items) : Prop :=
  ∀ count rest, 2 * ts.length < count →
    parseItem count (lexemes ts ++ Written.lexeme (.mark .closeBracket) :: rest) = (items, some rest)

/-- The tokens are parsed as the members of an object, up to its closing brace. -/
def ParsesMembers (ts : List Written) (members : Members) : Prop :=
  ∀ count rest, 2 * ts.length < count →
    parseMember count (lexemes ts ++ Written.lexeme (.mark .closeBrace) :: rest) = (members, some rest)

@[simp] theorem lexemes_cons (t : Written) (ts : List Written) :
    lexemes (t :: ts) = t.lexeme :: lexemes ts := rfl

@[simp] theorem lexemes_append (ts ts' : List Written) :
    lexemes (ts ++ ts') = lexemes ts ++ lexemes ts' := List.map_append

@[simp] theorem lexemes_nil : lexemes [] = [] := rfl

/-! ### Arrays -/

section

variable {ts rest : List Written} {value : Value} {items : Items}

theorem parseItem_last {count : Nat} {l : Lexeme} {ls after : List Lexeme}
    (h : parseValue count (l :: ls) = (value, some (Written.lexeme (.mark .closeBracket) :: after))) :
    parseItem (count + 1) (l :: ls) = (.cons l.line value .closed, some after) := by
  rw [parseItem, h]
  rfl

theorem parseItem_comma {count : Nat} {l : Lexeme} {ls after : List Lexeme}
    (h : parseValue count (l :: ls) = (value, some (Written.lexeme (.mark .comma) :: after))) :
    parseItem (count + 1) (l :: ls) =
      (.cons l.line value (parseItem count after).1, (parseItem count after).2) := by
  rw [parseItem, h]
  rfl

theorem parseValue_openBracket (count : Nat) {t : Written} (ht : t.closes = false) (ls : List Lexeme) :
    parseValue (count + 1) (Written.lexeme (.mark .openBracket) :: t.lexeme :: ls) =
      (.array 0 (parseItem count (t.lexeme :: ls)).1, (parseItem count (t.lexeme :: ls)).2) := by
  cases t with
  | mark m => cases m <;> first | rfl | exact absurd ht Bool.true_eq_false.mp
  | _ => rfl

theorem Parses.item (h : Parses ts value) (hts : ts ≠ []) :
    ParsesItems ts (.cons 0 value .closed) := by
  obtain ⟨t, ts, rfl⟩ := List.exists_cons_of_ne_nil hts
  intro count after hcount
  obtain ⟨count, rfl⟩ : ∃ n, count = n + 1 := ⟨count - 1, by omega⟩
  exact parseItem_last (h count _ (by omega))

theorem Parses.item_cons (h : Parses ts value) (hts : ts ≠ []) (hrest : ParsesItems rest items) :
    ParsesItems (ts ++ .mark .comma :: rest) (.cons 0 value items) := by
  obtain ⟨t, ts, rfl⟩ := List.exists_cons_of_ne_nil hts
  intro count after hcount
  simp only [List.length_append, List.length_cons] at hcount
  obtain ⟨count, rfl⟩ : ∃ n, count = n + 1 := ⟨count - 1, by omega⟩
  have hvalue := h count (Written.lexeme (.mark .comma) ::
    (lexemes rest ++ Written.lexeme (.mark .closeBracket) :: after)) (by simp only [List.length_cons]; omega)
  rw [lexemes_cons, List.cons_append] at hvalue
  have heq := parseItem_comma hvalue
  simp only [lexemes_append, lexemes_cons, List.cons_append, List.append_assoc] at heq ⊢
  rw [heq, hrest count after (by omega)]
  rfl

theorem ParsesItems.array (h : ParsesItems ts items) (hts : ts ≠ [])
    (hopens : ∀ t ∈ ts.head?, t.closes = false) :
    Parses (.mark .openBracket :: (ts ++ [.mark .closeBracket])) (.array 0 items) := by
  obtain ⟨t, ts, rfl⟩ := List.exists_cons_of_ne_nil hts
  intro count after hcount
  simp only [List.length_append, List.length_cons, List.length_nil] at hcount
  obtain ⟨count, rfl⟩ : ∃ n, count = n + 1 := ⟨count - 1, by omega⟩
  have hitems := h count after (by simp only [List.length_cons]; omega)
  have heq := parseValue_openBracket count (hopens t rfl)
    (lexemes ts ++ Written.lexeme (.mark .closeBracket) :: after)
  simp only [lexemes_cons, lexemes_append, lexemes_nil, List.cons_append, List.append_assoc,
    List.nil_append] at hitems ⊢
  rw [heq, hitems]

end

/-! ### Objects -/

section

variable {ts rest : List Written} {value : Value} {members : Members}

theorem parseMember_last (key : List Letter) {count : Nat} {ls after : List Lexeme}
    (h : parseValue count ls = (value, some (Written.lexeme (.mark .closeBrace) :: after))) :
    parseMember (count + 1) (Written.lexeme (.text key) :: Written.lexeme (.mark .colon) :: ls) =
      (.cons (quoted key) value .closed, some after) := by
  simp only [Written.lexeme, Written.token, Mark.token, parseMember, h]
  rfl

theorem parseMember_comma (key : List Letter) {count : Nat} {ls after : List Lexeme}
    (h : parseValue count ls = (value, some (Written.lexeme (.mark .comma) :: after))) :
    parseMember (count + 1) (Written.lexeme (.text key) :: Written.lexeme (.mark .colon) :: ls) =
      (.cons (quoted key) value (parseMember count after).1, (parseMember count after).2) := by
  simp only [Written.lexeme, Written.token, Mark.token, parseMember, h]
  rfl

theorem parseValue_openBrace (count : Nat) {t : Written} (ht : t.closes = false) (ls : List Lexeme) :
    parseValue (count + 1) (Written.lexeme (.mark .openBrace) :: t.lexeme :: ls) =
      (.object 0 (parseMember count (t.lexeme :: ls)).1, (parseMember count (t.lexeme :: ls)).2) := by
  cases t with
  | mark m => cases m <;> first | rfl | exact absurd ht Bool.true_eq_false.mp
  | _ => rfl

theorem Parses.member (h : Parses ts value) (key : List Letter) :
    ParsesMembers (.text key :: .mark .colon :: ts) (.cons (quoted key) value .closed) := by
  intro count after hcount
  simp only [List.length_cons] at hcount
  obtain ⟨count, rfl⟩ : ∃ n, count = n + 1 := ⟨count - 1, by omega⟩
  exact parseMember_last key (h count _ (by omega))

theorem Parses.member_cons (h : Parses ts value) (key : List Letter) (hrest : ParsesMembers rest members) :
    ParsesMembers (.text key :: .mark .colon :: (ts ++ .mark .comma :: rest))
      (.cons (quoted key) value members) := by
  intro count after hcount
  simp only [List.length_append, List.length_cons] at hcount
  obtain ⟨count, rfl⟩ : ∃ n, count = n + 1 := ⟨count - 1, by omega⟩
  have hvalue := h count (Written.lexeme (.mark .comma) ::
    (lexemes rest ++ Written.lexeme (.mark .closeBrace) :: after)) (by omega)
  have heq := parseMember_comma key hvalue
  simp only [lexemes_append, lexemes_cons, List.cons_append, List.append_assoc] at heq ⊢
  rw [heq, hrest count after (by omega)]

theorem ParsesMembers.object (h : ParsesMembers ts members) (hts : ts ≠ [])
    (hopens : ∀ t ∈ ts.head?, t.closes = false) :
    Parses (.mark .openBrace :: (ts ++ [.mark .closeBrace])) (.object 0 members) := by
  obtain ⟨t, ts, rfl⟩ := List.exists_cons_of_ne_nil hts
  intro count after hcount
  simp only [List.length_append, List.length_cons, List.length_nil] at hcount
  obtain ⟨count, rfl⟩ : ∃ n, count = n + 1 := ⟨count - 1, by omega⟩
  have hmembers := h count after (by simp only [List.length_cons]; omega)
  have heq := parseValue_openBrace count (hopens t rfl)
    (lexemes ts ++ Written.lexeme (.mark .closeBrace) :: after)
  simp only [lexemes_cons, lexemes_append, lexemes_nil, List.cons_append, List.append_assoc,
    List.nil_append] at hmembers ⊢
  rw [heq, hmembers]

end

/-! ### Texts -/

/-- What kind of value the tokens of a JSON text make. -/
def Value.IsFrom (ts : List Written) : Value → Prop
  | .null => ts = [.null]
  | .bool b => ts = [.bool b]
  | .number _ _ => ∃ n, ts = [.number n]
  | .text q => ∃ letters, ts = [.text letters] ∧ q = quoted letters
  | .array _ _ => ts.head? = some (.mark .openBracket)
  | .object _ _ => ts.head? = some (.mark .openBrace)
  | .broken _ => False

section

variable {ts : List Written} {value : Value}

theorem Value.IsFrom.eq_null_iff (h : value.IsFrom ts) : value = .null ↔ ts = [.null] := by
  constructor
  · rintro rfl
    exact h
  · rintro rfl
    cases value <;> simp [IsFrom] at h ⊢

theorem Value.IsFrom.eq_bool_iff {b : Bool} (h : value.IsFrom ts) : value = .bool b ↔ ts = [.bool b] := by
  constructor
  · rintro rfl
    exact h
  · rintro rfl
    cases value <;> simp_all [IsFrom]

end

/-- What the tokens of a part of a JSON text are parsed as. Nothing in it breaks off, so it is skipped
without a flaw. -/
def Part.Says : Part → List Written → Prop
  | .value, ts => ∃ value, Parses ts value ∧ skipValue value = .ok () ∧ value.IsFrom ts
  | .items, ts => ∃ items, ParsesItems ts items ∧ skipItems items = .ok ()
  | .members, ts => ∃ members, ParsesMembers ts members ∧ skipMembers members = .ok ()

theorem parses_of_single {t : Written} {value : Value}
    (h : ∀ count rest, parseValue (count + 1) (t.lexeme :: rest) = (value, some rest)) :
    Parses [t] value := by
  intro count rest hcount
  obtain ⟨count, rfl⟩ : ∃ n, count = n + 1 := ⟨count - 1, by simp at hcount; omega⟩
  exact h count rest

/-- The tokens of a JSON text make a value. By induction on how they make a text. -/
theorem Derives.says {part : Part} {ts : List Written} (h : Derives part ts) : part.Says ts := by
  induction h with
  | null => exact ⟨.null, parses_of_single fun _ _ => rfl, rfl, rfl⟩
  | bool b => exact ⟨.bool b, parses_of_single fun _ _ => rfl, rfl, rfl⟩
  | number n => exact ⟨.number 0 n.numeral, parses_of_single fun _ _ => rfl, rfl, n, rfl⟩
  | text letters => exact ⟨.text (quoted letters), parses_of_single fun _ _ => rfl, rfl, letters, rfl, rfl⟩
  | emptyArray =>
    refine ⟨.array 0 .closed, fun count rest hcount => ?_, rfl, rfl⟩
    obtain ⟨count, rfl⟩ : ∃ n, count = n + 1 := ⟨count - 1, by simp at hcount; omega⟩
    rfl
  | emptyObject =>
    refine ⟨.object 0 .closed, fun count rest hcount => ?_, rfl, rfl⟩
    obtain ⟨count, rfl⟩ : ∃ n, count = n + 1 := ⟨count - 1, by simp at hcount; omega⟩
    rfl
  | array hitems ih =>
    obtain ⟨items, hparses, hskip⟩ := ih
    have hcomposed := hitems.composed
    exact ⟨.array 0 items, hparses.array hcomposed.ne_nil hcomposed.head_opens, hskip, rfl⟩
  | object hmembers ih =>
    obtain ⟨members, hparses, hskip⟩ := ih
    have hcomposed := hmembers.composed
    exact ⟨.object 0 members, hparses.object hcomposed.ne_nil hcomposed.head_opens, hskip, rfl⟩
  | item hvalue ih =>
    obtain ⟨value, hparses, hskip, -⟩ := ih
    refine ⟨_, hparses.item hvalue.composed.ne_nil, ?_⟩
    rw [skipItems, hskip]
    rfl
  | items hvalue _ ih ihrest =>
    obtain ⟨value, hparses, hskip, -⟩ := ih
    obtain ⟨items, hrest, hskiprest⟩ := ihrest
    refine ⟨_, hparses.item_cons hvalue.composed.ne_nil hrest, ?_⟩
    rw [skipItems, hskip]
    exact hskiprest
  | member key _ ih =>
    obtain ⟨value, hparses, hskip, -⟩ := ih
    refine ⟨_, hparses.member key, ?_⟩
    rw [skipMembers, hskip]
    rfl
  | members key _ _ ih ihrest =>
    obtain ⟨value, hparses, hskip, -⟩ := ih
    obtain ⟨members, hrest, hskiprest⟩ := ihrest
    refine ⟨_, hparses.member_cons key hrest, ?_⟩
    rw [skipMembers, hskip]
    exact hskiprest

/-- A document of tokens that are parsed as a value holds the value and nothing else. -/
theorem Parses.ofTokens {ts : List Written} {value : Value} (h : Parses ts value) :
    Document.ofTokens (lexemes ts ++ [⟨0, .finish⟩]) = ⟨value, none⟩ := by
  have hparse := h (2 * (lexemes ts ++ [(⟨0, .finish⟩ : Lexeme)]).length + 1) [⟨0, .finish⟩] (by
    simp only [lexemes, List.length_append, List.length_map, List.length_singleton]
    omega)
  rw [Document.ofTokens, hparse]

end Misfit.Json
