import Misfit.Json.Schema

/-!
# Forgetting lines

The lines on which the tokens of a text stand reach nothing but the flaws that are named after them. So
a text can be parsed and read with its lines forgotten, and what is read is the same, up to the line in
a flaw.
-/
namespace Misfit.Json

/-! ### Tokens and trees without lines -/

/-- The flaw without the line it is on. -/
def Flaw.unplaced : Flaw → Flaw
  | ended => ended
  | malformed _ => malformed 0
  | unfit reason => unfit reason

def Break.unplaced (b : Break) : Break := ⟨b.read.unplaced, b.skipped.unplaced⟩

def Quoted.unplaced (q : Quoted) : Quoted := ⟨0, q.pieces, q.broken.map Break.unplaced⟩

def Token.unplaced : Token → Token
  | text q => text q.unplaced
  | broken b => broken b.unplaced
  | t => t

def Lexeme.unplaced (l : Lexeme) : Lexeme := ⟨0, l.token.unplaced⟩

mutual

def Value.unplaced : Value → Value
  | .null => .null
  | .bool b => .bool b
  | .number _ n => .number 0 n
  | .text q => .text q.unplaced
  | .array _ items => .array 0 items.unplaced
  | .object _ members => .object 0 members.unplaced
  | .broken b => .broken b.unplaced

def Items.unplaced : Items → Items
  | .closed => .closed
  | .broken flaw => .broken flaw.unplaced
  | .cons _ value rest => .cons 0 value.unplaced rest.unplaced

def Members.unplaced : Members → Members
  | .closed => .closed
  | .broken flaw => .broken flaw.unplaced
  | .cons key value rest => .cons key.unplaced value.unplaced rest.unplaced

end

def Document.unplaced (d : Document) : Document := ⟨d.value.unplaced, d.trailing.map Flaw.unplaced⟩

/-! ### Parsing -/

/-- What is parsed, without lines in it and in the tokens after it. -/
def Parsed.unplaced {α : Type} (forget : α → α) (r : Parsed α) : Parsed α :=
  (forget r.1, r.2.map (List.map Lexeme.unplaced))

@[simp] theorem Lexeme.unexpected_unplaced (l : Lexeme) :
    l.unplaced.unexpected = l.unexpected.unplaced := by
  obtain ⟨line, token⟩ := l
  cases token <;> rfl

@[simp] theorem unexpected_unplaced (ls : List Lexeme) :
    unexpected (ls.map Lexeme.unplaced) = (unexpected ls).unplaced := by
  cases ls with
  | nil => rfl
  | cons l ls => exact l.unexpected_unplaced

@[simp] theorem Break.both_unplaced (flaw : Flaw) :
    (Break.both flaw).unplaced = .both flaw.unplaced := rfl

section

variable {count : Nat}
  (hvalue : ∀ ls,
    parseValue count (ls.map Lexeme.unplaced) = (parseValue count ls).unplaced Value.unplaced)
  (hitem : ∀ ls,
    parseItem count (ls.map Lexeme.unplaced) = (parseItem count ls).unplaced Items.unplaced)
  (hmember : ∀ ls,
    parseMember count (ls.map Lexeme.unplaced) = (parseMember count ls).unplaced Members.unplaced)

include hitem hmember in
theorem parseValue_unplaced (ls : List Lexeme) : parseValue (count + 1) (ls.map Lexeme.unplaced) =
    (parseValue (count + 1) ls).unplaced Value.unplaced := by
  obtain - | ⟨⟨line, token⟩, rest⟩ := ls
  · rfl
  cases token with
  | openBracket =>
    have harray :=
      congrArg (fun r : Parsed Items => ((.array 0 r.1, r.2) : Parsed Value)) (hitem rest)
    obtain - | ⟨⟨line', token'⟩, after⟩ := rest
    · exact harray
    · cases token' with
      | closeBracket => rfl
      | _ => exact harray
  | openBrace =>
    have hobject :=
      congrArg (fun r : Parsed Members => ((.object 0 r.1, r.2) : Parsed Value)) (hmember rest)
    obtain - | ⟨⟨line', token'⟩, after⟩ := rest
    · exact hobject
    · cases token' with
      | closeBrace => rfl
      | _ => exact hobject
  | text q =>
    obtain ⟨line', pieces, broken⟩ := q
    cases broken <;> rfl
  | _ => rfl

include hvalue hitem in
theorem parseItem_unplaced (ls : List Lexeme) : parseItem (count + 1) (ls.map Lexeme.unplaced) =
    (parseItem (count + 1) ls).unplaced Items.unplaced := by
  obtain - | ⟨l, rest⟩ := ls
  · rfl
  have hhead := hvalue (l :: rest)
  simp only [List.map_cons] at hhead
  simp only [List.map_cons, parseItem, hhead]
  obtain ⟨value, - | - | ⟨⟨line, token⟩, after⟩⟩ := parseValue count (l :: rest)
  · rfl
  · rfl
  · cases token with
    | comma =>
      exact congrArg (fun r : Parsed Items => ((.cons 0 value.unplaced r.1, r.2) : Parsed Items))
        (hitem after)
    | _ => rfl

include hvalue hmember in
theorem parseMember_unplaced (ls : List Lexeme) : parseMember (count + 1) (ls.map Lexeme.unplaced) =
    (parseMember (count + 1) ls).unplaced Members.unplaced := by
  obtain - | ⟨⟨line, token⟩, rest⟩ := ls
  · rfl
  cases token with
  | text key =>
    obtain - | ⟨⟨line', token'⟩, after⟩ := rest
    · rfl
    cases token' with
    | colon =>
      have hhead := hvalue after
      simp only [List.map_cons, parseMember, Lexeme.unplaced, Token.unplaced, hhead]
      obtain ⟨value, - | - | ⟨⟨line'', token''⟩, after'⟩⟩ := parseValue count after
      · rfl
      · rfl
      · cases token'' with
        | comma =>
          exact congrArg
            (fun r : Parsed Members => ((.cons key.unplaced value.unplaced r.1, r.2) : Parsed Members))
            (hmember after')
        | _ => rfl
    | _ => rfl
  | _ => rfl

end

/-- Parsing takes the tokens as they are without their lines. By induction on the bound. -/
theorem parse_unplaced (count : Nat) :
    (∀ ls, parseValue count (ls.map Lexeme.unplaced) = (parseValue count ls).unplaced Value.unplaced) ∧
      (∀ ls, parseItem count (ls.map Lexeme.unplaced) = (parseItem count ls).unplaced Items.unplaced) ∧
      ∀ ls, parseMember count (ls.map Lexeme.unplaced) =
        (parseMember count ls).unplaced Members.unplaced := by
  induction count with
  | zero =>
    simp [parseValue, parseItem, parseMember, Parsed.unplaced, Value.unplaced, Items.unplaced,
      Members.unplaced]
  | succ count ih =>
    obtain ⟨hvalue, hitem, hmember⟩ := ih
    exact ⟨parseValue_unplaced hitem hmember, parseItem_unplaced hvalue hitem,
      parseMember_unplaced hvalue hmember⟩

theorem Document.ofTokens_unplaced (ls : List Lexeme) :
    ofTokens (ls.map Lexeme.unplaced) = (ofTokens ls).unplaced := by
  have hvalue := (parse_unplaced (2 * ls.length + 1)).1 ls
  simp only [ofTokens, List.length_map, hvalue]
  obtain ⟨value, - | - | ⟨⟨line, token⟩, after⟩⟩ := parseValue (2 * ls.length + 1) ls
  · rfl
  · rfl
  · cases token <;> rfl

/-! ### Reading -/

variable {α β ρ : Type}

/-- An answer without the line in its flaw. -/
def placeless (r : Except Flaw α) : Except Flaw α := r.mapError Flaw.unplaced

@[simp] theorem placeless_error (flaw : Flaw) :
    placeless (.error flaw : Except Flaw α) = .error flaw.unplaced := rfl

@[simp] theorem placeless_map (f : α → β) (r : Except Flaw α) :
    placeless (f <$> r) = f <$> placeless r := by
  cases r <;> rfl

@[simp] theorem placeless_bind (r : Except Flaw α) (f : α → Except Flaw β) :
    placeless (r >>= f) = placeless r >>= fun a => placeless (f a) := by
  cases r <;> rfl

@[simp] theorem placeless_discard (r : Except Flaw α) : placeless (discard r) = discard (placeless r) :=
  placeless_map _ r

theorem readPieces_unplaced (line : Nat) (broken : Option Break) (pieces : List Piece) :
    readPieces 0 (broken.map Break.unplaced) pieces = placeless (readPieces line broken pieces) := by
  fun_induction readPieces line broken pieces with
  | case1 h => subst h; rfl
  | case2 b h => subst h; rfl
  | case3 c rest ih => simp [readPieces, ih]
  | case4 n rest hlow => rw [readPieces.eq_def]; simp [hlow, Flaw.unplaced]
  | case5 n hlow hhigh m after hm ih => simp [readPieces, hlow, hhigh, hm, ih]
  | case6 n hlow hhigh m after hm => simp [readPieces, hlow, hhigh, hm, Flaw.unplaced]
  | case7 n hlow hhigh b h => subst h; simp [readPieces, hlow, hhigh, Break.unplaced]
  | case8 n rest hlow hhigh hrest hbroken =>
    rw [readPieces.eq_def]
    match rest, broken with
    | [], none => simp [hlow, hhigh, Flaw.unplaced]
    | [], some b => exact (hbroken b rfl rfl).elim
    | .char c :: after, broken => simp [hlow, hhigh, Flaw.unplaced]
    | .unit m :: after, broken => exact (hrest m after rfl).elim
  | case9 n rest hlow hhigh ih => rw [readPieces.eq_def]; simp [hlow, hhigh, ih]

@[simp] theorem Quoted.read_unplaced (q : Quoted) : q.unplaced.read = placeless q.read := by
  simp only [Quoted.read, placeless_map, ← readPieces_unplaced]
  rfl

@[simp] theorem Quoted.skip_unplaced (q : Quoted) : q.unplaced.skip = placeless q.skip := by
  obtain ⟨line, pieces, broken⟩ := q
  cases broken <;> rfl

@[simp] theorem readNumber_unplaced (line : Nat) (n : Numeral) :
    readNumber 0 n = placeless (readNumber line n) := by
  simp only [readNumber]
  split <;> rfl

mutual

theorem checkValue_unplaced (levels : Nat) (v : Value) :
    checkValue levels v.unplaced = placeless (checkValue levels v) := by
  cases v with
  | number line n => simp [checkValue, Value.unplaced, ← readNumber_unplaced line n]
  | text q => simp [checkValue, Value.unplaced]
  | array line items =>
    cases levels with
    | zero => rfl
    | succ levels => exact checkItems_unplaced levels items
  | object line members =>
    cases levels with
    | zero => rfl
    | succ levels => exact checkMembers_unplaced levels members
  | _ => rfl

theorem checkItems_unplaced (levels : Nat) (items : Items) :
    checkItems levels items.unplaced = placeless (checkItems levels items) := by
  cases items with
  | cons line value rest =>
    simp [checkItems, Items.unplaced, checkValue_unplaced levels value, checkItems_unplaced levels rest]
  | _ => rfl

theorem checkMembers_unplaced (levels : Nat) (members : Members) :
    checkMembers levels members.unplaced = placeless (checkMembers levels members) := by
  cases members with
  | cons key value rest =>
    simp [checkMembers, Members.unplaced, checkValue_unplaced levels value,
      checkMembers_unplaced levels rest]
  | _ => rfl

end

mutual

theorem skipValue_unplaced (v : Value) : skipValue v.unplaced = placeless (skipValue v) := by
  cases v with
  | text q => exact q.skip_unplaced
  | array line items => exact skipItems_unplaced items
  | object line members => exact skipMembers_unplaced members
  | _ => rfl

theorem skipItems_unplaced (items : Items) : skipItems items.unplaced = placeless (skipItems items) := by
  cases items with
  | cons line value rest =>
    simp [skipItems, Items.unplaced, skipValue_unplaced value, skipItems_unplaced rest]
  | _ => rfl

theorem skipMembers_unplaced (members : Members) :
    skipMembers members.unplaced = placeless (skipMembers members) := by
  cases members with
  | cons key value rest =>
    simp [skipMembers, Members.unplaced, skipValue_unplaced value, skipMembers_unplaced rest]
  | _ => rfl

end

theorem refuse_unplaced (v : Value) : (refuse v.unplaced : Except Flaw α) = placeless (refuse v) := by
  cases v with
  | number line n =>
    simp only [refuse, Value.unplaced, readNumber_unplaced line n, placeless_bind, placeless_discard,
      placeless_error]
    rfl
  | text q =>
    simp only [refuse, Value.unplaced, Quoted.read_unplaced, placeless_bind, placeless_discard,
      placeless_error]
    rfl
  | _ => rfl

/-- Reading a value without its lines gives the same answer, up to the line in a flaw. -/
def Reader.Placeless (read : Reader α) : Prop :=
  ∀ levels v, read levels v.unplaced = placeless (read levels v)

theorem readBool_placeless : Reader.Placeless readBool := by
  intro levels v
  have hrefuse : (refuse v.unplaced : Except Flaw Bool) = _ := refuse_unplaced v
  cases v with
  | bool b => rfl
  | _ => exact hrefuse

theorem readNat_placeless (bound : Nat) : Reader.Placeless (readNat bound) := by
  intro levels v
  have hrefuse : (refuse v.unplaced : Except Flaw Nat) = _ := refuse_unplaced v
  cases v with
  | number line n =>
    simp only [readNat, Value.unplaced, readNumber_unplaced line n, placeless_bind, placeless_discard]
    cases n.natBelow? bound <;> rfl
  | _ => exact hrefuse

theorem readString_placeless : Reader.Placeless readString := by
  intro levels v
  have hrefuse : (refuse v.unplaced : Except Flaw String) = _ := refuse_unplaced v
  cases v with
  | text q => exact q.read_unplaced
  | _ => exact hrefuse

theorem readBoolOrString_placeless : Reader.Placeless readBoolOrString := by
  intro levels v
  simp only [readBoolOrString, placeless_bind, checkValue_unplaced]
  refine bind_congr fun _ => ?_
  cases v with
  | text q => simp [Value.unplaced]
  | _ => rfl

theorem readRefined_placeless {read : Reader α} (h : read.Placeless) (refine : α → Except String β) :
    Reader.Placeless (readRefined read refine) := by
  intro levels v
  simp only [readRefined, placeless_bind, h levels v]
  exact bind_congr fun a => by cases refine a <;> rfl

theorem readOptional_placeless {read : Reader α} (h : read.Placeless) :
    Reader.Placeless (readOptional read) := by
  intro levels v
  cases v with
  | null => rfl
  | _ => exact (congrArg (some <$> ·) (h levels _)).trans (placeless_map some _).symm

theorem readItems_unplaced {read : Reader α} (h : read.Placeless) (levels : Nat) :
    ∀ items : Items, readItems read levels items.unplaced = placeless (readItems read levels items)
  | .closed => rfl
  | .broken flaw => rfl
  | .cons line value rest => by
    simp [readItems, Items.unplaced, h levels value, readItems_unplaced h levels rest]

theorem readList_placeless {read : Reader α} (h : read.Placeless) : Reader.Placeless (readList read) := by
  intro levels v
  have hrefuse : (refuse v.unplaced : Except Flaw (List α)) = _ := refuse_unplaced v
  cases v with
  | array line items =>
    cases levels with
    | zero => rfl
    | succ levels => exact readItems_unplaced h levels items
  | _ => cases levels <;> exact hrefuse

/-- Entering a value without its lines in a field gives the same answer, up to the line in a flaw. -/
def RecordField.Placeless (field : RecordField ρ) : Prop :=
  ∀ levels v record, field.enter levels v.unplaced record = placeless (field.enter levels v record)

theorem RecordField.of_placeless {name : String} {read : Reader α} {set : α → ρ → ρ}
    (h : read.Placeless) : (RecordField.of name read set).Placeless := by
  intro levels v record
  exact (congrArg ((set · record) <$> ·) (h levels v)).trans (placeless_map _ _).symm

theorem readMembers_unplaced {fields : List (RecordField ρ)} (h : ∀ field ∈ fields, field.Placeless)
    (levels : Nat) (seen : List String) (record : ρ) : ∀ members : Members,
      readMembers fields levels seen record members.unplaced =
        placeless (readMembers fields levels seen record members)
  | .closed => rfl
  | .broken flaw => rfl
  | .cons key value rest => by
    simp only [readMembers, Members.unplaced, Quoted.read_unplaced, placeless_bind]
    refine bind_congr fun name => ?_
    cases hfield : fields.find? (·.name = name) with
    | none => simp [skipValue_unplaced value, readMembers_unplaced h levels seen record rest]
    | some field =>
      have hplaceless := h field (List.mem_of_find?_eq_some hfield) levels value record
      by_cases hseen : name ∈ seen
      · simp [hseen, unfit, Flaw.unplaced]
      · simp [hseen, hplaceless, readMembers_unplaced h levels (name :: seen) _ rest]

theorem readPositions_unplaced {fields : List (RecordField ρ)} (h : ∀ field ∈ fields, field.Placeless)
    (levels : Nat) (record : ρ) (items : Items) :
    readPositions levels fields record items.unplaced =
      placeless (readPositions levels fields record items) := by
  induction fields generalizing record items with
  | nil => cases items <;> rfl
  | cons field fields ih =>
    cases items with
    | cons line value rest =>
      have hplaceless := h field List.mem_cons_self levels value record
      have hrest := fun record => ih (fun f hf => h f (List.mem_cons_of_mem field hf)) record rest
      simp [readPositions, Items.unplaced, hplaceless, hrest]
    | _ => rfl

theorem readRecord_placeless {fields : List (RecordField ρ)} {initial : ρ}
    (h : ∀ field ∈ fields, field.Placeless) : Reader.Placeless (readRecord fields initial) := by
  intro levels v
  have hrefuse : (refuse v.unplaced : Except Flaw ρ) = _ := refuse_unplaced v
  cases levels with
  | zero =>
    cases v with
    | array line items => rfl
    | object line members => rfl
    | _ => exact hrefuse
  | succ levels =>
    cases v with
    | array line items => exact readPositions_unplaced h levels initial items
    | object line members => exact readMembers_unplaced h levels [] initial members
    | _ => exact hrefuse

mutual

/-- What a schema says is read without lines as it is with them. By induction on the schema. -/
theorem Schema.reader_placeless {α : Type} : ∀ s : Schema α, s.reader.Placeless
  | .bool => readBool_placeless
  | .string => readString_placeless
  | .natural bound => readNat_placeless bound
  | .list item => readList_placeless item.reader_placeless
  | .option value => readOptional_placeless value.reader_placeless
  | .boolOrString => readBoolOrString_placeless
  | .refined value refine => readRefined_placeless value.reader_placeless refine
  | .record fields _ => readRecord_placeless fields.readers_placeless

theorem Fields.readers_placeless {ρ : Type} :
    ∀ fields : Fields ρ, ∀ field ∈ fields.readers, field.Placeless
  | .none => by simp [Fields.readers]
  | .field _ value _ rest =>
    List.forall_mem_cons.mpr
      ⟨RecordField.of_placeless value.reader_placeless, rest.readers_placeless⟩

end

theorem Document.read_unplaced {read : Reader α} (h : read.Placeless) (d : Document) :
    d.unplaced.read read = placeless (d.read read) := by
  obtain ⟨value, trailing⟩ := d
  simp only [Document.read, Document.unplaced, h maxDepth value, placeless_bind]
  cases trailing <;> rfl

end Misfit.Json
