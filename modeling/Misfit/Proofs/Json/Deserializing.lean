import Misfit.Proofs.Json.Parsing

/-!
# What is relied on of a deserializer

A deserializer is known by what it reads of JSON texts: truth values and strings where the schema asks for
them, `null` where a value may be missing, and a record from an object that has a member for one of its
fields or for none. Nothing is said about the errors, nor about records of several members, which nothing
here asks for. The deserializer that goes by the readers of values keeps to all this.
-/
namespace Misfit.Json

variable {α β ρ ε : Type} {ts : List Written} {text : List Char} {value : Value}

/-! ### Laws -/

mutual

/-- How deep the lists and records of a schema are nested. -/
def Schema.depth : {α : Type} → Schema α → Nat
  | _, .list item => item.depth + 1
  | _, .option value => value.depth
  | _, .refined value _ => value.depth
  | _, .record fields _ => fields.depth + 1
  | _, .bool => 0
  | _, .string => 0
  | _, .natural _ => 0
  | _, .boolOrString => 0

def Fields.depth : {ρ : Type} → Fields ρ → Nat
  | _, .none => 0
  | _, .field _ value _ rest => max value.depth rest.depth

end

def Fields.names : {ρ : Type} → Fields ρ → List String
  | _, .none => []
  | _, .field name _ _ rest => name :: rest.names

/-- The first field of a name, what its value is read as, and how it is set. -/
inductive Fields.Has (name : String) (value : Schema α) (set : α → ρ → ρ) : Fields ρ → Prop
  | first (rest : Fields ρ) : Has name value set (.field name value set rest)
  | later {β : Type} {other : String} {value' : Schema β} {set' : β → ρ → ρ} {rest : Fields ρ}
    (hne : other ≠ name) (h : Has name value set rest) : Has name value set (.field other value' set' rest)

/-- The tokens of an object with a single member. -/
def loneMember (key : List Letter) (ts : List Written) : List Written :=
  .mark .openBrace :: ((.text key :: .mark .colon :: ts) ++ [.mark .closeBrace])

theorem derives_loneMember (key : List Letter) (h : Derives .value ts) :
    Derives .value (loneMember key ts) := .object (.member key h)

/-- Every text with the tokens is read as the value. -/
def Deserializer.Reads (d : Deserializer ε) (s : Schema α) (ts : List Written) (a : α) : Prop :=
  ∀ text, Spaced isSpace ts text → d.read s text = .ok a

/-- How JSON texts are read, by their tokens. What stands in an object is read as it is by itself, as long
as it is not to be nested too deep. -/
structure Deserializer.Laws (d : Deserializer ε) : Prop where
  /-- Blanks between tokens make no difference. -/
  blanks : ∀ {α : Type} {s : Schema α} {ts : List Written} {text : List Char} {a : α},
    Derives .value ts → Spaced isSpace ts text → d.read s text = .ok a → d.Reads s ts a
  /-- A truth value is written as one of the two words, and in no other way. -/
  bool : ∀ {ts : List Written} {b : Bool}, Derives .value ts → (d.Reads .bool ts b ↔ ts = [.bool b])
  /-- Nothing but a string literal is read as a string. -/
  string : ∀ {ts : List Written} {word : String}, Derives .value ts → d.Reads .string ts word →
    ∃ letters, ts = [.text letters]
  /-- Only `null` stands for a value that is missing. -/
  option : ∀ {α : Type} {s : Schema α} {ts : List Written} {a? : Option α}, Derives .value ts →
    (d.Reads (.option s) ts a? ↔
      (ts = [.null] ∧ a? = none) ∨ (ts ≠ [.null] ∧ ∃ a, d.Reads s ts a ∧ a? = some a))
  /-- A truth value or a string is read as by itself. -/
  boolOrString : ∀ {ts : List Written} {x : Bool ⊕ String}, Derives .value ts →
    (d.Reads .boolOrString ts x ↔
      (∃ b, d.Reads .bool ts b ∧ x = .inl b) ∨ ∃ word, d.Reads .string ts word ∧ x = .inr word)
  /-- What is made into another value is read first. -/
  refined : ∀ {α β : Type} {s : Schema α} {refine : α → Except String β} {ts : List Written} {b : β},
    Derives .value ts → (d.Reads (.refined s refine) ts b ↔ ∃ a, d.Reads s ts a ∧ refine a = .ok b)
  /-- The only member sets its field, and the other fields stay as they are. -/
  field : ∀ {α ρ : Type} {fields : Fields ρ} {initial r : ρ} {name : String} {s : Schema α}
    {set : α → ρ → ρ} {key : List Letter} {ts : List Written}, Derives .value ts →
    d.Reads .string [.text key] name → fields.Has name s set → s.depth < maxDepth →
    (d.Reads (.record fields initial) (loneMember key ts) r ↔ ∃ a, d.Reads s ts a ∧ r = set a initial)
  /-- A member that is for no field is passed over. -/
  otherMember : ∀ {ρ : Type} {fields : Fields ρ} {initial : ρ} {name : String} {key : List Letter}
    {ts : List Written}, Derives .value ts → d.Reads .string [.text key] name → name ∉ fields.names →
    d.Reads (.record fields initial) (loneMember key ts) initial

/-- What is read of one text is what is read of its tokens. -/
theorem Deserializer.Laws.read_iff {d : Deserializer ε} (hd : d.Laws) {s : Schema α} {a : α}
    (hts : Derives .value ts) (h : Spaced isSpace ts text) :
    d.read s text = .ok a ↔ d.Reads s ts a :=
  ⟨hd.blanks hts h, fun hreads => hreads text h⟩

/-- Tokens are read as one thing at most. -/
theorem Deserializer.Reads.unique {d : Deserializer ε} {s : Schema α} {a a' : α} (h : d.Reads s ts a)
    (h' : d.Reads s ts a') : a = a' :=
  Except.ok.inj ((h _ (.bare ts)).symm.trans (h' _ (.bare ts)))

/-! ### When a reader gives a result -/

theorem bind_eq_ok_iff {r : Except Flaw α} {f : α → Except Flaw β} {b : β} :
    (r >>= f) = .ok b ↔ ∃ a, r = .ok a ∧ f a = .ok b := by
  cases r <;> simp [bind, Except.bind]

theorem map_eq_ok_iff {r : Except Flaw α} {f : α → β} {b : β} :
    (f <$> r) = .ok b ↔ ∃ a, r = .ok a ∧ f a = b := by
  cases r <;> simp [Functor.map, Except.map]

theorem refuse_ne_ok (value : Value) (a : α) : refuse value ≠ .ok a := by
  intro h
  cases value with
  | number line n =>
    obtain ⟨-, -, hunfit⟩ := bind_eq_ok_iff.mp h
    cases hunfit
  | text q =>
    obtain ⟨-, -, hunfit⟩ := bind_eq_ok_iff.mp h
    cases hunfit
  | _ => cases h

section

variable {levels : Nat} {read : Reader α}

theorem readBool_eq_ok_iff {b : Bool} : readBool levels value = .ok b ↔ value = .bool b := by
  have hrefuse := refuse_ne_ok value b
  cases value with
  | bool b' => simp [readBool]
  | _ => exact ⟨fun h => (hrefuse h).elim, fun h => by cases h⟩

theorem readString_eq_ok_iff {word : String} :
    readString levels value = .ok word ↔ ∃ q, value = .text q ∧ q.read = .ok word := by
  have hrefuse := refuse_ne_ok value word
  cases value with
  | text q => simp [readString]
  | _ => exact ⟨fun h => (hrefuse h).elim, by simp⟩

theorem readOptional_eq_ok_iff {a? : Option α} :
    readOptional read levels value = .ok a? ↔
      (value = .null ∧ a? = none) ∨ (value ≠ .null ∧ ∃ a, read levels value = .ok a ∧ a? = some a) := by
  cases value with
  | null => simp [readOptional, eq_comm]
  | _ => simp [readOptional, map_eq_ok_iff, @eq_comm _ a?]

/-- What is nested too deep is neither a truth value nor a string. -/
theorem readBoolOrString_eq_ok_iff {x : Bool ⊕ String} :
    readBoolOrString levels value = .ok x ↔
      (∃ b, readBool levels value = .ok b ∧ x = .inl b) ∨
        ∃ word, readString levels value = .ok word ∧ x = .inr word := by
  simp only [readBool_eq_ok_iff, readString_eq_ok_iff, readBoolOrString, bind_eq_ok_iff]
  cases value with
  | bool b => simp [checkValue, pure, Except.pure, @eq_comm _ x]
  | text q =>
    cases hq : q.read with
    | error flaw => simp [checkValue, hq]
    | ok word => simp [checkValue, hq, @eq_comm _ x]
  | _ => simp

theorem readRefined_eq_ok_iff {refine : α → Except String β} {b : β} :
    readRefined read refine levels value = .ok b ↔ ∃ a, read levels value = .ok a ∧ refine a = .ok b := by
  rw [readRefined, bind_eq_ok_iff]
  refine exists_congr fun a => and_congr_right fun _ => ?_
  cases refine a <;> simp

end

/-! ### How deep a reader looks -/

/-- What is read with some levels of brackets to spare is read with any number of them that is not below
`n`. -/
def Reader.Within (n : Nat) (read : Reader α) : Prop :=
  ∀ levels levels' value a, n ≤ levels → n ≤ levels' →
    read levels value = .ok a → read levels' value = .ok a

def RecordField.Within (n : Nat) (field : RecordField ρ) : Prop :=
  ∀ levels levels' value r r', n ≤ levels → n ≤ levels' →
    field.enter levels value r = .ok r' → field.enter levels' value r = .ok r'

theorem readBool_within : Reader.Within 0 readBool := by
  intro levels levels' value b _ _ h
  rw [readBool_eq_ok_iff] at h ⊢
  exact h

theorem readString_within : Reader.Within 0 readString := by
  intro levels levels' value word _ _ h
  rw [readString_eq_ok_iff] at h ⊢
  exact h

theorem readNat_within (bound : Nat) : Reader.Within 0 (readNat bound) := by
  intro levels levels' value n _ _ h
  cases value <;> exact h

theorem readBoolOrString_within : Reader.Within 0 readBoolOrString := by
  intro levels levels' value x _ _ h
  simp only [readBoolOrString_eq_ok_iff, readBool_eq_ok_iff, readString_eq_ok_iff] at h ⊢
  exact h

theorem readRefined_within {n : Nat} {read : Reader α} (hread : read.Within n)
    (refine : α → Except String β) : Reader.Within n (readRefined read refine) := by
  intro levels levels' value b hn hn' h
  obtain ⟨a, ha, hrefined⟩ := readRefined_eq_ok_iff.mp h
  exact readRefined_eq_ok_iff.mpr ⟨a, hread _ _ _ _ hn hn' ha, hrefined⟩

theorem readOptional_within {n : Nat} {read : Reader α} (hread : read.Within n) :
    Reader.Within n (readOptional read) := by
  intro levels levels' value a? hn hn' h
  rw [readOptional_eq_ok_iff] at h ⊢
  obtain hnull | ⟨hvalue, a, ha, hsome⟩ := h
  · exact .inl hnull
  · exact .inr ⟨hvalue, a, hread _ _ _ _ hn hn' ha, hsome⟩

/-- By induction on the items. -/
theorem readItems_within {n levels levels' : Nat} {read : Reader α} (hread : read.Within n)
    (hn : n ≤ levels) (hn' : n ≤ levels') : ∀ {items : Items} {as : List α},
      readItems read levels items = .ok as → readItems read levels' items = .ok as
  | .closed, _, h => h
  | .broken _, _, h => by cases h
  | .cons _ _ _, _, h => by
    obtain ⟨head, hhead, hrest⟩ := bind_eq_ok_iff.mp h
    obtain ⟨tail, htail, hall⟩ := bind_eq_ok_iff.mp hrest
    exact bind_eq_ok_iff.mpr ⟨head, hread _ _ _ _ hn hn' hhead,
      bind_eq_ok_iff.mpr ⟨tail, readItems_within hread hn hn' htail, hall⟩⟩

theorem readList_within {n : Nat} {read : Reader α} (hread : read.Within n) :
    Reader.Within (n + 1) (readList read) := by
  intro levels levels' value as hn hn' h
  obtain ⟨levels, rfl⟩ := Nat.exists_eq_add_of_le' (Nat.le_trans (Nat.le_add_left 1 n) hn)
  obtain ⟨levels', rfl⟩ := Nat.exists_eq_add_of_le' (Nat.le_trans (Nat.le_add_left 1 n) hn')
  cases value with
  | array line items =>
    exact readItems_within hread (Nat.le_of_succ_le_succ hn) (Nat.le_of_succ_le_succ hn') h
  | _ => exact h

theorem RecordField.of_within {n : Nat} {read : Reader α} (hread : read.Within n) (name : String)
    (set : α → ρ → ρ) : (RecordField.of name read set).Within n := by
  intro levels levels' value r r' hn hn' h
  obtain ⟨a, ha, hset⟩ := map_eq_ok_iff.mp h
  exact map_eq_ok_iff.mpr ⟨a, hread _ _ _ _ hn hn' ha, hset⟩

/-- By induction on the members. What is skipped may be nested to any depth. -/
theorem readMembers_within {n levels levels' : Nat} {fields : List (RecordField ρ)}
    (hfields : ∀ field ∈ fields, field.Within n) (hn : n ≤ levels) (hn' : n ≤ levels') :
    ∀ {members : Members} {seen : List String} {r r' : ρ},
      readMembers fields levels seen r members = .ok r' →
        readMembers fields levels' seen r members = .ok r'
  | .closed, _, _, _, h => h
  | .broken _, _, _, _, h => by cases h
  | .cons key value rest, seen, r, r', h => by
    rw [readMembers] at h ⊢
    obtain ⟨name, hname, h⟩ := bind_eq_ok_iff.mp h
    refine bind_eq_ok_iff.mpr ⟨name, hname, ?_⟩
    cases hfound : fields.find? (·.name = name) with
    | none =>
      simp only [hfound] at h ⊢
      obtain ⟨_, hskip, h⟩ := bind_eq_ok_iff.mp h
      exact bind_eq_ok_iff.mpr ⟨_, hskip, readMembers_within hfields hn hn' h⟩
    | some field =>
      simp only [hfound] at h ⊢
      split at h
      · cases h
      · rename_i hnew
        obtain ⟨record, henter, h⟩ := bind_eq_ok_iff.mp h
        have hfield := hfields field (List.mem_of_find?_eq_some hfound)
        rw [if_neg hnew]
        exact bind_eq_ok_iff.mpr ⟨record, hfield _ _ _ _ _ hn hn' henter,
          readMembers_within hfields hn hn' h⟩

/-- By induction on the fields. -/
theorem readPositions_within {n levels levels' : Nat} {fields : List (RecordField ρ)}
    (hfields : ∀ field ∈ fields, field.Within n) (hn : n ≤ levels) (hn' : n ≤ levels') {r r' : ρ}
    {items : Items} (h : readPositions levels fields r items = .ok r') :
    readPositions levels' fields r items = .ok r' := by
  induction fields generalizing r items with
  | nil => cases items <;> exact h
  | cons field fields ih =>
    cases items with
    | cons line value rest =>
      obtain ⟨hfield, hfields⟩ := List.forall_mem_cons.mp hfields
      obtain ⟨record, henter, h⟩ := bind_eq_ok_iff.mp h
      exact bind_eq_ok_iff.mpr ⟨record, hfield _ _ _ _ _ hn hn' henter, ih hfields h⟩
    | _ => exact h

theorem readRecord_within {n : Nat} {fields : List (RecordField ρ)}
    (hfields : ∀ field ∈ fields, field.Within n) (initial : ρ) :
    Reader.Within (n + 1) (readRecord fields initial) := by
  intro levels levels' value r hn hn' h
  obtain ⟨levels, rfl⟩ := Nat.exists_eq_add_of_le' (Nat.le_trans (Nat.le_add_left 1 n) hn)
  obtain ⟨levels', rfl⟩ := Nat.exists_eq_add_of_le' (Nat.le_trans (Nat.le_add_left 1 n) hn')
  have hle := Nat.le_of_succ_le_succ hn
  have hle' := Nat.le_of_succ_le_succ hn'
  cases value with
  | array line items => exact readPositions_within hfields hle hle' h
  | object line members => exact readMembers_within hfields hle hle' h
  | _ => exact h

theorem RecordField.Within.mono {n m : Nat} {field : RecordField ρ} (h : field.Within n) (hle : n ≤ m) :
    field.Within m :=
  fun _ _ _ _ _ hm hm' => h _ _ _ _ _ (hle.trans hm) (hle.trans hm')

mutual

/-- A schema needs as many levels as it is deep. By induction on the schema. -/
theorem Schema.reader_within {α : Type} : ∀ s : Schema α, s.reader.Within s.depth
  | .bool => readBool_within
  | .string => readString_within
  | .natural bound => readNat_within bound
  | .list item => readList_within item.reader_within
  | .option value => readOptional_within value.reader_within
  | .boolOrString => readBoolOrString_within
  | .refined value refine => readRefined_within value.reader_within refine
  | .record fields initial => readRecord_within fields.readers_within initial

theorem Fields.readers_within {ρ : Type} :
    ∀ fields : Fields ρ, ∀ field ∈ fields.readers, field.Within fields.depth
  | .none => by simp [Fields.readers]
  | .field name value set rest =>
    List.forall_mem_cons.mpr
      ⟨(RecordField.of_within value.reader_within name set).mono (Nat.le_max_left _ _),
        fun field hfield => (rest.readers_within field hfield).mono (Nat.le_max_right _ _)⟩

end

/-! ### Objects with a single member -/

/-- The object that the tokens of a single member make. -/
def loneValue (key : List Letter) (value : Value) : Value := .object 0 (.cons (quoted key) value .closed)

theorem Parses.loneMember (h : Parses ts value) (key : List Letter) :
    Parses (loneMember key ts) (loneValue key value) :=
  (h.member key).object (List.cons_ne_nil _ _) (fun t ht => by
    obtain rfl : _ = t := Option.some.inj ht
    rfl)

section

variable {fields : List (RecordField ρ)} {initial : ρ} {levels : Nat} {key : List Letter} {name : String}

/-- A single member that the record has no field for is skipped. -/
theorem readRecord_skips (hkey : (quoted key).read = .ok name)
    (hname : fields.find? (·.name = name) = none) (hvalue : skipValue value = .ok ()) :
    readRecord fields initial (levels + 1) (loneValue key value) = .ok initial := by
  rw [loneValue, readRecord, readMembers, hkey]
  simp only [bind, Except.bind, hname, hvalue, readMembers]

/-- A single member that the record has a field for is read and set. -/
theorem readRecord_sets {read : Reader α} {set : α → ρ → ρ} (hkey : (quoted key).read = .ok name)
    (hname : fields.find? (·.name = name) = some (.of name read set)) :
    readRecord fields initial (levels + 1) (loneValue key value) =
      (set · initial) <$> read levels value := by
  rw [loneValue, readRecord, readMembers, hkey]
  simp only [bind, Except.bind, hname, if_neg List.not_mem_nil, readMembers, RecordField.of]
  cases read levels value <;> rfl

end

theorem Fields.Has.find?_readers {fields : Fields ρ} {name : String} {s : Schema α} {set : α → ρ → ρ}
    (h : fields.Has name s set) : fields.readers.find? (·.name = name) = some (.of name s.reader set) := by
  induction h with
  | first rest => simp [Fields.readers, RecordField.of]
  | later hne _ ih => simpa [Fields.readers, RecordField.of, hne] using ih

theorem Fields.find?_readers_eq_none {name : String} :
    ∀ fields : Fields ρ, name ∉ fields.names → fields.readers.find? (·.name = name) = Option.none
  | .none, _ => by simp [Fields.readers]
  | .field other value set rest, h => by
    obtain ⟨hne, hrest⟩ := List.ne_and_not_mem_of_not_mem_cons h
    simpa [Fields.readers, RecordField.of, hne.symm] using rest.find?_readers_eq_none hrest

/-! ### The deserializer that goes by readers -/

theorem placeless_eq_ok_iff {r : Except Flaw α} {a : α} : placeless r = .ok a ↔ r = .ok a := by
  cases r <;> simp [placeless, Except.mapError]

/-- A document with nothing after its value is read as the value. -/
theorem read_document (read : Reader α) (value : Value) :
    Document.read read ⟨value, none⟩ = read maxDepth value := by
  rw [Document.read]
  cases read maxDepth value <;> rfl

section

variable {s : Schema α} {a : α} (hts : Derives .value ts) (hvalue : Parses ts value)
include hts hvalue

theorem deserializer_read_iff (h : Spaced isSpace ts text) :
    deserializer.read s text = .ok a ↔ s.reader maxDepth value = .ok a := by
  have hdocument : (Document.ofText text).unplaced = ⟨value, none⟩ :=
    (h.ofText_unplaced hts).trans hvalue.ofTokens
  rw [← placeless_eq_ok_iff, deserializer_read_unplaced, hdocument, read_document]

theorem deserializer_reads_iff : deserializer.Reads s ts a ↔ s.reader maxDepth value = .ok a :=
  ⟨fun h => (deserializer_read_iff hts hvalue (.bare ts)).mp (h _ (.bare ts)),
    fun h _ htext => (deserializer_read_iff hts hvalue htext).mpr h⟩

end

/-- The key of a member is read like any string literal. -/
theorem deserializer_reads_key_iff {key : List Letter} {name : String} :
    deserializer.Reads .string [.text key] name ↔ (quoted key).read = .ok name :=
  have hparses : Parses [.text key] (.text (quoted key)) := parses_of_single fun _ _ => rfl
  deserializer_reads_iff (.text key) hparses

theorem deserializer_laws : deserializer.Laws where
  blanks hts htext h := by
    obtain ⟨value, hparses, -, -⟩ := hts.says
    exact (deserializer_reads_iff hts hparses).mpr ((deserializer_read_iff hts hparses htext).mp h)
  bool hts := by
    obtain ⟨value, hparses, -, hfrom⟩ := hts.says
    rw [deserializer_reads_iff hts hparses, Schema.reader, readBool_eq_ok_iff, hfrom.eq_bool_iff]
  string hts h := by
    obtain ⟨value, hparses, -, hfrom⟩ := hts.says
    obtain ⟨q, rfl, -⟩ := readString_eq_ok_iff.mp ((deserializer_reads_iff hts hparses).mp h)
    obtain ⟨letters, heq, -⟩ := hfrom
    exact ⟨letters, heq⟩
  option hts := by
    obtain ⟨value, hparses, -, hfrom⟩ := hts.says
    simp only [deserializer_reads_iff hts hparses, Schema.reader, readOptional_eq_ok_iff, Ne,
      hfrom.eq_null_iff]
  boolOrString hts := by
    obtain ⟨value, hparses, -, -⟩ := hts.says
    simp only [deserializer_reads_iff hts hparses, Schema.reader, readBoolOrString_eq_ok_iff]
  refined hts := by
    obtain ⟨value, hparses, -, -⟩ := hts.says
    simp only [deserializer_reads_iff hts hparses, Schema.reader, readRefined_eq_ok_iff]
  field {_ _ _ _ r _ s _ key _} hts hkey hhas hdepth := by
    obtain ⟨value, hparses, -, -⟩ := hts.says
    -- a level of brackets goes to the object, and what the member is read as can spare it
    have hlevel (a) : s.reader 126 value = .ok a ↔ s.reader maxDepth value = .ok a :=
      have hle : s.depth ≤ 126 := Nat.le_of_lt_succ hdepth
      ⟨s.reader_within _ _ _ _ hle hdepth.le, s.reader_within _ _ _ _ hdepth.le hle⟩
    rw [deserializer_reads_iff (derives_loneMember key hts) (hparses.loneMember key), Schema.reader,
      maxDepth, readRecord_sets (deserializer_reads_key_iff.mp hkey) hhas.find?_readers, map_eq_ok_iff]
    simp only [deserializer_reads_iff hts hparses, hlevel, @eq_comm _ r]
  otherMember hts hkey hname := by
    obtain ⟨value, hparses, hskip, -⟩ := hts.says
    exact (deserializer_reads_iff (derives_loneMember _ hts) (hparses.loneMember _)).mpr
      (readRecord_skips (deserializer_reads_key_iff.mp hkey) (Fields.find?_readers_eq_none _ hname) hskip)

end Misfit.Json
