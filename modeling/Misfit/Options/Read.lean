import Misfit.Json.Schema
import Misfit.Json.Relaxed
import Misfit.Options.Basic

/-!
# Reading options

Options are read from a JSON object by a deserializer. In an options file, which may hold comments and
trailing commas, a section `compilerOptions` as in a project configuration stands in for a setting of
`strictFunctionTypes` at the top level: `strictFunctionTypes` in that section, or else `strict`.
-/
namespace Misfit

/-- An ASCII capital becomes its small letter. -/
def lowerAscii (c : Char) : Char := if 'A' ≤ c ∧ c ≤ 'Z' then Char.ofNat (c.toNat + 32) else c

/-- A text as it is compared with a list of known words: trimmed and in small letters. Folding the ASCII
letters is enough where no known word has a `k` or an `i`, the only letters that other capitals fold
into. -/
def foldWord (text : String) : String :=
  String.ofList ((Text.trim text.toList).map lowerAscii)

namespace Options

open Json

/-- The truth value that a word spells. -/
def truth? (word : String) : Option Bool :=
  if foldWord word ∈ ["true", "1", "yes", "on"] then some true
  else if foldWord word ∈ ["false", "0", "no", "off"] then some false
  else none

/-- What is said about a word that spells no truth value. -/
def wrongTruth (word : String) : String :=
  "invalid boolean value: '" ++ word ++ "'. Expected true, false, 'true', or 'false'"

/-- What a truth value, a word for one or `null` sets. -/
def settle : Option (Bool ⊕ String) → Except String (Option Bool)
  | none => .ok none
  | some (.inl b) => .ok (some b)
  | some (.inr word) =>
    match truth? word with
    | some b => .ok (some b)
    | none => .error (wrongTruth word)

/-- Codes are 32-bit words. -/
def codeBound : Nat := Nat.pow 2 32

/-- What options are read as; what a text does not say has its default. -/
def schema : Schema Options :=
  .record
    (.field "strictFunctionTypes" (.refined (.option .boolOrString) settle)
        (fun b o => { o with strictFunctionTypes := b }) <|
      .field "verbose" .bool (fun b o => { o with verbose := b }) <|
      .field "ignoredCodes" (.list (.natural codeBound)) (fun codes o => { o with ignoredCodes := codes })
      .none)
    {}

/-- Options as a JSON text says them. -/
def ofJson (text : String) : Except Flaw Options := deserializer.read schema text.toList

end Options

/-- The settings of a project configuration that matter here. -/
structure CompilerSection where
  strictFunctionTypes : Option Bool := none
  strict : Option Bool := none
  deriving DecidableEq, Repr

namespace CompilerSection

open Json

/-- What the section is read as. -/
def schema : Schema CompilerSection :=
  .record
    (.field "strictFunctionTypes" (.option .bool) (fun b s => { s with strictFunctionTypes := b }) <|
      .field "strict" (.option .bool) (fun b s => { s with strict := b })
      .none)
    {}

/-- What the section says about checking function types strictly. -/
def strictness (s : CompilerSection) : Option Bool := s.strictFunctionTypes.or s.strict

end CompilerSection

/-- A project configuration. -/
structure Project where
  compilerOptions : Option CompilerSection := none
  deriving DecidableEq, Repr

namespace Project

open Json

/-- What a project configuration is read as. -/
def schema : Schema Project :=
  .record
    (.field "compilerOptions" (.option CompilerSection.schema) (fun s p => { p with compilerOptions := s })
      .none)
    {}

/-- What the configuration says about checking function types strictly. -/
def strictness (p : Project) : Option Bool := p.compilerOptions.bind CompilerSection.strictness

end Project

/-- What was being read when a flaw was met. -/
inductive Stage
  | options
  | compilerOptions
  deriving DecidableEq, Repr

/-- What a stage is called in an error. -/
def Stage.context : Stage → String
  | options => "failed to parse hound options"
  | compilerOptions => "failed to parse compilerOptions"

/-- Why options cannot be read. -/
structure OptionsError (ε : Type := Json.Flaw) where
  stage : Stage
  flaw : ε
  deriving DecidableEq, Repr

namespace Options

open Json

/-- Options as a JSON text says them, which may be that of a project configuration. -/
def ofProject {ε : Type} (d : Deserializer ε) (text : List Char) : Except (OptionsError ε) Options :=
  match d.read schema text with
  | .error flaw => .error ⟨.options, flaw⟩
  | .ok o =>
    if o.strictFunctionTypes.isSome then .ok o
    else match d.read Project.schema text with
      | .error flaw => .error ⟨.compilerOptions, flaw⟩
      | .ok p => .ok { o with strictFunctionTypes := p.strictness }

/-- Options as the text of an options file says them to a deserializer. -/
def parse {ε : Type} (d : Deserializer ε) (text : String) : Except (OptionsError ε) Options :=
  ofProject d (Relaxed.normalize text.toList)

/-- Options as the text of an options file says them. -/
def ofConfig (text : String) : Except OptionsError Options := parse deserializer text

end Options

/-- Why an options file cannot be used. -/
inductive LoadError
  /-- There is no such file. -/
  | notFound
  /-- The file does not hold UTF-8. -/
  | notText
  | invalid (error : OptionsError)
  deriving DecidableEq, Repr

namespace LoadError

/-- What was being done with the file when the error arose, the outermost task first. -/
def context (path : String) : LoadError → List String
  | notFound | notText => ["failed to read options: " ++ path]
  | invalid e => ["failed to load options: " ++ path, e.stage.context]

end LoadError

/-- Options as the contents of a file say them; `none` stands for a file that does not exist. -/
def Options.ofFile (contents : Option ByteArray) : Except LoadError Options :=
  match contents with
  | none => .error .notFound
  | some bytes => match String.fromUTF8? bytes with
    | none => .error .notText
    | some text => (Options.ofConfig text).mapError .invalid

end Misfit
