import Misfit.Options.Read
import Misfit.Proofs.Json.Lexing

/-!
# Options files with comments and trailing commas

However the tokens of a JSON text are written down, options read from the text are the same, up to the
line in an error. The line is that of a character of the text, so it moves with what stands before it.
-/
namespace Misfit

open Json

/-! ### Reading without lines -/

/-- The error without the line it is on. -/
def OptionsError.unplaced (e : OptionsError) : OptionsError := ⟨e.stage, e.flaw.unplaced⟩

/-- The deserializer with something else made of its errors. -/
def Json.Deserializer.mapError {ε ε' : Type} (d : Deserializer ε) (f : ε → ε') : Deserializer ε' where
  read s text := (d.read s text).mapError f

namespace Options

theorem ofProject_mapError {ε ε' : Type} (d : Deserializer ε) (f : ε → ε') (text : List Char) :
    ofProject (d.mapError f) text = (ofProject d text).mapError fun e => ⟨e.stage, f e.flaw⟩ := by
  simp only [ofProject, Deserializer.mapError]
  cases d.read schema text with
  | error flaw => rfl
  | ok o =>
    simp only [Except.mapError]
    cases o.strictFunctionTypes.isSome with
    | true => rfl
    | false => cases d.read Project.schema text <;> rfl

/-! ### Renderings -/

/-- Reading options takes no notice of blanks if no part of it does. -/
theorem ofProject_ignoresBlanks {ε : Type} {d : Deserializer ε}
    (h : ∀ {α : Type} (s : Schema α), IgnoresBlanks (d.read s)) : IgnoresBlanks (ofProject d) := by
  intro ts text text' hts htext htext'
  rw [ofProject, ofProject, h schema ts text text' hts htext htext',
    h Project.schema ts text text' hts htext htext']

/-- Comments and trailing commas are invisible. What is left of a rendering of a JSON text is its tokens
in their order and spelling, with nothing but blanks between them, whatever blanks it is written with. So
whatever reads such a text and takes no notice of blanks gives for the rendering what it gives for the
plain text. And options are read from the rendering as from the plain text, up to the line in an error. -/
theorem renderings_read_alike {ts : List Written} (hts : Derives .value ts) :
    (∀ p : Char → Bool, p '\n' → (∀ c, p c → Text.isBlank c) →
      ∀ text, Renders p ts text → Spaced p ts (Relaxed.normalize text)) ∧
    ∀ text plain : String, Renders isSpace ts text.toList → Spaced isSpace ts plain.toList →
      (∀ {α : Type} (f : List Char → α), IgnoresBlanks f →
        f (Relaxed.normalize text.toList) = f (Relaxed.normalize plain.toList)) ∧
      (ofConfig text).mapError OptionsError.unplaced =
        (ofConfig plain).mapError OptionsError.unplaced := by
  refine ⟨fun p hnewline hp text h => h.normalize hp hnewline hts, fun text plain h hplain => ?_⟩
  have hleft : Spaced isSpace ts (Relaxed.normalize text.toList) := h.normalize isBlank_of_isSpace rfl hts
  have hplain' : Spaced isSpace ts (Relaxed.normalize plain.toList) :=
    Renders.normalize isBlank_of_isSpace rfl hts (hplain.rendering none)
  refine ⟨fun f hf => hf ts _ _ hts hleft hplain', ?_⟩
  have hplaceless := ofProject_mapError deserializer Flaw.unplaced
  have halike : ofProject (deserializer.mapError Flaw.unplaced) (Relaxed.normalize text.toList) =
      ofProject (deserializer.mapError Flaw.unplaced) (Relaxed.normalize plain.toList) :=
    ofProject_ignoresBlanks deserializer_ignoresBlanks ts _ _ hts hleft hplain'
  rwa [hplaceless, hplaceless] at halike

/-- An object with signs of comments and of trailing commas in a key. -/
def noted : List Written :=
  [.mark .openBrace, .text [.plain '/', .plain '/', .short '"', .plain ',', .plain ']'], .mark .colon,
    .mark .openBracket, .number { whole := { first := ⟨7, by decide⟩ } }, .mark .closeBracket,
    .mark .comma,
    .text [.plain 'v', .plain 'e', .plain 'r', .plain 'b', .plain 'o', .plain 's', .plain 'e'],
    .mark .colon, .bool true, .mark .closeBrace]

theorem derives_noted : Derives .value noted :=
  .object (.members _ (.array (.item (.number _))) (.member _ (.bool true)))

def notedPlain : String := "\x7b\"//\\\",]\":[7],\"verbose\":true\x7d"

def notedText : String := "/*,\"*/\x7b\"//\\\",]\":[7/**/,/*]*/],//*:\n\"verbose\":true,\x7d"

theorem notedPlain_spaced : Spaced isSpace noted notedPlain.toList := by
  have hnil : Blanks isSpace [] := by simp [Blanks]
  exact .token hnil <| .token hnil <| .token hnil <| .token hnil <| .token hnil <| .token hnil <|
    .token hnil <| .token hnil <| .token hnil <| .token hnil <| .token hnil <| .finish hnil

theorem notedText_renders : Renders isSpace noted notedText.toList := by
  have hquote : Gap isSpace _ := @Gap.block _ [',', '"'] [] (by decide) .nil
  have hempty : Gap isSpace _ := @Gap.block _ [] [] (by decide) .nil
  have hbracket : Gap isSpace _ := @Gap.block _ [']'] [] (by decide) .nil
  have hline : Gap isSpace _ := @Gap.line _ ['*', ':'] [] (by decide) .nil
  exact .token hquote <| .token .nil <| .token .nil <| .token .nil <| .token .nil <|
    .comma hempty hbracket rfl rfl <| .token .nil <| .token hline <| .token .nil <| .token .nil <|
    .comma .nil .nil rfl rfl <| .finish .nil

theorem renderings_read_alike_noted :
    Derives .value noted ∧ Renders isSpace noted notedText.toList ∧
      Spaced isSpace noted notedPlain.toList ∧
      Spaced isSpace noted (Relaxed.normalize notedText.toList) ∧
      IgnoresBlanks (fun text => (Document.ofText text).unplaced) ∧
      (Document.ofText (Relaxed.normalize notedText.toList)).unplaced =
        (Document.ofText (Relaxed.normalize notedPlain.toList)).unplaced ∧
      (ofConfig notedText).mapError OptionsError.unplaced =
        (ofConfig notedPlain).mapError OptionsError.unplaced ∧
      ofConfig notedText = .ok { verbose := true } := by
  obtain ⟨hleft, halike⟩ := renderings_read_alike derives_noted
  obtain ⟨hreader, hoptions⟩ := halike notedText notedPlain notedText_renders notedPlain_spaced
  have hdocument := hreader _ ofText_ignoresBlanks
  exact ⟨derives_noted, notedText_renders, notedPlain_spaced,
    hleft isSpace rfl isBlank_of_isSpace _ notedText_renders, ofText_ignoresBlanks, hdocument, hoptions,
    by decide +kernel⟩

end Options

end Misfit
