import Misfit.Proofs.Json.Deserializing
import Misfit.Proofs.Options.Renderings

/-!
# A setting lifted out of its section

The section of a project configuration and the top level of an options file both have a place for
`strictFunctionTypes`. What may stand in the section may stand at the top level and sets the same options
there. The top level also takes words for truth values, which the section does not. All this holds of any
deserializer that keeps to the laws.
-/
namespace Misfit.Options

open Json

variable {ε : Type} {d : Deserializer ε} {ts : List Written} {name key : List Letter} {text : String}
  {o : Options} {setting : Option Bool}

/-! ### Truth values -/

theorem settle_word_eq_ok_iff {word : String} :
    settle (some (.inr word)) = .ok setting ↔ ∃ b, truth? word = some b ∧ setting = some b := by
  cases htruth : truth? word <;> simp [settle, htruth, eq_comm]

section

variable (hd : d.Laws)
include hd

/-- The top level takes what the section takes, and words for truth values. -/
theorem reads_settle_iff (hts : Derives .value ts) :
    d.Reads (.refined (.option .boolOrString) settle) ts setting ↔
      d.Reads (.option .bool) ts setting ∨
        ∃ word b, d.Reads .string ts word ∧ truth? word = some b ∧ setting = some b := by
  simp only [hd.refined hts, hd.option hts, hd.boolOrString hts]
  constructor
  · rintro ⟨x?, ⟨hnull, rfl⟩ | ⟨hne, x, ⟨b, hb, rfl⟩ | ⟨word, hword, rfl⟩, rfl⟩, hsettle⟩
    · obtain rfl : none = setting := Except.ok.inj hsettle
      exact .inl (.inl ⟨hnull, rfl⟩)
    · obtain rfl : some b = setting := Except.ok.inj hsettle
      exact .inl (.inr ⟨hne, b, hb, rfl⟩)
    · obtain ⟨b, htruth, rfl⟩ := settle_word_eq_ok_iff.mp hsettle
      exact .inr ⟨word, b, hword, htruth, rfl⟩
  · rintro ((⟨hnull, rfl⟩ | ⟨hne, b, hb, rfl⟩) | ⟨word, b, hword, htruth, rfl⟩)
    · exact ⟨none, .inl ⟨hnull, rfl⟩, rfl⟩
    · exact ⟨some (.inl b), .inr ⟨hne, .inl b, .inl ⟨b, hb, rfl⟩, rfl⟩, rfl⟩
    · obtain ⟨letters, rfl⟩ := hd.string hts hword
      exact ⟨some (.inr word), .inr ⟨by simp, .inr word, .inr ⟨word, hword, rfl⟩, rfl⟩,
        settle_word_eq_ok_iff.mpr ⟨b, htruth, rfl⟩⟩

/-- The section takes `null` and truth values. -/
theorem reads_option_bool_iff (hts : Derives .value ts) :
    d.Reads (.option .bool) ts setting ↔
      (ts = [.null] ∧ setting = none) ∨ ∃ b, ts = [.bool b] ∧ setting = some b := by
  simp only [hd.option hts, hd.bool hts]
  refine or_congr_right ⟨fun h => h.2, fun ⟨b, hb, hsetting⟩ => ⟨?_, b, hb, hsetting⟩⟩
  simp [hb]

/-! ### The two places -/

/-- Options are read from a rendering of a JSON text as from its tokens. The text is read as a project
configuration if the options leave the setting open. -/
theorem parse_eq_ok_iff (hts : Derives .value ts) (h : Renders isSpace ts text.toList) :
    parse d text = .ok o ↔ ∃ first, d.Reads schema ts first ∧
      ((first.strictFunctionTypes.isSome ∧ o = first) ∨
        (first.strictFunctionTypes = none ∧ ∃ p, d.Reads Project.schema ts p ∧
          o = { first with strictFunctionTypes := p.strictness })) := by
  have hspaced : Spaced isSpace ts (Relaxed.normalize text.toList) :=
    h.normalize isBlank_of_isSpace rfl hts
  simp only [← hd.read_iff hts hspaced, parse, ofProject]
  cases d.read schema (Relaxed.normalize text.toList) with
  | error flaw => simp
  | ok first =>
    cases hsetting : first.strictFunctionTypes with
    | some b => simp [hsetting, @eq_comm _ o]
    | none => cases d.read Project.schema (Relaxed.normalize text.toList) <;> simp [hsetting, @eq_comm _ o]

variable (hts : Derives .value ts) (hname : d.Reads .string [.text name] "strictFunctionTypes")
include hts hname

/-- At the top level, the setting is a truth value, a word for one or `null`. -/
theorem parse_topLevel (h : Renders isSpace (loneMember name ts) text.toList) :
    parse d text = .ok o ↔ ∃ setting, d.Reads (.refined (.option .boolOrString) settle) ts setting ∧
      o = { strictFunctionTypes := setting } := by
  have hfirst (first : Options) : d.Reads schema (loneMember name ts) first ↔
      ∃ setting, d.Reads (.refined (.option .boolOrString) settle) ts setting ∧
        first = { strictFunctionTypes := setting } :=
    hd.field hts hname (.first _) (by decide)
  have hproject : d.Reads Project.schema (loneMember name ts) {} :=
    hd.otherMember hts hname (by decide)
  rw [parse_eq_ok_iff hd (derives_loneMember name hts) h]
  constructor
  · rintro ⟨first, hread, hrest⟩
    obtain ⟨setting, hsetting, rfl⟩ := (hfirst first).mp hread
    obtain ⟨-, rfl⟩ | ⟨hnone, p, hp, rfl⟩ := hrest
    · exact ⟨setting, hsetting, rfl⟩
    · obtain rfl : {} = p := hproject.unique hp
      obtain rfl : setting = none := hnone
      exact ⟨none, hsetting, rfl⟩
  · rintro ⟨setting, hsetting, rfl⟩
    refine ⟨_, (hfirst _).mpr ⟨setting, hsetting, rfl⟩, ?_⟩
    cases setting with
    | some b => exact .inl ⟨rfl, rfl⟩
    | none => exact .inr ⟨rfl, {}, hproject, rfl⟩

/-- In the section, the setting is a truth value or `null`. -/
theorem parse_section (hkey : d.Reads .string [.text key] "compilerOptions")
    (h : Renders isSpace (loneMember key (loneMember name ts)) text.toList) :
    parse d text = .ok o ↔ ∃ setting, d.Reads (.option .bool) ts setting ∧
      o = { strictFunctionTypes := setting } := by
  have hlone : Derives .value (loneMember name ts) := derives_loneMember name hts
  have hfirst : d.Reads schema (loneMember key (loneMember name ts)) {} :=
    hd.otherMember hlone hkey (by decide)
  have hsection (s : CompilerSection) : d.Reads CompilerSection.schema (loneMember name ts) s ↔
      ∃ setting, d.Reads (.option .bool) ts setting ∧ s = { strictFunctionTypes := setting } :=
    hd.field hts hname (.first _) (by decide)
  have hproject (p : Project) : d.Reads Project.schema (loneMember key (loneMember name ts)) p ↔
      ∃ s?, d.Reads (.option CompilerSection.schema) (loneMember name ts) s? ∧
        p = { compilerOptions := s? } :=
    hd.field hlone hkey (.first _) (by decide)
  rw [parse_eq_ok_iff hd (derives_loneMember key hlone) h]
  constructor
  · rintro ⟨first, hread, hrest⟩
    obtain rfl : {} = first := hfirst.unique hread
    obtain ⟨hsome, -⟩ | ⟨-, p, hp, rfl⟩ := hrest
    · cases hsome
    · obtain ⟨s?, hoption, rfl⟩ := (hproject p).mp hp
      obtain ⟨hnull, -⟩ | ⟨-, s, hs, rfl⟩ := (hd.option hlone).mp hoption
      · simp [loneMember] at hnull
      · obtain ⟨setting, hsetting, rfl⟩ := (hsection s).mp hs
        exact ⟨setting, hsetting, by simp [Project.strictness, CompilerSection.strictness]⟩
  · rintro ⟨setting, hsetting, rfl⟩
    have hs := (hsection _).mpr ⟨setting, hsetting, rfl⟩
    have hp := (hproject _).mpr ⟨_, (hd.option hlone).mpr (.inr ⟨by simp [loneMember], _, hs, rfl⟩), rfl⟩
    exact ⟨{}, hfirst, .inr ⟨rfl, _, hp, by simp [Project.strictness, CompilerSection.strictness]⟩⟩

section

variable {lifted nested : String} (hkey : d.Reads .string [.text key] "compilerOptions")
  (hnested : Renders isSpace (loneMember key (loneMember name ts)) nested.toList)
include hkey hnested

theorem parse_section_iff :
    parse d nested = .ok o ↔
      (ts = [.null] ∧ o = {}) ∨ ∃ b, ts = [.bool b] ∧ o = { strictFunctionTypes := some b } := by
  rw [parse_section hd hts hname hkey hnested]
  simp only [reads_option_bool_iff hd hts]
  constructor
  · rintro ⟨setting, ⟨hnull, rfl⟩ | ⟨b, hb, rfl⟩, rfl⟩
    · exact .inl ⟨hnull, rfl⟩
    · exact .inr ⟨b, hb, rfl⟩
  · rintro (⟨hnull, rfl⟩ | ⟨b, hb, rfl⟩)
    · exact ⟨none, .inl ⟨hnull, rfl⟩, rfl⟩
    · exact ⟨some b, .inr ⟨b, hb, rfl⟩, rfl⟩

theorem parse_topLevel_iff (hlifted : Renders isSpace (loneMember name ts) lifted.toList) :
    parse d lifted = .ok o ↔ parse d nested = .ok o ∨ ∃ word b, d.Reads .string ts word ∧
      truth? word = some b ∧ o = { strictFunctionTypes := some b } := by
  rw [parse_topLevel hd hts hname hlifted, parse_section hd hts hname hkey hnested]
  simp only [reads_settle_iff hd hts]
  constructor
  · rintro ⟨setting, hbool | ⟨word, b, hword, htruth, rfl⟩, rfl⟩
    · exact .inl ⟨setting, hbool, rfl⟩
    · exact .inr ⟨word, b, hword, htruth, rfl⟩
  · rintro (⟨setting, hbool, rfl⟩ | ⟨word, b, hword, htruth, rfl⟩)
    · exact ⟨setting, .inl hbool, rfl⟩
    · exact ⟨some b, .inr ⟨word, b, hword, htruth, rfl⟩, rfl⟩

end

end

/-- A setting of `strictFunctionTypes` is lifted out of its section. Of an options file with nothing but
the section and the setting in it, and one with nothing but the setting at the top level, both are
accepted or neither is, and options are the same, unless the setting is a string literal; they are
accepted for `null` and for truth values. A string literal is never accepted in the section, and at the
top level it is when it says a word for a truth value. So what is accepted in the section sets the same
options at the top level. -/
theorem setting_lifted {lifted nested : String} (hd : d.Laws) (hts : Derives .value ts)
    (hname : d.Reads .string [.text name] "strictFunctionTypes")
    (hkey : d.Reads .string [.text key] "compilerOptions")
    (hlifted : Renders isSpace (loneMember name ts) lifted.toList)
    (hnested : Renders isSpace (loneMember key (loneMember name ts)) nested.toList) :
    ((∀ letters, ts ≠ [.text letters]) → ∀ o,
      (parse d nested = .ok o ↔ parse d lifted = .ok o) ∧
      (parse d lifted = .ok o ↔
        (ts = [.null] ∧ o = {}) ∨ ∃ b, ts = [.bool b] ∧ o = { strictFunctionTypes := some b })) ∧
    (∀ letters, ts = [.text letters] →
      (∀ o, parse d nested ≠ .ok o) ∧
      ∀ o, parse d lifted = .ok o ↔ ∃ word b, d.Reads .string [.text letters] word ∧
        truth? word = some b ∧ o = { strictFunctionTypes := some b }) ∧
    ∀ o, parse d nested = .ok o → parse d lifted = .ok o := by
  have hsection (o : Options) := parse_section_iff (o := o) hd hts hname hkey hnested
  have htop (o : Options) := parse_topLevel_iff (o := o) hd hts hname hkey hnested hlifted
  refine ⟨fun hletters o => ?_, ?_, fun o ho => (htop o).mpr (.inl ho)⟩
  · have hnoword (word : String) : ¬ d.Reads .string ts word := fun hword => by
      obtain ⟨letters, rfl⟩ := hd.string hts hword
      exact hletters letters rfl
    have halike : parse d lifted = .ok o ↔ parse d nested = .ok o := by
      simp only [htop, hnoword, false_and, exists_false, or_false]
    exact ⟨halike.symm, halike.trans (hsection o)⟩
  · rintro letters rfl
    have hrefused (o : Options) : parse d nested ≠ .ok o := by simp [hsection]
    exact ⟨hrefused, fun o => (htop o).trans (or_iff_right (hrefused o))⟩

/-- The setting at the top level. -/
def atTopLevel (ts : List Written) : List Written := loneMember (lettersOf "strictFunctionTypes") ts

/-- The setting in its section. -/
def inSection (ts : List Written) : List Written := loneMember (lettersOf "compilerOptions") (atTopLevel ts)

def switchedOff : String := "\x7b\"strictFunctionTypes\":false\x7d"

def switchedOffInSection : String := "\x7b\"compilerOptions\":\x7b\"strictFunctionTypes\":false\x7d\x7d"

theorem setting_lifted_switchedOff :
    deserializer.Laws ∧ Derives .value [.bool false] ∧
      deserializer.Reads .string [.text (lettersOf "strictFunctionTypes")] "strictFunctionTypes" ∧
      deserializer.Reads .string [.text (lettersOf "compilerOptions")] "compilerOptions" ∧
      Renders isSpace (atTopLevel [.bool false]) switchedOff.toList ∧
      Renders isSpace (inSection [.bool false]) switchedOffInSection.toList ∧
      (∀ o, ofConfig switchedOffInSection = .ok o ↔ ofConfig switchedOff = .ok o) ∧
      ofConfig switchedOff = .ok { strictFunctionTypes := some false } := by
  have hname : deserializer.Reads .string [.text (lettersOf "strictFunctionTypes")]
      "strictFunctionTypes" := deserializer_reads_key_iff.mpr (by decide +kernel)
  have hkey : deserializer.Reads .string [.text (lettersOf "compilerOptions")] "compilerOptions" :=
    deserializer_reads_key_iff.mpr (by decide +kernel)
  have hlifted : Renders isSpace (atTopLevel [.bool false]) switchedOff.toList :=
    .of_eq (by decide +kernel)
  have hnested : Renders isSpace (inSection [.bool false]) switchedOffInSection.toList :=
    .of_eq (by decide +kernel)
  obtain ⟨halike, -, -⟩ := setting_lifted deserializer_laws (.bool false) hname hkey hlifted hnested
  exact ⟨deserializer_laws, .bool false, hname, hkey, hlifted, hnested, fun o => (halike (fun _ => by simp) o).1,
    by decide +kernel⟩

def spelledOut : String := "\x7b\"strictFunctionTypes\":\"true\"\x7d"

def spelledOutInSection : String := "\x7b\"compilerOptions\":\x7b\"strictFunctionTypes\":\"true\"\x7d\x7d"

/-- A word for a truth value is accepted at the top level and refused in the section. -/
theorem spelledOut_not_lifted :
    Renders isSpace (atTopLevel [.text (lettersOf "true")]) spelledOut.toList ∧
      Renders isSpace (inSection [.text (lettersOf "true")]) spelledOutInSection.toList ∧
      ofConfig spelledOut = .ok { strictFunctionTypes := some true } ∧
      ofConfig spelledOutInSection = .error ⟨.compilerOptions, unfit⟩ := by
  refine ⟨.of_eq ?_, .of_eq ?_, ?_, ?_⟩ <;> decide +kernel

end Misfit.Options
