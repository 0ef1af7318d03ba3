import Misfit.Json.Relaxed
import Misfit.Proofs.Json.Written

/-!
# What is left of a rendering

Taking out comments and trailing commas turns a rendering of a JSON text into a spaced text of the same
tokens. Both passes follow string literals by the same rules, so what they have in common is said once:
outside of what it takes out, a pass copies.
-/
namespace Misfit

/-! ### The characters of tokens -/

namespace Json

/-- The characters that numbers are written with. -/
def decimalChars : List Char :=
  ['0', '1', '2', '3', '4', '5', '6', '7', '8', '9', '-', '+', '.', 'e', 'E']

theorem digitChar_mem (i : Fin 10) : Nat.digitChar i ∈ decimalChars := by
  revert i
  decide

theorem Digits.spelling_subset (d : Digits) : d.spelling ⊆ decimalChars := by
  intro c hc
  obtain ⟨i, -, rfl⟩ := List.mem_map.mp hc
  exact digitChar_mem i

theorem Exponent.spelling_subset (e : Exponent) : e.spelling ⊆ decimalChars := by
  refine List.cons_subset.mpr ⟨?_, List.append_subset.mpr ⟨?_, e.digits.spelling_subset⟩⟩
  · cases e.capital <;> decide
  · rcases e.sign with - | - | - <;> decide

theorem Decimal.scale_subset (n : Decimal) : n.scale ⊆ decimalChars := by
  rw [scale]
  cases n.exponent with
  | none => exact List.nil_subset _
  | some e => exact e.spelling_subset

theorem Decimal.tail_subset (n : Decimal) : n.tail ⊆ decimalChars := by
  refine List.append_subset.mpr ⟨?_, n.scale_subset⟩
  cases n.fraction with
  | none => exact List.nil_subset _
  | some d => exact List.cons_subset.mpr ⟨by decide, d.spelling_subset⟩

theorem Decimal.spelling_subset (n : Decimal) : n.spelling ⊆ decimalChars := by
  refine List.append_subset.mpr ⟨?_, List.append_subset.mpr ⟨n.whole.spelling_subset, n.tail_subset⟩⟩
  cases n.negative <;> decide

theorem Decimal.spelling_ne_nil (n : Decimal) : n.spelling ≠ [] := by
  simp [Decimal.spelling, Digits.spelling, Digits.toList]

theorem Hex.char_plain (h : Hex) : h.char ≠ '"' ∧ h.char ≠ '\\' := by
  obtain ⟨value, capital⟩ := h
  revert value capital
  decide

/-- The characters that tokens other than marks and string literals are written with. -/
def bareChars : List Char := decimalChars ++ ['n', 'u', 'l', 't', 'r', 'f', 'a', 's']

namespace Written

variable {t : Written} {c : Char}

theorem mem_spelling (ht : t.isText = false) (hc : c ∈ t.spelling) :
    (∃ m, t = .mark m ∧ c = m.char) ∨ c ∈ bareChars := by
  cases t with
  | mark m => exact .inl ⟨m, rfl, List.mem_singleton.mp hc⟩
  | null => exact .inr ((by decide : Written.null.spelling ⊆ bareChars) hc)
  | bool b =>
    have hwords : ∀ b, (Written.bool b).spelling ⊆ bareChars := by decide
    exact .inr (hwords b hc)
  | number n => exact .inr (List.mem_append_left _ (n.spelling_subset hc))
  | text letters => exact absurd ht Bool.noConfusion

/-- A character that neither marks nor other bare tokens are written with stands in string literals only. -/
theorem not_mem_spelling (ht : t.isText = false) (hc : c ∉ bareChars)
    (hmark : ∀ m, t = .mark m → c ≠ m.char) : c ∉ t.spelling := fun h =>
  (mem_spelling ht h).elim (fun ⟨m, hm, heq⟩ => hmark m hm heq) hc

theorem slash_not_mem_spelling (ht : t.isText = false) : '/' ∉ t.spelling :=
  not_mem_spelling ht (by decide) fun m _ => by cases m <;> decide

theorem quote_not_mem_spelling (ht : t.isText = false) : '"' ∉ t.spelling :=
  not_mem_spelling ht (by decide) fun m _ => by cases m <;> decide

theorem comma_not_mem_spelling (ht : t.isText = false) (hcomma : t ≠ .mark .comma) : ',' ∉ t.spelling :=
  not_mem_spelling ht (by decide) fun m hm => by
    cases m with
    | comma => exact absurd hm hcomma
    | _ => decide

end Written

end Json

namespace Relaxed

open Json

/-! ### Passes that copy -/

/-- A pass over a text that copies the characters of a class outside string literals and all characters
inside them. -/
structure Copies (pass : Quoting → List Char → List Char) (ok : Char → Bool) : Prop where
  outside : ∀ c rest, ok c → pass .outside (c :: rest) = c :: pass (Quoting.outside.next c) rest
  inside : ∀ escaped c rest,
    pass (.inside escaped) (c :: rest) = c :: pass ((Quoting.inside escaped).next c) rest

namespace Copies

variable {pass : Quoting → List Char → List Char} {ok : Char → Bool} {s rest : List Char} {t : Written}

theorem append (h : Copies pass ok) (hs : ∀ c ∈ s, ok c ∧ c ≠ '"') :
    pass .outside (s ++ rest) = s ++ pass .outside rest := by
  induction s with
  | nil => rfl
  | cons c s ih =>
    obtain ⟨hc, hquote⟩ := hs c List.mem_cons_self
    rw [List.cons_append, h.outside _ _ hc, Quoting.next, if_neg hquote,
      ih fun d hd => hs d (List.mem_cons_of_mem c hd), List.cons_append]

/-- A pass goes through a letter of a string literal and is not in an escape after it. -/
theorem letter (h : Copies pass ok) (l : Letter) :
    pass (.inside false) (l.spelling ++ rest) = l.spelling ++ pass (.inside false) rest := by
  cases l with
  | plain c printable quote backslash =>
    simp [Letter.spelling, h.inside, Quoting.next, quote, backslash]
  | short e known => simp [Letter.spelling, h.inside, Quoting.next]
  | unit h₁ h₂ h₃ h₄ =>
    simp [Letter.spelling, h.inside, Quoting.next, h₁.char_plain, h₂.char_plain, h₃.char_plain,
      h₄.char_plain]

theorem letters (h : Copies pass ok) (ls : List Letter) :
    pass (.inside false) (ls.flatMap Letter.spelling ++ rest) =
      ls.flatMap Letter.spelling ++ pass (.inside false) rest := by
  induction ls with
  | nil => rfl
  | cons l ls ih => simp only [List.flatMap_cons, List.append_assoc, h.letter, ih]

/-- A pass copies a token if it copies what begins one. -/
theorem written (h : Copies pass ok) (hquote : ok '"')
    (hok : t.isText = false → ∀ c ∈ t.spelling, ok c) :
    pass .outside (t.spelling ++ rest) = t.spelling ++ pass .outside rest := by
  cases t with
  | text ls =>
    have hin : Quoting.outside.next '"' = .inside false := rfl
    have hout : (Quoting.inside false).next '"' = .outside := rfl
    simp only [Written.spelling, List.cons_append, List.append_assoc, List.nil_append,
      h.outside _ _ hquote, hin, h.letters, h.inside, hout]
  | _ =>
    exact h.append fun c hc =>
      ⟨hok rfl c hc, fun heq => Written.quote_not_mem_spelling rfl (heq ▸ hc)⟩

end Copies

/-! ### Comments -/

/-- Outside comments, all is copied up to the next slash. -/
theorem stripFrom_copies : Copies (fun q => stripFrom (.text q)) (· ≠ '/') where
  outside c rest hc := by
    have hslash : c ≠ '/' := by simpa using hc
    simp [stripFrom, Zone.keeps, Zone.next, Zone.opensComment, hslash]
  inside escaped c rest := stripFrom_inside escaped c rest

theorem stripFrom_spelling (t : Written) (rest : List Char) :
    stripFrom Zone.plain (t.spelling ++ rest) = t.spelling ++ stripFrom Zone.plain rest :=
  stripFrom_copies.written (by decide) fun ht _ hc =>
    decide_eq_true fun heq => Written.slash_not_mem_spelling ht (heq ▸ hc)

theorem stripFrom_comma (rest : List Char) :
    stripFrom Zone.plain (',' :: rest) = ',' :: stripFrom Zone.plain rest :=
  stripFrom_copies.outside ',' rest (by decide)

theorem stripFrom_blockOpening (rest : List Char) :
    stripFrom Zone.plain ('/' :: '*' :: rest) = stripFrom (.blockComment false) rest := by
  simp [stripFrom, Zone.keeps, Zone.next, Zone.opensComment, Zone.plain]

theorem stripFrom_lineOpening (rest : List Char) :
    stripFrom Zone.plain ('/' :: '/' :: rest) = stripFrom .lineComment rest := by
  simp [stripFrom, Zone.keeps, Zone.next, Zone.opensComment, Zone.plain]

/-- What a block comment holds does not end it. By induction on what it holds; a star must not be followed
by a slash. -/
theorem stripFrom_blockContent {star : Bool} {content : List Char} (hcontent : ¬ ['*', '/'] <:+: content)
    (hstar : star = true → content.head? ≠ some '/') (rest : List Char) :
    ∃ star', stripFrom (.blockComment star) (content ++ rest) =
      content.filter (· = '\n') ++ stripFrom (.blockComment star') rest := by
  induction content generalizing star with
  | nil => exact ⟨star, rfl⟩
  | cons c content ih =>
    -- the comment ends neither here, after a star before it, nor at the next character, after a star here
    have hopen : ¬ (star = true ∧ c = '/') := fun h => hstar h.1 (by simp [h.2])
    have hnext : decide (c = '*') = true → content.head? ≠ some '/' := by
      intro hc hhead
      obtain rfl : c = '*' := of_decide_eq_true hc
      obtain ⟨tail, rfl⟩ := List.head?_eq_some_iff.mp hhead
      exact hcontent ⟨[], tail, rfl⟩
    obtain ⟨star', hrest⟩ := ih (fun h => hcontent (h.trans (List.infix_cons List.infix_rfl))) hnext
    refine ⟨star', ?_⟩
    rw [List.cons_append, stripFrom_cons]
    simp only [Zone.keeps, Zone.next, if_neg hopen, hrest, List.filter_cons, decide_eq_true_eq]
    split <;> rfl

/-- Of a block comment its newlines are left. -/
theorem stripFrom_blockComment {content : List Char} (hcontent : ¬ ['*', '/'] <:+: content)
    (rest : List Char) :
    stripFrom (.blockComment false) (content ++ '*' :: '/' :: rest) =
      content.filter (· = '\n') ++ stripFrom Zone.plain rest := by
  obtain ⟨star, heq⟩ :=
    stripFrom_blockContent hcontent (fun h => absurd h Bool.false_ne_true) ('*' :: '/' :: rest)
  simp [heq, stripFrom, Zone.keeps, Zone.next]

theorem stripFrom_lineContent {content : List Char} (hcontent : '\n' ∉ content) (rest : List Char) :
    stripFrom .lineComment (content ++ rest) = stripFrom .lineComment rest := by
  induction content with
  | nil => rfl
  | cons c content ih =>
    obtain ⟨hc, hrest⟩ := not_or.mp (mt List.mem_cons.mpr hcontent)
    have hnl : ¬ c = '\n' := fun h => hc h.symm
    rw [List.cons_append, stripFrom_cons]
    simp [Zone.keeps, Zone.next, hnl, ih hrest]

theorem stripFrom_lineComment {content : List Char} (hcontent : '\n' ∉ content) (rest : List Char) :
    stripFrom .lineComment (content ++ '\n' :: rest) = '\n' :: stripFrom Zone.plain rest := by
  rw [stripFrom_lineContent hcontent]
  simp [stripFrom, Zone.keeps, Zone.next]

section

variable {p : Char → Bool} (hblank : ∀ c, p c → Text.isBlank c) (hnewline : p '\n')

include hblank in
theorem slash_quote_of_blank {c : Char} (hc : p c) : c ≠ '/' ∧ c ≠ ',' ∧ c ≠ '"' := by
  refine ⟨?_, ?_, ?_⟩ <;> rintro rfl <;> exact absurd (hblank _ hc) (by decide)

include hblank hnewline in
/-- Of a gap only blanks are left. -/
theorem stripFrom_gap {g : List Char} (h : Gap p g) :
    ∃ g', Blanks p g' ∧ ∀ rest, stripFrom Zone.plain (g ++ rest) = g' ++ stripFrom Zone.plain rest := by
  induction h with
  | nil => exact ⟨[], by simp [Blanks], fun rest => rfl⟩
  | @blank c g hc h ih =>
    obtain ⟨g', hg', heq⟩ := ih
    refine ⟨c :: g', List.forall_mem_cons.mpr ⟨hc, hg'⟩, fun rest => ?_⟩
    have hchar := slash_quote_of_blank hblank hc
    exact (stripFrom_copies.append (s := [c]) (by simpa using ⟨hchar.1, hchar.2.2⟩)).trans
      (congrArg (c :: ·) (heq rest))
  | @block content g hcontent h ih =>
    obtain ⟨g', hg', heq⟩ := ih
    refine ⟨content.filter (· = '\n') ++ g', Blanks.append ?_ hg', fun rest => ?_⟩
    · intro c hc
      obtain rfl : c = '\n' := of_decide_eq_true (List.mem_filter.mp hc).2
      exact hnewline
    · simp only [List.cons_append, List.append_assoc, stripFrom_blockOpening,
        stripFrom_blockComment hcontent, heq]
  | @line content g hcontent h ih =>
    obtain ⟨g', hg', heq⟩ := ih
    refine ⟨'\n' :: g', List.forall_mem_cons.mpr ⟨hnewline, hg'⟩, fun rest => ?_⟩
    simp only [List.cons_append, List.append_assoc, stripFrom_lineOpening,
      stripFrom_lineComment hcontent, heq]

end

/-! ### Trailing commas -/

/-- Outside string literals, all is copied up to the next comma. -/
theorem dropFrom_copies : Copies dropFrom (· ≠ ',') where
  outside c rest hc := by
    have hcomma : c ≠ ',' := by simpa using hc
    simp [dropFrom, hcomma]
  inside escaped c rest := by simp [dropFrom]

theorem dropFrom_spelling {t : Written} (ht : t ≠ .mark .comma) (rest : List Char) :
    dropFrom .outside (t.spelling ++ rest) = t.spelling ++ dropFrom .outside rest :=
  dropFrom_copies.written (by decide) fun htext _ hc =>
    decide_eq_true fun heq => Written.comma_not_mem_spelling htext ht (heq ▸ hc)

theorem dropFrom_comma (rest : List Char) :
    dropFrom .outside (',' :: rest) =
      if closes rest then dropFrom .outside rest else ',' :: dropFrom .outside rest := by
  simp [dropFrom, Quoting.next]

/-- What closes an array or object is seen by its first character. -/
theorem closes_cons {c : Char} (hc : Text.isBlank c = false) (rest : List Char) :
    closes (c :: rest) = decide (c = '\x7d' ∨ c = ']') := by
  simp [closes, Text.trimStart, hc]

theorem closes_spelling (t : Written) (rest : List Char) : closes (t.spelling ++ rest) = t.closes := by
  cases t with
  | mark m => cases m <;> exact closes_cons (by decide) rest
  | null => exact closes_cons (by decide) _
  | bool b => cases b <;> exact closes_cons (by decide) _
  | number n =>
    obtain ⟨c, s, hs⟩ := List.exists_cons_of_ne_nil n.spelling_ne_nil
    have hc : c ∈ n.spelling := hs ▸ List.mem_cons_self
    have hall : decimalChars.all (fun c => !Text.isBlank c && !decide (c = '\x7d' ∨ c = ']')) = true := by
      decide
    have hfirst := List.all_eq_true.mp hall c (n.spelling_subset hc)
    rw [Bool.and_eq_true, Bool.not_eq_true', Bool.not_eq_true'] at hfirst
    rw [Written.spelling, hs, List.cons_append, closes_cons hfirst.1]
    exact hfirst.2
  | text letters => exact closes_cons (by decide) _

section

variable {p : Char → Bool} (hblank : ∀ c, p c → Text.isBlank c)

include hblank in
theorem closes_append {g : List Char} (hg : Blanks p g) (rest : List Char) :
    closes (g ++ rest) = closes rest := by
  have hdrop : Text.trimStart (g ++ rest) = Text.trimStart rest :=
    List.dropWhile_append_of_pos fun c hc => hblank c (hg c hc)
  simp only [closes, hdrop]

include hblank in
theorem dropFrom_append {g : List Char} (hg : Blanks p g) (rest : List Char) :
    dropFrom .outside (g ++ rest) = g ++ dropFrom .outside rest :=
  dropFrom_copies.append fun c hc =>
    have hchar := slash_quote_of_blank hblank (hg c hc)
    ⟨decide_eq_true hchar.2.1, hchar.2.2⟩

end

end Relaxed

/-! ### Renderings -/

namespace Json

open Relaxed

section

variable {p : Char → Bool} {last : Option Written} {ts : List Written} {text : List Char}
  (hblank : ∀ c, p c → Text.isBlank c) (hnewline : p '\n')

include hblank hnewline in
/-- Without its comments a rendering still has its tokens, its trailing commas, and blanks. -/
theorem Rendering.withoutComments (h : Rendering (Gap p) last ts text) :
    Rendering (Blanks p) last ts (stripFrom Zone.plain text) := by
  induction h with
  | @finish last g hg =>
    obtain ⟨g', hg', heq⟩ := stripFrom_gap hblank hnewline hg
    have := heq []
    simp only [List.append_nil, stripFrom_nil] at this
    exact this ▸ .finish hg'
  | @token last t ts g rest hg h ih =>
    obtain ⟨g', hg', heq⟩ := stripFrom_gap hblank hnewline hg
    rw [heq, stripFrom_spelling]
    exact .token hg' ih
  | @comma last t ts g g₁ rest hg hg₁ hlast ht h ih =>
    obtain ⟨g', hg', heq⟩ := stripFrom_gap hblank hnewline hg
    obtain ⟨g₁', hg₁', heq₁⟩ := stripFrom_gap hblank hnewline hg₁
    rw [heq, stripFrom_comma, heq₁, stripFrom_spelling]
    exact .comma hg' hg₁' hlast ht ih

include hblank in
/-- A rendering closes no array or object if its first token closes none. -/
theorem Rendering.closes_eq_false (h : Rendering (Blanks p) last ts text)
    (hts : ∀ t ∈ ts.head?, t.closes = false) : closes text = false := by
  cases h with
  | finish hg => exact (congrArg closes (List.append_nil text)).symm.trans (closes_append hblank hg [])
  | token hg h => rw [closes_append hblank hg, closes_spelling]; exact hts _ rfl
  | comma hg hg' hlast ht h => rw [closes_append hblank hg]; exact closes_cons (by decide) _

include hblank in
/-- Without trailing commas, what was a rendering with blanks is spaced. -/
theorem Rendering.withoutTrailingCommas (h : Rendering (Blanks p) last ts text)
    (hts : ts.IsChain Neighbours) : Spaced p ts (dropFrom .outside text) := by
  induction h with
  | @finish last g hg =>
    have heq := dropFrom_append hblank hg []
    simp only [List.append_nil, dropFrom_nil] at heq
    exact heq.symm ▸ .finish hg
  | @token last t ts g rest hg h ih =>
    obtain ⟨hnext, htail⟩ := List.isChain_cons.mp hts
    rw [dropFrom_append hblank hg]
    by_cases ht : t = .mark .comma
    · -- a comma between two values stays, since a value begins after it
      have hopen := h.closes_eq_false hblank fun u hu => (hnext u hu).2 ht
      subst ht
      have hcopied : dropFrom .outside (',' :: rest) = ',' :: dropFrom .outside rest := by
        rw [dropFrom_comma, hopen, if_neg Bool.false_ne_true]
      exact hcopied ▸ Spaced.token (t := .mark .comma) hg (ih htail)
    · rw [dropFrom_spelling ht]
      exact .token hg (ih htail)
  | @comma last t ts g g' rest hg hg' hlast ht h ih =>
    have hne : t ≠ .mark .comma := by rintro rfl; exact absurd ht (by decide)
    have hclosing : closes (g' ++ (t.spelling ++ rest)) = true := by
      rw [closes_append hblank hg', closes_spelling, ht]
    rw [dropFrom_append hblank hg, dropFrom_comma, if_pos hclosing, dropFrom_append hblank hg',
      dropFrom_spelling hne, ← List.append_assoc]
    exact .token (Blanks.append hg hg') (ih (List.isChain_cons.mp hts).2)

end

/-- What is left of a rendering of a JSON text is its tokens in their order and spelling, with nothing
but blanks between them. -/
theorem Renders.normalize {p : Char → Bool} {part : Part} {ts : List Written} {text : List Char}
    (hblank : ∀ c, p c → Text.isBlank c) (hnewline : p '\n') (hts : Derives part ts)
    (h : Renders p ts text) : Spaced p ts (normalize text) :=
  have hplain := Rendering.withoutComments hblank hnewline h
  hplain.withoutTrailingCommas hblank hts.composed.chain

end Json

end Misfit
