import Misfit.Proofs.Json.Renderings

/-!
# Texts with comments

Any text at all, well formed or not, is made of plain characters, string literals and comments, the last
of which may lack its end. Without its comments it is made of the same segments in the same order, except
that the newlines of each comment stand in its place. So nothing more is taken out of it another time.
-/
namespace Misfit.Relaxed

/-! ### What a text is made of -/

/-- What stands between the quotes of a string literal: no quote but after a backslash. -/
inductive LiteralBody : List Char → Prop
  | nil : LiteralBody []
  | plain {c : Char} {rest : List Char} (hquote : c ≠ '"') (hbackslash : c ≠ '\\')
    (h : LiteralBody rest) : LiteralBody (c :: rest)
  | escape {c : Char} {rest : List Char} (h : LiteralBody rest) : LiteralBody ('\\' :: c :: rest)

/-- A segment of a text. Open ones lack their end. -/
inductive Segment
  | plain (c : Char)
  | literal (body : List Char)
  | openLiteral (body : List Char)
  | line (content : List Char)
  | openLine (content : List Char)
  | block (content : List Char)
  | openBlock (content : List Char)
  deriving DecidableEq, Repr

namespace Segment

def isLiteral : Segment → Bool
  | literal _ | openLiteral _ => true
  | _ => false

def isComment : Segment → Bool
  | line _ | openLine _ | block _ | openBlock _ => true
  | _ => false

def spelling : Segment → List Char
  | plain c => [c]
  | literal body => '"' :: (body ++ ['"'])
  | openLiteral body => '"' :: body
  | line content => '/' :: '/' :: (content ++ ['\n'])
  | openLine content => '/' :: '/' :: content
  | block content => '/' :: '*' :: (content ++ ['*', '/'])
  | openBlock content => '/' :: '*' :: content

/-- The newlines of a comment, as segments of their own. -/
def newlines (content : List Char) : List Segment := (content.filter (· = '\n')).map plain

/-- What is left of a segment: of a comment its newlines, the one at its end included, and anything else
as it is. -/
def left : Segment → List Segment
  | line _ => [plain '\n']
  | openLine _ => []
  | block content | openBlock content => newlines content
  | segment => [segment]

end Segment

/-- The text is made of the segments. A literal goes on to its first quote that is not escaped, a line
comment to the end of its line and a block comment to the first star with a slash behind it; a slash begins
a comment wherever it can. -/
inductive MadeOf : List Segment → List Char → Prop
  | nil : MadeOf [] []
  | plain {c : Char} {segments : List Segment} {rest : List Char} (hquote : c ≠ '"')
    (hslash : c = '/' → rest.head? ≠ some '/' ∧ rest.head? ≠ some '*') (h : MadeOf segments rest) :
    MadeOf (.plain c :: segments) (c :: rest)
  | literal {body rest : List Char} {segments : List Segment} (hbody : LiteralBody body)
    (h : MadeOf segments rest) : MadeOf (.literal body :: segments) ('"' :: (body ++ '"' :: rest))
  | openLiteral {body tail : List Char} (hbody : LiteralBody body) (htail : tail = [] ∨ tail = ['\\']) :
    MadeOf [.openLiteral (body ++ tail)] ('"' :: (body ++ tail))
  | line {content rest : List Char} {segments : List Segment} (hcontent : '\n' ∉ content)
    (h : MadeOf segments rest) :
    MadeOf (.line content :: segments) ('/' :: '/' :: (content ++ '\n' :: rest))
  | openLine {content : List Char} (hcontent : '\n' ∉ content) :
    MadeOf [.openLine content] ('/' :: '/' :: content)
  | block {content rest : List Char} {segments : List Segment} (hcontent : ¬['*', '/'] <:+: content)
    (h : MadeOf segments rest) :
    MadeOf (.block content :: segments) ('/' :: '*' :: (content ++ '*' :: '/' :: rest))
  | openBlock {content : List Char} (hcontent : ¬['*', '/'] <:+: content) :
    MadeOf [.openBlock content] ('/' :: '*' :: content)

/-! ### Every text is made of segments -/

/-- A text after an opening quote begins with the body of a literal, which ends at the first quote that is
not escaped, or else at the end of the text or at a backslash there. -/
theorem exists_literalBody : ∀ text : List Char, ∃ body rest, LiteralBody body ∧ text = body ++ rest ∧
    (rest.head? = some '"' ∨ rest = [] ∨ rest = ['\\'])
  | [] => ⟨[], [], .nil, rfl, .inr (.inl rfl)⟩
  | c :: after => by
    by_cases hquote : c = '"'
    · exact ⟨[], c :: after, .nil, rfl, .inl (congrArg some hquote)⟩
    by_cases hbackslash : c = '\\'
    · subst hbackslash
      cases after with
      | nil => exact ⟨[], ['\\'], .nil, rfl, .inr (.inr rfl)⟩
      | cons d after =>
        obtain ⟨body, rest, hbody, rfl, hrest⟩ := exists_literalBody after
        exact ⟨'\\' :: d :: body, rest, .escape hbody, rfl, hrest⟩
    · obtain ⟨body, rest, hbody, rfl, hrest⟩ := exists_literalBody after
      exact ⟨c :: body, rest, .plain hquote hbackslash hbody, rfl, hrest⟩

/-- A text with a star before a slash has a first one. -/
theorem exists_block (text : List Char) :
    (∃ content rest, ¬['*', '/'] <:+: content ∧ text = content ++ '*' :: '/' :: rest) ∨
      ¬['*', '/'] <:+: text := by
  induction text with
  | nil => exact .inr (by simp)
  | cons c text ih =>
    by_cases hhere : ['*', '/'] <+: c :: text
    · obtain ⟨rest, hrest⟩ := hhere
      exact .inl ⟨[], rest, by simp, hrest.symm⟩
    rcases ih with ⟨content, rest, hcontent, rfl⟩ | hnone
    · refine .inl ⟨c :: content, rest, fun hinfix => ?_, rfl⟩
      rcases List.infix_cons_iff.mp hinfix with hfirst | hlater
      · exact hhere (hfirst.trans (List.prefix_append (c :: content) _))
      · exact hcontent hlater
    · exact .inr fun hinfix => (List.infix_cons_iff.mp hinfix).elim hhere hnone

/-- By induction on the length of the text: what comes after a segment is shorter. -/
theorem exists_madeOf (text : List Char) : ∃ segments, MadeOf segments text := by
  induction hlength : text.length using Nat.strongRecOn generalizing text with
  | ind n ih =>
  cases text with
  | nil => exact ⟨[], .nil⟩
  | cons c after =>
    have hshorter : ∀ rest : List Char, rest.length ≤ after.length → ∃ segments, MadeOf segments rest :=
      fun rest hle => ih rest.length (by simp at hlength; omega) rest rfl
    by_cases hquote : c = '"'
    · subst hquote
      obtain ⟨body, rest, hbody, rfl, hrest⟩ := exists_literalBody after
      rcases hrest with hclosed | hopen
      · obtain ⟨rest, rfl⟩ := List.head?_eq_some_iff.mp hclosed
        obtain ⟨segments, h⟩ := hshorter rest (by simp; omega)
        exact ⟨_, .literal hbody h⟩
      · exact ⟨_, .openLiteral hbody hopen⟩
    by_cases hslash : c = '/' → after.head? ≠ some '/' ∧ after.head? ≠ some '*'
    · obtain ⟨segments, h⟩ := hshorter after (Nat.le_refl _)
      exact ⟨_, .plain hquote hslash h⟩
    obtain ⟨rfl, hcomment⟩ := Classical.not_imp.mp hslash
    by_cases hline : after.head? = some '/'
    · obtain ⟨after, rfl⟩ := List.head?_eq_some_iff.mp hline
      by_cases hnewline : '\n' ∈ after
      · obtain ⟨content, rest, rfl, hcontent⟩ := List.eq_append_cons_of_mem hnewline
        obtain ⟨segments, h⟩ := hshorter rest (by simp; omega)
        exact ⟨_, .line hcontent h⟩
      · exact ⟨_, .openLine hnewline⟩
    · have hblock : after.head? = some '*' := by
        by_contra hstar
        exact hcomment ⟨hline, hstar⟩
      obtain ⟨after, rfl⟩ := List.head?_eq_some_iff.mp hblock
      rcases exists_block after with ⟨content, rest, hcontent, rfl⟩ | hcontent
      · obtain ⟨segments, h⟩ := hshorter rest (by simp; omega)
        exact ⟨_, .block hcontent h⟩
      · exact ⟨_, .openBlock hcontent⟩

/-! ### What is left of a text -/

theorem stripFrom_quote (rest : List Char) :
    stripFrom Zone.plain ('"' :: rest) = '"' :: stripFrom (.text (.inside false)) rest :=
  stripFrom_copies.outside '"' rest (by decide)

theorem stripFrom_closingQuote (rest : List Char) :
    stripFrom (.text (.inside false)) ('"' :: rest) = '"' :: stripFrom Zone.plain rest :=
  stripFrom_inside false '"' rest

theorem LiteralBody.stripFrom_append {body : List Char} (h : LiteralBody body) (rest : List Char) :
    stripFrom (.text (.inside false)) (body ++ rest) =
      body ++ stripFrom (.text (.inside false)) rest := by
  induction h with
  | nil => rfl
  | @plain c body hquote hbackslash _ ih =>
    rw [List.cons_append, stripFrom_inside, Quoting.next, if_neg hbackslash, if_neg hquote, ih]
    rfl
  | @escape c body _ ih =>
    rw [List.cons_append, List.cons_append, stripFrom_inside, Quoting.next, if_pos rfl, stripFrom_inside,
      Quoting.next, ih]
    rfl

/-- What follows a character that stays is still what followed it, if it is no comment. -/
theorem head?_withoutComments {rest : List Char} (h : rest.head? ≠ some '/') :
    (withoutComments rest).head? = rest.head? := by
  cases rest with
  | nil => rfl
  | cons c rest =>
    have hc : c ≠ '/' := fun heq => h (congrArg some heq)
    have hhead := congrArg List.head? (stripFrom_copies.outside c rest (decide_eq_true hc))
    exact hhead

theorem withoutComments_plain {c : Char} {rest : List Char} (hquote : c ≠ '"')
    (hslash : c = '/' → rest.head? ≠ some '/' ∧ rest.head? ≠ some '*') :
    withoutComments (c :: rest) = c :: withoutComments rest := by
  have hopens : Zone.plain.opensComment c rest.head? = false := by
    simp only [Zone.opensComment, Bool.and_eq_false_iff, Bool.or_eq_false_iff, decide_eq_false_iff_not]
    by_cases hc : c = '/'
    · exact .inr (hslash hc)
    · exact .inl (.inr hc)
  rw [Zone.plain] at hopens
  simp [withoutComments, Zone.plain, stripFrom, Zone.keeps, Zone.next, hopens, Quoting.next, hquote]

/-- The newlines of a comment may stand in its place, whatever follows. -/
theorem MadeOf.newlines {segments : List Segment} {rest : List Char} (h : MadeOf segments rest)
    (content : List Char) :
    MadeOf (Segment.newlines content ++ segments) (content.filter (· = '\n') ++ rest) := by
  induction content with
  | nil => exact h
  | cons c content ih =>
    by_cases hc : c = '\n'
    · subst hc
      exact .plain (by decide) (fun heq => absurd heq (by decide)) ih
    · simpa [Segment.newlines, hc] using ih

/-- Without its comments a text is made of what is left of its segments. -/
theorem MadeOf.left {segments : List Segment} {text : List Char} (h : MadeOf segments text) :
    MadeOf (segments.flatMap Segment.left) (withoutComments text) := by
  induction h with
  | nil => exact .nil
  | @plain c segments rest hquote hslash _ ih =>
    rw [withoutComments_plain hquote hslash]
    refine .plain hquote (fun hc => ?_) ih
    rw [head?_withoutComments (hslash hc).1]
    exact hslash hc
  | @literal body rest segments hbody _ ih =>
    rw [withoutComments, stripFrom_quote, hbody.stripFrom_append, stripFrom_closingQuote]
    exact .literal hbody ih
  | @openLiteral body tail hbody htail =>
    have hkept : stripFrom (.text (.inside false)) tail = tail := by
      rcases htail with rfl | rfl <;> rfl
    rw [withoutComments, stripFrom_quote, hbody.stripFrom_append, hkept]
    exact .openLiteral hbody htail
  | @line content rest segments hcontent _ ih =>
    rw [withoutComments, stripFrom_lineOpening, stripFrom_lineComment hcontent]
    exact .plain (by decide) (fun heq => absurd heq (by decide)) ih
  | @openLine content hcontent =>
    have hnone := stripFrom_lineContent hcontent []
    rw [List.append_nil] at hnone
    rw [withoutComments, stripFrom_lineOpening, hnone]
    exact .nil
  | @block content rest segments hcontent _ ih =>
    rw [withoutComments, stripFrom_blockOpening, stripFrom_blockComment hcontent]
    exact ih.newlines content
  | @openBlock content hcontent =>
    obtain ⟨star, hnewlines⟩ :=
      stripFrom_blockContent hcontent (fun h => absurd h Bool.false_ne_true) []
    rw [List.append_nil, stripFrom_nil] at hnewlines
    rw [withoutComments, stripFrom_blockOpening, hnewlines]
    exact MadeOf.nil.newlines content

/-! ### Segments and what is left of them -/

theorem MadeOf.text_eq {segments : List Segment} {text : List Char} (h : MadeOf segments text) :
    text = segments.flatMap Segment.spelling := by
  induction h with
  | nil => rfl
  | openLiteral | openLine | openBlock => simp [Segment.spelling]
  | _ => simp_all [Segment.spelling]

namespace Segment

theorem spelling_newlines (content : List Char) :
    (newlines content).flatMap spelling = content.filter (· = '\n') := by
  simp only [newlines, List.flatMap_map, spelling, List.flatMap_singleton']

theorem left_of_not_isComment {s : Segment} (h : s.isComment = false) : s.left = [s] := by
  cases s <;> first | rfl | exact absurd h Bool.true_eq_false.mp

theorem isComment_of_mem_left {s t : Segment} (h : t ∈ s.left) : t.isComment = false := by
  have hnewlines : ∀ content, t ∈ newlines content → t.isComment = false := by
    intro content ht
    obtain ⟨c, -, rfl⟩ := List.mem_map.mp ht
    rfl
  cases s with
  | openLine content => exact absurd h List.not_mem_nil
  | block content => exact hnewlines content h
  | openBlock content => exact hnewlines content h
  | _ =>
    obtain rfl := List.mem_singleton.mp h
    rfl

/-- Literals are left as they are, and nothing that is left of another segment is one. -/
theorem filter_isLiteral_left (s : Segment) : s.left.filter isLiteral = [s].filter isLiteral := by
  have hnewlines : ∀ content, (newlines content).filter isLiteral = [] := by
    intro content
    rw [List.filter_eq_nil_iff]
    intro t ht
    obtain ⟨c, -, rfl⟩ := List.mem_map.mp ht
    simp [isLiteral]
  cases s with
  | block content => exact hnewlines content
  | openBlock content => exact hnewlines content
  | _ => rfl

/-- Of a comment less is left than it was, since its marks go. -/
theorem length_left (s : Segment) :
    (s.left.flatMap spelling).length + [s].countP isComment ≤ s.spelling.length := by
  have hnewlines : ∀ content : List Char,
      ((newlines content).flatMap spelling).length ≤ content.length := by
    intro content
    rw [spelling_newlines]
    exact List.length_filter_le _ _
  cases s with
  | block content =>
    have hle := hnewlines content
    simp only [left, spelling, List.length_cons, List.length_append, List.countP_singleton]
    split <;> omega
  | openBlock content =>
    have hle := hnewlines content
    simp only [left, spelling, List.length_cons, List.countP_singleton]
    split <;> omega
  | _ => simp [left, spelling, isComment]

end Segment

theorem length_flatMap_left (segments : List Segment) :
    ((segments.flatMap Segment.left).flatMap Segment.spelling).length +
      segments.countP Segment.isComment ≤ (segments.flatMap Segment.spelling).length := by
  induction segments with
  | nil => simp
  | cons s segments ih =>
    have hs := s.length_left
    simp only [List.flatMap_cons, List.flatMap_append, List.length_append, List.countP_cons,
      List.countP_nil] at hs ⊢
    omega

/-- A text without comments stays as it is, and no other text does. -/
theorem MadeOf.withoutComments_eq_self_iff {segments : List Segment} {text : List Char}
    (h : MadeOf segments text) :
    withoutComments text = text ↔ ∀ s ∈ segments, s.isComment = false := by
  have hleft := h.left.text_eq
  constructor
  · intro heq
    have hlength := length_flatMap_left segments
    rw [← hleft, ← h.text_eq, heq] at hlength
    have hnone : segments.countP Segment.isComment = 0 := by omega
    intro s hs
    exact Bool.eq_false_iff.mpr (List.countP_eq_zero.mp hnone s hs)
  · intro hnone
    have hself : segments.flatMap Segment.left = segments.flatMap fun s => [s] :=
      List.flatMap_congr fun s hs => Segment.left_of_not_isComment (hnone s hs)
    rw [hleft, hself, List.flatMap_singleton', ← h.text_eq]

/-- A comment has as many newlines as are left of it. -/
theorem MadeOf.count_newline {segments : List Segment} {text : List Char} (h : MadeOf segments text) :
    ((segments.flatMap Segment.left).flatMap Segment.spelling).count '\n' = text.count '\n' := by
  have hfilter : ∀ content : List Char, (content.filter (· = '\n')).count '\n' = content.count '\n' :=
    fun content => List.count_filter (by decide)
  induction h with
  | nil => rfl
  | @line content rest segments hcontent _ ih =>
    simp [Segment.left, Segment.spelling, ih, List.count_eq_zero.mpr hcontent]
  | @openLine content hcontent =>
    simp [Segment.left, List.count_eq_zero.mpr hcontent]
  | @block content rest segments _ _ ih =>
    simp [Segment.left, Segment.spelling_newlines, hfilter, ih]
  | @openBlock content _ =>
    simp [Segment.left, Segment.spelling_newlines, hfilter]
  | _ => simp_all [Segment.left, Segment.spelling, List.count_cons]

/-- Taking out comments keeps lines and string literals, and doing it again changes nothing. Any text is
made of plain characters, literals and comments. What it becomes is made of the same plain characters and
literals in the same order, with the newlines of each comment in its place, so it has as many newlines and
no comment. And it is the text itself if and only if that has no comment. -/
theorem withoutComments_keeps (text : List Char) :
    withoutComments (withoutComments text) = withoutComments text ∧
      (withoutComments text).count '\n' = text.count '\n' ∧
      (∃ segments, MadeOf segments text) ∧
      ∀ segments, MadeOf segments text →
        MadeOf (segments.flatMap Segment.left) (withoutComments text) ∧
        (segments.flatMap Segment.left).filter Segment.isLiteral = segments.filter Segment.isLiteral ∧
        (withoutComments text = text ↔ ∀ s ∈ segments, s.isComment = false) := by
  obtain ⟨segments, h⟩ := exists_madeOf text
  refine ⟨?_, ?_, ⟨segments, h⟩, fun segments h => ⟨h.left, ?_, h.withoutComments_eq_self_iff⟩⟩
  · refine h.left.withoutComments_eq_self_iff.mpr fun t ht => ?_
    obtain ⟨s, -, hs⟩ := List.mem_flatMap.mp ht
    exact Segment.isComment_of_mem_left hs
  · rw [h.left.text_eq, h.count_newline]
  · have heach := List.flatMap_congr fun s (_ : s ∈ segments) => s.filter_isLiteral_left
    rw [List.filter_flatMap, heach, ← List.filter_flatMap, List.flatMap_singleton']

/-- A text that breaks off in a comment, after a literal with a sign of one. -/
example : withoutComments "1/*\n*//\"//\"//,\n/*".toList = "1\n/\"//\"\n".toList := by decide

end Misfit.Relaxed
