import Misfit.Describe
import Misfit.Tree.Draft
import Mathlib.Data.List.Infix

/-!
# The annotation of a member

What annotates a member follows its own colon, the first one outside brackets. The scan for it counts
brackets of all kinds together and takes the `>` of an arrow for one that closes. So arrows inside
brackets can expose a colon that stands there, and what follows it is taken for the annotation. Where no
such colon comes first, the annotation is the member's own.
-/
namespace Misfit

open Text

/-! ### Nested brackets -/

/-- The bracket that closes an opening one. -/
def closingOf (c : Char) : Char :=
  if c = '(' then ')' else if c = '[' then ']' else if c = '\x7b' then '\x7d' else '>'

/-- Where a text with nested brackets has been read up to. -/
structure Nesting where
  /-- The closing brackets still to come, the next one first. -/
  awaited : List Char := []
  /-- The last character is an equals sign, which makes an arrow with a `>`. -/
  afterEquals : Bool := false
  deriving DecidableEq, Repr

/-- Reads on by a character. A closing bracket has to be the next one to come, unless it belongs to an
arrow. -/
def Nesting.step (n : Nesting) (c : Char) : Option Nesting :=
  if isOpening c then some { awaited := closingOf c :: n.awaited }
  else if isClosing c ∧ ¬ (c = '>' ∧ n.afterEquals) then
    if n.awaited.head? = some c then some { awaited := n.awaited.tail } else none
  else some { n with afterEquals := c = '=' }

/-- Reads a text; `none` if a bracket is closed that is not the last one open. -/
def nesting (text : List Char) : Option Nesting := text.foldlM Nesting.step {}

/-- The brackets of the text are properly nested, arrows apart. -/
def Nested (text : List Char) : Prop := (nesting text).map Nesting.awaited = some []

instance : DecidablePred Nested := fun text =>
  inferInstanceAs (Decidable ((nesting text).map Nesting.awaited = some []))

/-- No colon in the text has before it a text with the property. -/
def NoColon (p : List Char → Prop) (text : List Char) : Prop :=
  ∀ before, before ++ [':'] <+: text → ¬ p before

instance {p : List Char → Prop} [DecidablePred p] : DecidablePred (NoColon p) := fun text =>
  decidable_of_iff (∀ before ∈ text.inits, before ++ [':'] <+: text → ¬ p before)
    ⟨fun h before hbefore =>
      h before ((List.mem_inits before text).mpr ((List.prefix_append _ _).trans hbefore)) hbefore,
      fun h before _ => h before⟩

/-- What follows the first colon such that the text before it has the property, trimmed; `none` if there
is no such colon. -/
def FollowsColon (p : List Char → Prop) (text : List Char) : Option (List Char) → Prop
  | some tail => ∃ before after, text = before ++ ':' :: after ∧ p before ∧ NoColon p before ∧
      tail = trim after
  | none => NoColon p text

/-- The annotation of a member declared by the text. -/
abbrev Annotates (text : List Char) : Option (List Char) → Prop := FollowsColon Nested text

/-- Nothing that is open hides the end of the text, if arrows count as closing brackets: no part at the
end opens more than it closes. -/
def Exposed (text : List Char) : Prop :=
  ∀ inner, inner <:+ text → inner.countP isOpening ≤ inner.countP isClosing

/-- A colon after the text `before` stands inside brackets, but is exposed, and no colon outside brackets
comes before it. -/
structure Misleads (text before : List Char) : Prop where
  colon : before ++ [':'] <+: text
  inside : ¬ Nested before
  exposed : Exposed before
  first : NoColon Nested before

variable {text before : List Char} {c : Char} {n n' : Nesting}

/-! ### What has been read -/

theorem isClosing_of_isOpening (h : isOpening c = true) : isClosing c = false := by
  simp only [isOpening, Bool.or_eq_true, decide_eq_true_eq] at h
  obtain ((rfl | rfl) | rfl) | rfl := h <;> rfl

/-- A character that is read opens a bracket, closes the last one open, or leaves the brackets alone. -/
theorem Nesting.step_cases (h : n.step c = some n') :
    (isOpening c = true ∧ n' = { awaited := closingOf c :: n.awaited }) ∨
    (isOpening c = false ∧ isClosing c = true ∧ n.awaited = c :: n'.awaited ∧ n'.afterEquals = false) ∨
    (isOpening c = false ∧ (isClosing c = true → c = '>' ∧ n.afterEquals = true) ∧
      n' = { n with afterEquals := c = '=' }) := by
  rw [step] at h
  cases hopening : isOpening c with
  | true =>
    rw [if_pos hopening] at h
    exact .inl ⟨rfl, (Option.some.inj h).symm⟩
  | false =>
    rw [if_neg (by simp [hopening])] at h
    split at h
    · rename_i hclosing
      cases hawaited : n.awaited with
      | nil => simp [hawaited] at h
      | cons d awaited =>
        simp only [hawaited, List.head?_cons, List.tail_cons, Option.ite_none_right_eq_some,
          Option.some.injEq] at h
        obtain ⟨rfl, rfl⟩ := h
        exact .inr (.inl ⟨rfl, hclosing.1, rfl, rfl⟩)
    · rename_i hclosing
      refine .inr (.inr ⟨rfl, fun hc => ?_, (Option.some.inj h).symm⟩)
      simpa [hc] using hclosing

theorem nesting_concat_eq_some_iff {text : List Char} :
    nesting (text ++ [c]) = some n' ↔ ∃ n, nesting text = some n ∧ n.step c = some n' := by
  simp only [nesting, List.foldlM_append, List.foldlM_cons, List.foldlM_nil, bind_pure]
  exact Option.bind_eq_some_iff

/-- What comes first in a nested text can be read. -/
theorem Nested.exists_nesting (h : Nested text) (hstart : before <+: text) :
    ∃ n, nesting before = some n := by
  obtain ⟨rest, rfl⟩ := hstart
  cases hbefore : nesting before with
  | some n => exact ⟨n, rfl⟩
  | none =>
    rw [nesting] at hbefore
    simp [Nested, nesting, List.foldlM_append, hbefore] at h

theorem nested_iff_of_nesting (h : nesting text = some n) : Nested text ↔ n.awaited = [] := by
  simp [Nested, h]

/-- The last character read is an equals sign if that is noted, and it leaves the brackets alone. -/
theorem exists_of_afterEquals (h : nesting text = some n) (hequals : n.afterEquals = true) :
    ∃ before m, text = before ++ ['='] ∧ nesting before = some m ∧ m.awaited = n.awaited := by
  rcases List.eq_nil_or_concat text with rfl | ⟨before, c, rfl⟩
  · cases h
    cases hequals
  · rw [List.concat_eq_append, nesting_concat_eq_some_iff] at h
    obtain ⟨m, hm, hstep⟩ := h
    obtain ⟨-, rfl⟩ | ⟨-, -, -, hnot⟩ | ⟨-, -, rfl⟩ := Nesting.step_cases hstep
    · cases hequals
    · exact (Bool.false_ne_true (hnot.symm.trans hequals)).elim
    · obtain rfl : c = '=' := of_decide_eq_true hequals
      exact ⟨before, m, List.concat_eq_append, hm, rfl⟩

/-! ### The depth that is counted -/

/-- The number of open brackets after a character, as it is counted. -/
def countedAfter (depth : Nat) (c : Char) : Nat :=
  if isOpening c then depth + 1 else if isClosing c then depth - 1 else depth

/-- The number of open brackets after a text, as it is counted. -/
def countedDepth (depth : Nat) (text : List Char) : Nat := text.foldl countedAfter depth

theorem countedDepth_concat (depth : Nat) (text : List Char) (c : Char) :
    countedDepth depth (text ++ [c]) = countedAfter (countedDepth depth text) c := by
  simp [countedDepth]

/-- At most so many brackets are counted as open as every part at the end opens more than it closes. By
induction on the text, from its end. -/
theorem countedDepth_le_iff (text : List Char) (bound : Nat) :
    countedDepth 0 text ≤ bound ↔
      ∀ inner, inner <:+ text → inner.countP isOpening ≤ inner.countP isClosing + bound := by
  induction text using List.reverseRecOn generalizing bound with
  | nil => simp [countedDepth]
  | append_singleton text c ih =>
    have hends (q : List Char → Prop) (hq : q []) :
        (∀ inner, inner <:+ text ++ [c] → q inner) ↔ ∀ inner, inner <:+ text → q (inner ++ [c]) := by
      simp only [List.suffix_concat_iff]
      constructor
      · exact fun h inner hinner => h _ (.inr ⟨inner, rfl, hinner⟩)
      · rintro h inner (rfl | ⟨inner, rfl, hinner⟩)
        · exact hq
        · exact h inner hinner
    rw [hends _ (Nat.zero_le _), countedDepth_concat, countedAfter]
    simp only [List.countP_append, List.countP_singleton]
    cases hopening : isOpening c with
    | true =>
      simp only [isClosing_of_isOpening hopening, if_true, Bool.false_eq_true, if_false, Nat.add_zero]
      cases bound with
      | zero =>
        -- the opening bracket is such a part by itself
        exact iff_of_false (Nat.not_succ_le_zero _) fun h => absurd (h [] (List.nil_suffix)) (by simp)
      | succ bound => simpa only [Nat.add_le_add_iff_right, ← Nat.add_assoc] using ih bound
    | false =>
      simp only [Bool.false_eq_true, if_false, Nat.add_zero]
      cases isClosing c with
      | true =>
        simp only [if_true, Nat.sub_le_iff_le_add]
        simpa only [Nat.add_assoc, Nat.add_comm 1] using ih (bound + 1)
      | false => simpa only [Bool.false_eq_true, if_false, Nat.add_zero] using ih bound

theorem countedDepth_eq_zero_iff : countedDepth 0 text = 0 ↔ Exposed text := by
  rw [← Nat.le_zero, countedDepth_le_iff]
  rfl

/-- No more brackets are counted as open than there are. -/
theorem countedDepth_le_length (h : nesting text = some n) :
    countedDepth 0 text ≤ n.awaited.length := by
  induction text using List.reverseRecOn generalizing n with
  | nil => exact Nat.zero_le _
  | append_singleton text c ih =>
    obtain ⟨m, hm, hstep⟩ := nesting_concat_eq_some_iff.mp h
    have hle := ih hm
    rw [countedDepth_concat, countedAfter]
    obtain ⟨hopening, rfl⟩ | ⟨hopening, hclosing, hawaited, -⟩ | ⟨hopening, -, rfl⟩ :=
      Nesting.step_cases hstep
    · simpa [hopening] using hle
    · rw [hawaited, List.length_cons] at hle
      simp only [hopening, hclosing, Bool.false_eq_true, if_false, if_true]
      omega
    · -- if this is an arrow, one bracket less is counted
      simp only [hopening, Bool.false_eq_true, if_false]
      split <;> omega

/-- Outside brackets everything is exposed. -/
theorem Nested.exposed (h : Nested text) : Exposed text := by
  obtain ⟨n, hn⟩ := h.exists_nesting (List.prefix_refl text)
  have hle := countedDepth_le_length hn
  rw [(nested_iff_of_nesting hn).mp h] at hle
  exact countedDepth_eq_zero_iff.mp (Nat.le_zero.mp hle)

/-- Brackets are counted right if every arrow stands outside them. -/
theorem countedDepth_eq_length (h : nesting text = some n)
    (harrows : ∀ before, before ++ ['=', '>'] <+: text → Nested before) :
    countedDepth 0 text = n.awaited.length := by
  induction text using List.reverseRecOn generalizing n with
  | nil =>
    cases h
    rfl
  | append_singleton text c ih =>
    obtain ⟨m, hm, hstep⟩ := nesting_concat_eq_some_iff.mp h
    have hdepth := ih hm fun before hbefore => harrows before (hbefore.trans (List.prefix_append _ _))
    rw [countedDepth_concat, hdepth, countedAfter]
    obtain ⟨hopening, rfl⟩ | ⟨hopening, hclosing, hawaited, -⟩ | ⟨hopening, harrow, rfl⟩ :=
      Nesting.step_cases hstep
    · simp [hopening]
    · simp [hopening, hclosing, hawaited]
    · simp only [hopening, Bool.false_eq_true, if_false]
      split
      · rename_i hclosing
        -- an arrow stands where nothing is open
        obtain ⟨rfl, hequals⟩ := harrow hclosing
        obtain ⟨before, m', rfl, hbefore, hsame⟩ := exists_of_afterEquals hm hequals
        have hnested := harrows before (by simp)
        rw [nested_iff_of_nesting hbefore, hsame] at hnested
        simp [hnested]
      · rfl

/-! ### The scan -/

section

variable {p q : List Char → Prop} {rest b b' : List Char} {a : Option (List Char)}

theorem NoColon.cons (h : NoColon (fun before => p (c :: before)) rest) (hc : c = ':' → ¬ p []) :
    NoColon p (c :: rest) := by
  rintro (_ | ⟨d, before⟩) hstart
  · obtain ⟨rfl, -⟩ := List.cons_prefix_cons.mp hstart
    exact hc rfl
  · obtain ⟨rfl, hrest⟩ := List.cons_prefix_cons.mp hstart
    exact h before hrest

theorem FollowsColon.cons (h : FollowsColon (fun before => p (c :: before)) rest a)
    (hc : c = ':' → ¬ p []) : FollowsColon p (c :: rest) a := by
  cases a with
  | none => exact NoColon.cons h hc
  | some tail =>
    obtain ⟨before, after, rfl, hbefore, hfirst, rfl⟩ := h
    exact ⟨c :: before, after, rfl, hbefore, hfirst.cons hc, rfl⟩

/-- The scan stops at the first colon where no bracket is counted as open. By induction on the text. -/
theorem annotationWithin_followsColon (depth : Nat) (text : List Char) :
    FollowsColon (fun before => countedDepth depth before = 0) text (annotationWithin depth text) := by
  induction text generalizing depth with
  | nil => exact fun before hbefore => by simp at hbefore
  | cons c rest ih =>
    have hskip (hc : c = ':' → depth ≠ 0) : FollowsColon (fun before => countedDepth depth before = 0)
        (c :: rest) (annotationWithin (countedAfter depth c) rest) :=
      FollowsColon.cons (ih (countedAfter depth c)) hc
    rw [annotationWithin]
    split
    · rename_i hopening
      rw [countedAfter, if_pos hopening] at hskip
      refine hskip ?_
      rintro rfl
      exact absurd hopening (by decide)
    · rename_i hopening
      split
      · rename_i hclosing
        rw [countedAfter, if_neg hopening, if_pos hclosing] at hskip
        refine hskip ?_
        rintro rfl
        exact absurd hclosing (by decide)
      · rename_i hclosing
        rw [countedAfter, if_neg hopening, if_neg hclosing] at hskip
        split
        · rename_i hcolon
          obtain ⟨rfl, rfl⟩ := hcolon
          exact ⟨[], rest, rfl, rfl, fun before hbefore => by simp at hbefore, rfl⟩
        · rename_i hcolon
          exact hskip fun hc hdepth => hcolon ⟨hc, hdepth⟩

/-- What is found in a text follows its first exposed colon. -/
theorem annotationOf_followsColon (text : String) :
    FollowsColon Exposed text.toList ((annotationOf text).map String.toList) := by
  have hscan := annotationWithin_followsColon 0 text.toList
  simp only [countedDepth_eq_zero_iff] at hscan
  simpa [annotationOf, Option.map_map, Function.comp_def] using hscan

/-- A first colon for one property is the first colon for a stronger one if it has that property. -/
theorem FollowsColon.strengthen (h : FollowsColon q text a) (hpq : ∀ before, p before → q before)
    (hqp : ∀ before, before ++ [':'] <+: text → q before → NoColon p before → p before) :
    FollowsColon p text a := by
  have hno {s : List Char} (hs : NoColon q s) : NoColon p s :=
    fun before hbefore hp => hs before hbefore (hpq before hp)
  cases a with
  | none => exact hno h
  | some tail =>
    obtain ⟨before, after, rfl, hbefore, hfirst, rfl⟩ := h
    exact ⟨before, after, rfl, hqp before (by simp) hbefore (hno hfirst), hno hfirst, rfl⟩

/-- The first colon for a property comes no later than another one that has it. -/
theorem NoColon.length_le (h : NoColon p b) (hb : b ++ [':'] <+: text) (hb' : b' ++ [':'] <+: text)
    (hp : p b') : b.length ≤ b'.length := by
  by_contra hlt
  refine h b' (List.prefix_of_prefix_length_le hb' ((List.prefix_append _ _).trans hb) ?_) hp
  simp only [List.length_append, List.length_singleton]
  omega

end

/-! ### Whose annotation it is -/

theorem Misleads.not_annotates {a : Option (List Char)} (h : Misleads text before)
    (ha : FollowsColon Exposed text a) : ¬ Annotates text a := by
  intro hown
  cases a with
  | none => exact ha before h.colon h.exposed
  | some tail =>
    obtain ⟨found, after, htext, -, hfound, rfl⟩ := ha
    obtain ⟨own, after', htext', hnested, -, htrim⟩ := hown
    have hfoundColon : found ++ [':'] <+: text := ⟨after, by simp [htext]⟩
    have hownColon : own ++ [':'] <+: text := ⟨after', by simp [htext']⟩
    have hle := hfound.length_le hfoundColon h.colon h.exposed
    have hle' := h.first.length_le h.colon hownColon hnested
    have hne : before.length ≠ own.length := by
      intro heq
      have hsame : before ++ [':'] = own ++ [':'] :=
        (List.prefix_of_prefix_length_le h.colon hownColon (by simp [heq])).eq_of_length (by simp [heq])
      exact h.inside (List.append_cancel_right hsame ▸ hnested)
    -- the colon found comes first, so the own colon stands in the text after it
    obtain ⟨between, rfl⟩ : found ++ [':'] <+: own :=
      List.prefix_of_prefix_length_le hfoundColon ((List.prefix_append _ _).trans hownColon) (by
        simp only [List.length_append, List.length_singleton]
        omega)
    have hafter : after = between ++ ':' :: after' := by
      simpa [htext'] using htext.symm
    have hlt := length_trim_lt (c := ':') rfl between after'
    rw [← hafter, htrim] at hlt
    exact Nat.lt_irrefl _ hlt

/-- A colon is exposed inside brackets only if an arrow stands inside brackets before it. -/
theorem Misleads.exists_arrow (h : Misleads text before) (hnested : Nested text) :
    ∃ inside, inside ++ ['=', '>'] <+: before ∧ ¬ Nested inside := by
  by_contra hnone
  push Not at hnone
  obtain ⟨n, hn⟩ := hnested.exists_nesting ((List.prefix_append _ _).trans h.colon)
  have hdepth := countedDepth_eq_length hn hnone
  rw [countedDepth_eq_zero_iff.mpr h.exposed] at hdepth
  exact h.inside ((nested_iff_of_nesting hn).mpr (List.eq_nil_of_length_eq_zero hdepth.symm))

/-- If brackets are properly nested in the text of a declaration, the annotation found in it is the
member's own, unless a colon inside brackets is exposed before any colon outside them. That takes an
arrow inside brackets. Apart from such texts, a member is shown with its own annotation as its type, or
with the rendered type if it has none or an empty one. -/
theorem annotates_annotationOf_iff (text : String) (h : Nested text.toList) :
    (Annotates text.toList ((annotationOf text).map String.toList) ↔
      ∀ before, ¬ Misleads text.toList before) ∧
    (∀ before, Misleads text.toList before →
      ∃ inside, inside ++ ['=', '>'] <+: before ∧ ¬ Nested inside) ∧
    ∀ (p : Program) (m : Member), m.declaration.bind p.declarationText = some text →
      (∀ before, ¬ Misleads text.toList before) →
      ∃ own, Annotates text.toList own ∧ (p.describeMember m).typeText =
        ((own.map String.ofList).filter (· ≠ "")).getD (p.types.render m.type) := by
  have hfound := annotationOf_followsColon text
  have hown (hnone : ∀ before, ¬ Misleads text.toList before) :
      Annotates text.toList ((annotationOf text).map String.toList) := by
    refine hfound.strengthen (fun _ => Nested.exposed) fun before hcolon hexposed hfirst => ?_
    by_contra hinside
    exact hnone before ⟨hcolon, hinside, hexposed, hfirst⟩
  refine ⟨⟨fun hisown before hbefore => hbefore.not_annotates hfound hisown, hown⟩,
    fun before hbefore => hbefore.exists_arrow h, fun p m hdeclared hnone => ⟨_, hown hnone, ?_⟩⟩
  have htext : ((annotationOf text).map String.toList).map String.ofList = annotationOf text := by
    simp [Option.map_map, Function.comp_def]
  rw [htext, Program.describeMember, hdeclared]

/-- A program with nothing but a declaration in it, and a member so declared. -/
def declaredMember (name : String) (declaration : Draft → Draft.Grown) : Program × Member :=
  let (d, node) := declaration { name := "a.ts" }
  ({ files := [d.finish [node]] }, { name, type := .any, declaration := some ⟨⟨0⟩, node⟩ })

def callbackProperty : Program × Member :=
  declaredMember "cb" fun d => d.propertySignature "cb" false "(a: A) => B"

theorem annotates_annotationOf_callbackProperty :
    let text := "cb: (a: A) => B"
    let m := callbackProperty.2
    Nested text.toList ∧ m.declaration.bind callbackProperty.1.declarationText = some text ∧
      (∀ before, ¬ Misleads text.toList before) ∧
      ∃ own, Annotates text.toList own ∧ (callbackProperty.1.describeMember m).typeText =
        ((own.map String.ofList).filter (· ≠ "")).getD (callbackProperty.1.types.render m.type) := by
  intro text m
  have hnested : Nested text.toList := by decide +kernel
  obtain ⟨hiff, -, hmember⟩ := annotates_annotationOf_iff text hnested
  have hfound : annotationOf text = some "(a: A) => B" := by decide +kernel
  have hdeclared : m.declaration.bind callbackProperty.1.declarationText = some text := by
    decide +kernel
  have hnone : ∀ before, ¬ Misleads text.toList before :=
    hiff.mp (hfound ▸ ⟨['c', 'b'], " (a: A) => B".toList, by decide +kernel, by decide +kernel,
      by decide +kernel, by decide +kernel⟩)
  exact ⟨hnested, hdeclared, hnone, hmember _ m hdeclared hnone⟩

def callbackMethod : Program × Member :=
  declaredMember "m" fun d =>
    let (d, cb) := d.parameter "cb" false (some "(x: X) => void")
    let (d, y) := d.parameter "y" false (some "Y")
    let (d, body) := d.block []
    d.methodDeclaration "m" [cb, y] body

/-- The arrow of a parameter exposes the colon of the next one. The method has no annotation, but the
rest of its text is shown as its type. -/
theorem annotationOf_callbackMethod :
    let text := "m(cb: (x: X) => void, y: Y) \x7b  \x7d"
    let m := callbackMethod.2
    m.declaration.bind callbackMethod.1.declarationText = some text ∧ Nested text.toList ∧
      Annotates text.toList none ∧ annotationOf text = some "Y) \x7b  \x7d" ∧
      callbackMethod.1.types.render m.type = "any" ∧
      (callbackMethod.1.describeMember m).typeText = "Y) \x7b  \x7d" := by
  intro text m
  have hnone : NoColon Nested text.toList := by decide +kernel
  exact ⟨by decide +kernel, by decide +kernel, hnone, by decide +kernel, by decide +kernel,
    by decide +kernel⟩

end Misfit
