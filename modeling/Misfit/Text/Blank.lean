/-!
# Blank characters

White space in the sense of the Unicode property `White_Space`, trimming, and the folding of a text
that spans several lines onto one. The small lemmas say what trimming leaves behind.
-/
namespace Misfit.Text

/-- The characters that Unicode counts as white space. -/
def isBlank (c : Char) : Bool :=
  let n := c.toNat
  (9 ≤ n && n ≤ 13) || n == 0x20 || n == 0x85 || n == 0xA0 || n == 0x1680 ||
    (0x2000 ≤ n && n ≤ 0x200A) || n == 0x2028 || n == 0x2029 || n == 0x202F || n == 0x205F ||
    n == 0x3000

/-- Drops blanks at the front. -/
def trimStart (s : List Char) : List Char := s.dropWhile isBlank

/-- Drops the longest tail whose characters all satisfy `p`. -/
def dropTailWhile (p : Char → Bool) : List Char → List Char
  | [] => []
  | c :: rest => match dropTailWhile p rest with
    | [] => if p c then [] else [c]
    | kept => c :: kept

/-- Drops blanks at the end. -/
def trimEnd (s : List Char) : List Char := dropTailWhile isBlank s

/-- Drops blanks at both ends. -/
def trim (s : List Char) : List Char := trimEnd (trimStart s)

/-- The pieces of a text between the occurrences of `separator`; never an empty list. -/
def splitAtEach (separator : Char) : List Char → List (List Char)
  | [] => [[]]
  | c :: rest =>
    if c = separator then [] :: splitAtEach separator rest
    else match splitAtEach separator rest with
      | [] => [[c]]
      | piece :: pieces => (c :: piece) :: pieces

/-- A text on one line: its lines trimmed, the empty ones left out, joined by single spaces. -/
def oneLine (text : String) : String :=
  " ".intercalate (((splitAtEach '\n' text.toList).map trim).filter (· ≠ []) |>.map String.ofList)

theorem dropTailWhile_cons_of_not {p : Char → Bool} {c : Char} (hc : p c = false) (s : List Char) :
    dropTailWhile p (c :: s) = c :: dropTailWhile p s := by
  rw [dropTailWhile]
  split
  · rename_i h
    simp [hc, h]
  · rfl

/-- A text in front does not make less remain of what follows. -/
theorem length_dropTailWhile_le_append (p : Char → Bool) (s t : List Char) :
    (dropTailWhile p t).length ≤ (dropTailWhile p (s ++ t)).length := by
  induction s with
  | nil => exact Nat.le_refl _
  | cons c s ih =>
    refine Nat.le_trans ih ?_
    rw [List.cons_append, dropTailWhile]
    split
    · rename_i h
      simp [h]
    · simp

/-- More remains of a text in which a character that is not blank stands before what follows. -/
theorem length_trim_lt {c : Char} (hc : isBlank c = false) (s t : List Char) :
    (trim t).length < (trim (s ++ c :: t)).length := by
  obtain ⟨s', hs⟩ : ∃ s', trimStart (s ++ c :: t) = s' ++ c :: t := by
    induction s with
    | nil => exact ⟨[], by simp [trimStart, hc]⟩
    | cons d s ih =>
      by_cases hd : isBlank d
      · simpa [trimStart, hd] using ih
      · exact ⟨d :: s, by simp [trimStart, hd]⟩
  have hstart : (trim t).length ≤ (trimEnd t).length := by
    have happend := length_dropTailWhile_le_append isBlank (t.takeWhile isBlank) (trimStart t)
    rwa [trimStart, List.takeWhile_append_dropWhile] at happend
  calc (trim t).length
      ≤ (trimEnd t).length := hstart
    _ < (trimEnd (c :: t)).length := by
      rw [trimEnd, trimEnd, dropTailWhile_cons_of_not hc, List.length_cons]
      exact Nat.lt_succ_self _
    _ ≤ (trimEnd (s' ++ c :: t)).length := length_dropTailWhile_le_append isBlank s' (c :: t)
    _ = (trim (s ++ c :: t)).length := by rw [trim, hs]

end Misfit.Text
