import Mathlib.Data.List.Basic

/-!
# Where a phrase of a text ends

In a text with matched parentheses some characters end a phrase, unless they stand inside parentheses. So
a text can be taken apart in one way only: a phrase ends at the first of these characters, and a list of
phrases with separators between them is read back from the text.
-/
namespace Misfit

namespace Text

/-- Parentheses are matched, and outside them none of the characters in `stops` occurs. -/
inductive Phrase : List Char → List Char → Prop
  | nil {stops : List Char} : Phrase stops []
  | char {stops : List Char} {c : Char} {w : List Char} (hopen : c ≠ '(') (hclose : c ≠ ')')
    (hstop : c ∉ stops) (h : Phrase stops w) : Phrase stops (c :: w)
  | group {stops u w : List Char} (hu : Phrase [] u) (h : Phrase stops w) :
    Phrase stops ('(' :: (u ++ ')' :: w))

/-- No phrase goes on with this text: it is empty, or begins with a character that ends a phrase. -/
def Stopped (stops r : List Char) : Prop := ∀ c ∈ r.head?, c ≠ '(' ∧ (c = ')' ∨ c ∈ stops)

variable {stops stops' w w' u v r r' sep : List Char} {c : Char} {ws ws' : List (List Char)}

theorem stopped_nil : Stopped stops [] := by simp [Stopped]

theorem stopped_close : Stopped stops (')' :: r) := by simp [Stopped]

theorem stopped_cons (hopen : c ≠ '(') (hc : c ∈ stops) : Stopped stops (c :: r) := by
  simp [Stopped, hopen, hc]

theorem Phrase.append (h : Phrase stops u) (hv : Phrase stops v) : Phrase stops (u ++ v) := by
  induction h with
  | nil => exact hv
  | char hopen hclose hstop _ ih => exact .char hopen hclose hstop (ih hv)
  | group hu _ _ ih => simpa using Phrase.group hu (ih hv)

theorem Phrase.mono (hs : stops' ⊆ stops) (h : Phrase stops w) : Phrase stops' w := by
  induction h with
  | nil => exact .nil
  | char hopen hclose hstop _ ih => exact .char hopen hclose (fun hc => hstop (hs hc)) (ih hs)
  | group hu _ _ ih => exact .group hu (ih hs)

theorem phrase_of_chars (h : ∀ c ∈ w, c ≠ '(' ∧ c ≠ ')' ∧ c ∉ stops) : Phrase stops w := by
  induction w with
  | nil => exact .nil
  | cons c w ih =>
    obtain ⟨hopen, hclose, hstop⟩ := h c List.mem_cons_self
    exact .char hopen hclose hstop (ih fun d hd => h d (List.mem_cons_of_mem c hd))

/-- The same for a text that is given, by running through it. -/
theorem phrase_of_all (h : (w.all fun c => c ≠ '(' ∧ c ≠ ')' ∧ c ∉ stops) = true) : Phrase stops w :=
  phrase_of_chars fun c hc => of_decide_eq_true (List.all_eq_true.mp h c hc)

/-- Nothing inside parentheses ends a phrase. -/
theorem Phrase.parenthesized (h : Phrase stops u) : Phrase stops' ('(' :: (u ++ [')'])) :=
  .group (h.mono (List.nil_subset stops)) .nil

theorem Phrase.intercalate (hsep : Phrase stops sep) (h : ∀ w ∈ ws, Phrase stops w) :
    Phrase stops (sep.intercalate ws) := by
  induction ws with
  | nil => exact .nil
  | cons w ws ih =>
    have hw := h w List.mem_cons_self
    cases ws with
    | nil => simpa using hw
    | cons v ws =>
      rw [List.intercalate_cons_cons]
      exact (hw.append hsep).append (ih fun x hx => h x (List.mem_cons_of_mem w hx))

/-- A text begins with a phrase in one way only. By induction on the phrase. -/
theorem Phrase.unique (h : Phrase stops w) (h' : Phrase stops w') (hr : Stopped stops r)
    (hr' : Stopped stops r') (heq : w ++ r = w' ++ r') : w = w' ∧ r = r' := by
  induction h generalizing w' r r' with
  | nil =>
    cases h' with
    | nil => exact ⟨rfl, heq⟩
    | char hopen hclose hstop h' =>
      obtain rfl : r = _ := heq
      obtain ⟨-, hc | hc⟩ := hr _ rfl
      · exact (hclose hc).elim
      · exact (hstop hc).elim
    | group hu h' =>
      obtain rfl : r = _ := heq
      exact ((hr _ rfl).1 rfl).elim
  | char hopen hclose hstop h ih =>
    cases h' with
    | nil =>
      obtain rfl : _ = r' := heq
      obtain ⟨-, hc | hc⟩ := hr' _ rfl
      · exact (hclose hc).elim
      · exact (hstop hc).elim
    | char hopen' hclose' hstop' h' =>
      obtain ⟨rfl, htail⟩ := List.cons.inj heq
      obtain ⟨rfl, rfl⟩ := ih h' hr hr' htail
      exact ⟨rfl, rfl⟩
    | group hu h' => exact (hopen (List.cons.inj heq).1).elim
  | @group stops u v hu h ihu ih =>
    cases h' with
    | nil =>
      obtain rfl : _ = r' := heq
      exact ((hr' _ rfl).1 rfl).elim
    | char hopen hclose hstop h' => exact (hopen (List.cons.inj heq).1.symm).elim
    | @group _ u' v' hu' h' =>
      have hinside : u ++ ')' :: (v ++ r) = u' ++ ')' :: (v' ++ r') := by simpa using heq
      obtain ⟨rfl, hrest⟩ := ihu hu' stopped_close stopped_close hinside
      obtain ⟨rfl, rfl⟩ := ih h' hr hr' (List.cons.inj hrest).2
      exact ⟨rfl, rfl⟩

/-- The pieces that a text with separators is read back as: all pieces but the last are phrases, and the
last is not a phrase with a separator after it. -/
inductive Divided (stops sep : List Char) : List (List Char) → Prop
  | last {w : List Char} (h : ∀ v r, Phrase stops v → w ≠ v ++ sep ++ r) : Divided stops sep [w]
  | cons {w : List Char} {ws : List (List Char)} (hw : Phrase stops w) (h : Divided stops sep ws) :
    Divided stops sep (w :: ws)

theorem Divided.ne_nil (h : Divided stops sep ws) : ws ≠ [] := by
  cases h <;> simp

/-- Pieces are read back from the text with separators between them. By induction on the pieces. -/
theorem Divided.intercalate_inj (hsep : ∀ r, Stopped stops (sep ++ r)) (h : Divided stops sep ws)
    (h' : Divided stops sep ws') (heq : sep.intercalate ws = sep.intercalate ws') : ws = ws' := by
  induction h generalizing ws' with
  | last hlast =>
    cases h' with
    | last => simpa using heq
    | cons hw' h' =>
      rw [List.intercalate_singleton, List.intercalate_cons_of_ne_nil h'.ne_nil] at heq
      exact (hlast _ _ hw' heq).elim
  | cons hw h ih =>
    rw [List.intercalate_cons_of_ne_nil h.ne_nil] at heq
    cases h' with
    | last hlast' =>
      rw [List.intercalate_singleton] at heq
      exact (hlast' _ _ hw heq.symm).elim
    | cons hw' h' =>
      rw [List.intercalate_cons_of_ne_nil h'.ne_nil, List.append_assoc, List.append_assoc] at heq
      obtain ⟨rfl, hrest⟩ := hw.unique hw' (hsep _) (hsep _) heq
      rw [ih h' (List.append_cancel_left hrest)]

/-- Phrases are read back from the text with separators between them. -/
theorem divided_of_phrases (hsep : ∀ r, Stopped stops (sep ++ r)) (hne : sep ≠ [])
    (h : ∀ w ∈ ws, Phrase stops w) (hws : ws ≠ []) : Divided stops sep ws := by
  induction ws with
  | nil => exact (hws rfl).elim
  | cons w ws ih =>
    have hw := h w List.mem_cons_self
    cases ws with
    | nil =>
      refine .last fun v r hv heq => hne ?_
      rw [List.append_assoc] at heq
      have hend := (hw.unique hv stopped_nil (hsep r) (by simpa using heq)).2
      exact (List.append_eq_nil_iff.mp hend.symm).1
    | cons v ws => exact .cons hw (ih (fun x hx => h x (List.mem_cons_of_mem w hx)) (by simp))

end Text

end Misfit
