import Misfit.Proofs.Compare.Surface

/-!
# The layers above a comparison

A comparison puts layers on the trail that it is given, and does not look at the ones above, except for
their number where literals are widened. So where they are not, it finds the same conflict under any
layers, and shows it under them.
-/
namespace Misfit

/-- The trail continued upward by more layers, the deepest first. -/
def Trail.under (t : Trail) (above : List Layer) : Trail := ⟨t.inward ++ above⟩

theorem Trail.push_under (t : Trail) (layer : Layer) (above : List Layer) :
    (t.under above).push layer = (t.push layer).under above := rfl

/-- The conflict with its trail continued upward. -/
def Conflict.under (conflict : Conflict) (above : List Layer) : Conflict :=
  { conflict with trail := conflict.trail.under above }

/-- What two members come to, with the trail continued upward. -/
def MemberMatch.under (above : List Layer) : MemberMatch → MemberMatch
  | nested conflict => nested (conflict.under above)
  | other => other

/-- The explanations found, with their trails continued upward. -/
def Candidates.under (found : Candidates) (above : List Layer) : Candidates :=
  { found with nested := found.nested.map (·.under above) }

namespace Comparison

variable {c : Comparison} {ω : Type} {inner : Comparer ω} {above : List Layer}

/-- Under the given layers the comparer finds the same as without them. -/
def FindsUnder (inner : Comparer ω) (above : List Layer) : Prop :=
  ∀ target source trail w, inner target source (trail.under above) w =
    ((inner target source trail w).1.map (·.under above), (inner target source trail w).2)

theorem widens_of_not_callArgument (h : c.mode.callArgument = false) (trail : Trail) :
    c.widens trail = false := by simp [widens, h]

theorem matchMember_under (h : c.mode.callArgument = false) (hi : FindsUnder inner above)
    (trail : Trail) (target source : TypeId) (w : ω) :
    c.matchMember inner (trail.under above) target source w =
      ((c.matchMember inner trail target source w).1.under above,
        (c.matchMember inner trail target source w).2) := by
  have hwidens : c.widens (trail.under above) = c.widens trail := by
    rw [widens_of_not_callArgument h, widens_of_not_callArgument h]
  cases c.meeting (c.fitsAtOnce (c.widens trail) target source) target source with
  | atOnce hf =>
    rw [matchMember_of_fitsAtOnce hf, matchMember_of_fitsAtOnce (hwidens ▸ hf)]
    rfl
  | @elements te se hf ht hs =>
    rw [matchMember_of_elements hf ht hs, matchMember_of_elements (hwidens ▸ hf) ht hs,
      hi te se trail w]
    cases inner te se trail w with
    | mk result w' => cases result <;> rfl
  | whole hf ha =>
    rw [matchMember_of_not_isArray hf ha, matchMember_of_not_isArray (hwidens ▸ hf) ha]
    congr 1
    split
    · split <;> rfl
    · rfl

theorem firstMatch_under (h : c.mode.callArgument = false) (hi : FindsUnder inner above)
    (trail : Trail) (source : TypeId) (targets : List TypeId) (found : Candidates) (w : ω) :
    c.firstMatch inner (trail.under above) source targets (found.under above) w =
      ((c.firstMatch inner trail source targets found w).1.mapError (·.under above),
        (c.firstMatch inner trail source targets found w).2) := by
  induction targets generalizing found w with
  | nil => rfl
  | cons target rest ih =>
    simp only [firstMatch, matchMember_under h hi trail target source w]
    cases c.matchMember inner trail target source w with
    | mk result w' =>
      cases result with
      | satisfied pairs => rfl
      | shape clash => exact ih { found with shapes := found.shapes ++ [clash] } w'
      | nested conflict =>
        have hor : (found.nested.map (·.under above)).or (some (conflict.under above)) =
            (found.nested.or (some conflict)).map (·.under above) := by
          cases found.nested <;> rfl
        have hrest := ih { found with nested := found.nested.or (some conflict) } w'
        simp only [Candidates.under, ← hor] at hrest
        exact hrest
      | unrelated => exact ih found w'

theorem explain_under (trail : Trail) (target member : TypeId) (found : Candidates) :
    c.explain (trail.under above) target member (found.under above) =
      (c.explain trail target member found).under above := by
  obtain ⟨shapes, nested⟩ := found
  cases shapes with
  | nil => cases nested <;> rfl
  | cons => rfl

theorem matchAll_under (h : c.mode.callArgument = false) (hi : FindsUnder inner above)
    (trail : Trail) (target : TypeId) (targets members : List TypeId) (w : ω) :
    c.matchAll inner (trail.under above) target targets members w =
      ((c.matchAll inner trail target targets members w).1.mapError (·.under above),
        (c.matchAll inner trail target targets members w).2) := by
  induction members generalizing w with
  | nil => rfl
  | cons member rest ih =>
    have hfirst : c.firstMatch inner (trail.under above) member targets {} w =
        ((c.firstMatch inner trail member targets {} w).1.mapError (·.under above),
          (c.firstMatch inner trail member targets {} w).2) :=
      firstMatch_under h hi trail member targets {} w
    cases hmember : c.firstMatch inner trail member targets {} w with
    | mk result w' =>
      rw [hmember] at hfirst
      cases result with
      | error found =>
        replace hfirst : c.firstMatch inner (trail.under above) member targets {} w =
          (.error (found.under above), w') := hfirst
        simp only [matchAll, hmember, hfirst, explain_under]
        rfl
      | ok pairs =>
        replace hfirst : c.firstMatch inner (trail.under above) member targets {} w = (.ok pairs, w') :=
          hfirst
        simp only [matchAll, hmember, hfirst, ih w']
        cases c.matchAll inner trail target targets rest w' with
        | mk result w'' => cases result <;> rfl

theorem compareOpen_under (hi : FindsUnder inner above) (trail : Trail) (pairs : List NestedPair)
    (w : ω) :
    compareOpen inner (trail.under above) pairs w =
      ((compareOpen inner trail pairs w).1.map (·.under above),
        (compareOpen inner trail pairs w).2) := by
  induction pairs generalizing w with
  | nil => rfl
  | cons pair rest ih =>
    simp only [compareOpen, Trail.push_under, hi pair.target pair.source (trail.push pair.layer) w]
    cases inner pair.target pair.source (trail.push pair.layer) w with
    | mk result w' =>
      cases result with
      | none => exact ih w'
      | some conflict => rfl

/-- A round finds the same under the layers if the comparer below it does. -/
theorem findsUnder_compareEntered (h : c.mode.callArgument = false) (hi : FindsUnder inner above) :
    FindsUnder (c.compareEntered inner) above := by
  intro target source trail w
  cases c.meeting (c.program.types.triviallyFits target source) target source with
  | atOnce hf =>
    rw [compareEntered_of_triviallyFits hf, compareEntered_of_triviallyFits hf]
    rfl
  | @elements te se hf ht hs =>
    rw [compareEntered_of_elements hf ht hs, compareEntered_of_elements hf ht hs]
    exact hi te se trail w
  | whole hf ha =>
    rw [compareEntered_of_not_isArray hf ha, compareEntered_of_not_isArray hf ha]
    split
    · rfl
    rw [matchAll_under h hi]
    cases c.matchAll inner trail target (c.program.types.members target)
        (c.program.types.members source) w with
    | mk result w' =>
      cases result with
      | error conflict => rfl
      | ok pairs => exact compareOpen_under hi trail pairs w'

/-- By induction on the depth. -/
theorem findsUnder_compareWithin (h : c.mode.callArgument = false) (above : List Layer) (n : Nat) :
    FindsUnder (c.compareWithin n) above := by
  induction n with
  | zero => exact fun _ _ _ _ => rfl
  | succ n ih =>
    intro target source trail w
    simp only [compareWithin]
    split
    · rw [findsUnder_compareEntered h ih]
    · rfl

/-- A comparison that widens no literals finds the same conflict under any layers. -/
theorem conflict?_under (h : c.mode.callArgument = false) (target source : TypeId) (trail : Trail)
    (above : List Layer) :
    c.conflict? target source (trail.under above) =
      (c.conflict? target source trail).map (·.under above) := by
  simp only [conflict?, compare, findsUnder_compareWithin h above _ target source trail]

/-- Under one layer a comparison that widens no literals finds what it finds under none. -/
theorem conflict?_push_empty (h : c.mode.callArgument = false) (target source : TypeId)
    (layer : Layer) :
    c.conflict? target source (Trail.empty.push layer) =
      (c.conflict? target source Trail.empty).map (·.under [layer]) :=
  conflict?_under h target source Trail.empty [layer]

end Comparison

end Misfit
