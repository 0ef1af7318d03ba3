import Misfit.Binary64
import Misfit.Record.Clash

/-!
# How far two shapes overlap

The overlap of a shape clash is its share of agreeing names among the names that have to be there, in
the better of the two directions. Shares are reported as floating-point numbers. Whether a share exceeds
one half is decided on the counts: both counts are rounded to the 53 bits that a floating-point number
holds, and then the quotient exceeds one half exactly if twice the part exceeds the whole.
-/
namespace Misfit

/-- Some names out of all that have to be there. -/
structure Share where
  part : Nat
  whole : Nat
  deriving DecidableEq, Repr

namespace Share

/-- The share as a number. Where no name has to be there, any agreeing name makes it full. -/
def ratio (s : Share) : Float :=
  if s.whole = 0 then (if s.part > 0 then 1.0 else 0.0)
  else Float.ofNat s.part / Float.ofNat s.whole

/-- The share is more than one half. -/
def exceedsHalf (s : Share) : Bool :=
  if s.whole = 0 then s.part > 0 else Binary64.round s.whole < 2 * Binary64.round s.part

end Share

namespace ShapeClash

/-- The share of agreeing names in the direction from the target to the source. -/
def forwardShare (c : ShapeClash) : Share := ⟨c.overlap, c.total - c.optional.length⟩

/-- The share in the other direction, if it was compared. -/
def reverseShare (c : ShapeClash) : Option Share :=
  c.surplus.map fun s => ⟨c.overlap, c.total - s.optional.length⟩

/-- The better share of the two directions. -/
def overlapRatio (c : ShapeClash) : Float :=
  let forward := c.forwardShare.ratio
  c.reverseShare.elim forward fun s => if forward < s.ratio then s.ratio else forward

/-- More than half of the names agree, in some direction. -/
def isStrong (c : ShapeClash) : Bool :=
  c.forwardShare.exceedsHalf || c.reverseShare.any Share.exceedsHalf

end ShapeClash

/-- On counts of ordinary size a share exceeds one half as a quotient does. -/
theorem Share.exceedsHalf_iff {s : Share} (hp : s.part < Binary64.exactBound)
    (hw : s.whole < Binary64.exactBound) :
    s.exceedsHalf = true ↔ s.whole < 2 * s.part := by
  unfold exceedsHalf
  split
  · rename_i h
    simp only [h, decide_eq_true_eq]
    omega
  · simp [Binary64.round_of_lt hp, Binary64.round_of_lt hw]

end Misfit
