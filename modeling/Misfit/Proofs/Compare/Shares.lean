import Misfit.Proofs.Compare.Findings
import Mathlib.Algebra.Order.Field.Basic
import Mathlib.Algebra.Order.Field.Rat

/-!
# Shares of two shapes

How far two shapes overlap is told as a share, in either direction: the names that agree, out of those
that have to be there. The names that agree are counted on the target, the optional ones on either side,
and what has to be there is taken from the larger side. Still, no share of a clash exceeds the whole. A
name that agrees is declared on both sides, and it agrees whichever side it is looked up from, so on
neither side is it one of the optional names that the other side lacks.
-/
namespace Misfit

namespace Share

/-- The share as an exact quotient. Where no name has to be there, any agreeing name makes it full. -/
def exact (s : Share) : ℚ :=
  if s.whole = 0 then (if 0 < s.part then 1 else 0) else s.part / s.whole

/-- The share is a fraction of the whole, and it is full by its quotient only. -/
structure IsFraction (s : Share) : Prop where
  nonneg : 0 ≤ s.exact
  le_one : s.exact ≤ 1
  part_eq_zero : s.whole = 0 → s.part = 0

theorem isFraction_of_le {s : Share} (h : s.part ≤ s.whole) : s.IsFraction := by
  have hnone : s.whole = 0 → s.part = 0 := fun hzero => Nat.le_zero.mp (hzero ▸ h)
  refine ⟨?_, ?_, hnone⟩
  · unfold exact
    split
    · split <;> norm_num
    · exact div_nonneg (Nat.cast_nonneg _) (Nat.cast_nonneg _)
  · unfold exact
    split
    · rename_i hzero
      simp [hnone hzero]
    · exact div_le_one_of_le₀ (by exact_mod_cast h) (Nat.cast_nonneg _)

end Share

namespace ShapeClash

variable {clash : ShapeClash}

/-- The shares of a clash, one for each direction that was compared. -/
def shares (clash : ShapeClash) : List Share := clash.forwardShare :: clash.reverseShare.toList

/-- The names that agree and the optional names of a side are together no more than there are. -/
structure LeavesRoom (clash : ShapeClash) : Prop where
  forward : clash.overlap + clash.optional.length ≤ clash.total
  reverse : ∀ surplus ∈ clash.surplus, clash.overlap + surplus.optional.length ≤ clash.total

/-- The context that a clash is shown with does not matter. -/
theorem LeavesRoom.promote (h : clash.LeavesRoom) : clash.promote.LeavesRoom where
  forward := h.forward
  reverse := by
    intro surplus hsurplus
    obtain ⟨shown, hshown, rfl⟩ := Option.map_eq_some_iff.mp hsurplus
    exact h.reverse shown hshown

theorem LeavesRoom.isFraction (h : clash.LeavesRoom) {share : Share} (hshare : share ∈ clash.shares) :
    share.IsFraction := by
  apply Share.isFraction_of_le
  rcases List.mem_cons.mp hshare with rfl | hreverse
  · exact Nat.le_sub_of_add_le h.forward
  · obtain ⟨surplus, hsurplus, rfl⟩ := Option.map_eq_some_iff.mp (Option.mem_toList.mp hreverse)
    exact Nat.le_sub_of_add_le (h.reverse surplus hsurplus)

end ShapeClash

/-- A name that agrees is not an optional one that the other side lacks. -/
theorem PropertyDiff.overlap_add_optional_le (d : PropertyDiff) :
    d.overlap + d.optional.length ≤ d.total := by
  have hlength := d.perm_flatten_groups.length_eq
  simp only [groups, List.flatten_cons, List.flatten_nil, List.append_nil, List.length_append,
    List.length_map] at hlength
  simp only [overlap, total]
  omega

namespace Comparison

variable {c : Comparison} {target source : TypeId} {trail : Trail} {w : Walk} {conflict : Conflict}
  {shown : List ShapeClash}

theorem leavesRoom_clashOf (htarget : (c.program.types.names target).Nodup)
    (hsource : (c.program.types.names source).Nodup) : (c.clashOf target source).LeavesRoom where
  forward :=
    (c.program.diffProperties target source).overlap_add_optional_le.trans (Nat.le_max_left _ _)
  reverse := by
    intro surplus hsurplus
    obtain ⟨reverse, hreverse, rfl⟩ := Option.map_eq_some_iff.mp hsurplus
    have hoverlap : (c.clashOf target source).overlap = reverse.overlap := by
      obtain rfl := Option.some.inj (Option.ite_none_right_eq_some.mp hreverse).2
      have hmirrors := c.mirrors_clashOf htarget hsource
      exact congrArg₂ (· + ·) hmirrors.matched.length_eq hmirrors.unchecked.length_eq
    have htotal : reverse.total ≤ (c.clashOf target source).total := by
      simp only [clashOf, Program.shapeClash, hreverse, Option.elim_some]
      exact Nat.le_max_right _ _
    rw [hoverlap]
    exact reverse.overlap_add_optional_le.trans htotal

/-- Where no type has two properties of one name, the shares of every shape clash in a conflict are
fractions: the optional names leave room for those that agree, so they are never more than there are to
take them from, and where no name has to be there none agrees. -/
theorem shares_of_compare (hn : ∀ i, (c.program.types.names i).Nodup)
    (h : (c.compare target source trail w).1 = some conflict)
    (hclash : conflict.clash = .shapes shown) :
    ∀ clash ∈ shown,
      (clash.overlap + clash.optional.length ≤ clash.total ∧
        ∀ surplus ∈ clash.surplus, clash.overlap + surplus.optional.length ≤ clash.total) ∧
      (clash.forwardShare.whole + clash.optional.length = clash.total ∧
        ∀ surplus ∈ clash.surplus, ∃ share ∈ clash.reverseShare,
          share.whole + surplus.optional.length = clash.total) ∧
      ∀ share ∈ clash.shares, share.IsFraction := by
  obtain ⟨last, hexplains⟩ := explains_of_compare h
  rw [hclash] at hexplains
  obtain ⟨_, _, _, m, _, hshown⟩ := hexplains.clashOf
  intro clash hmem
  have hroom : clash.LeavesRoom := by
    obtain ⟨k, -, -, -, rfl | rfl⟩ := hshown clash hmem
    · exact leavesRoom_clashOf (hn k) (hn m)
    · exact (leavesRoom_clashOf (hn k) (hn m)).promote
  refine ⟨⟨hroom.forward, hroom.reverse⟩, ⟨?_, fun surplus hsurplus => ?_⟩,
    fun share hshare => hroom.isFraction hshare⟩
  · exact Nat.sub_add_cancel (Nat.le_of_add_left_le hroom.forward)
  · refine ⟨⟨clash.overlap, clash.total - surplus.optional.length⟩,
      Option.mem_map.mpr ⟨surplus, hsurplus, rfl⟩, ?_⟩
    exact Nat.sub_add_cancel (Nat.le_of_add_left_le (hroom.reverse surplus hsurplus))

/-- Two object types that have one name in common and each another one, which the first one can do
without. -/
def halvesTypes : Types :=
  let member (name : String) (optional : Bool) : Member := { name, type := TypeId.string, optional }
  let (t, _) := Types.initial.object { properties := [member "id" false, member "note" true] }
  (t.object { properties := [member "id" false, member "extra" false] }).1

/-- Without the optional name the share of the first type is full, and half of the names of the second
one agree. -/
theorem shares_halvesTypes :
    let c : Comparison := ⟨{ types := halvesTypes }, {}⟩
    (∀ i, (c.program.types.names i).Nodup) ∧
      ∃ conflict clash, (c.compare ⟨15⟩ ⟨16⟩ Trail.empty Walk.start).1 = some conflict ∧
        conflict.clash = .shapes [clash] ∧ clash.overlap = 1 ∧ clash.total = 2 ∧
        clash.optional = ["note"] ∧ clash.overlap + clash.optional.length ≤ clash.total ∧
        clash.shares = [⟨1, 1⟩, ⟨1, 2⟩] ∧ ∀ share ∈ clash.shares, share.IsFraction := by
  intro c
  have hn : ∀ i, (c.program.types.names i).Nodup := Types.nodup_names_of_objects (by decide)
  have hclash : (c.compare ⟨15⟩ ⟨16⟩ Trail.empty Walk.start).1.map (·.clash) =
      some (.shapes [c.clashOf ⟨15⟩ ⟨16⟩]) := by decide
  obtain ⟨conflict, hconflict, hshapes⟩ := Option.map_eq_some_iff.mp hclash
  obtain ⟨⟨hroom, -⟩, -, hfractions⟩ :=
    shares_of_compare hn hconflict hshapes _ (List.mem_singleton_self _)
  exact ⟨hn, conflict, _, hconflict, hshapes, by decide, by decide, by decide, hroom, by decide,
    hfractions⟩

end Comparison

end Misfit
