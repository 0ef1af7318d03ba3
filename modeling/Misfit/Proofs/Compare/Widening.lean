import Misfit.Proofs.Compare.UnionSource

/-!
# Literals in calls

In a call a literal fits any target of its family, in the first layer of the trail and nowhere below. It
may then commit to a member of a union that it would have passed over. But it leaves nothing open there, so
it cannot commit to anything worse: a call accepts whatever is accepted elsewhere. And below the first
layer, where nothing is widened, it accepts nothing more.
-/
namespace Misfit

namespace Comparison

/-- The same comparison for an argument of a call. -/
def asArgument (c : Comparison) : Comparison :=
  { c with mode := { c.mode with callArgument := true } }

variable {c : Comparison} {target source : TypeId} {trail : Trail} {wide : Bool}
  {X Y : TypeId → TypeId → Prop}

/-- Which target a member commits to depends on the call only through the literals that are widened. -/
theorem acceptedAmong_asArgument {targets : List TypeId} {m : TypeId} :
    c.asArgument.AcceptedAmong wide X Y targets m ↔ c.AcceptedAmong wide X Y targets m := by
  constructor
  · intro h
    cases h with
    | array ha ht h => exact .array ha ht h
    | other ha ht h => exact .other ha ht h
  · intro h
    cases h with
    | array ha ht h => exact .array ha ht h
    | other ha ht h => exact .other ha ht h

theorem round_asArgument :
    c.asArgument.Round wide X Y target source ↔ c.Round wide X Y target source := by
  constructor
  · intro h
    cases h with
    | trivial h => exact .trivial h
    | elements ht hs h => exact .elements ht hs h
    | members ht hs h => exact .members ht hs fun m hm => acceptedAmong_asArgument.mp (h m hm)
  · intro h
    cases h with
    | trivial h => exact .trivial h
    | elements ht hs h => exact .elements ht hs h
    | members ht hs h => exact .members ht hs fun m hm => acceptedAmong_asArgument.mpr (h m hm)

/-- Compatible types are compatible in a call, and the other way round. -/
theorem compat_asArgument : c.asArgument.Compat target source ↔ c.Compat target source :=
  ⟨compat_of_round fun _ _ h => round_asArgument.mp (compat_iff_round.mp h),
    compat_of_round fun _ _ h => round_asArgument.mpr (compat_iff_round.mp h)⟩

/-- A call accepts what is accepted elsewhere. Below the first layer it accepts nothing more. -/
theorem conflict?_asArgument (hmode : c.mode.callArgument = false) :
    (c.StaysWithinLimits target source trail → c.conflict? target source trail = none →
        c.asArgument.conflict? target source trail = none) ∧
      (1 < trail.length → c.asArgument.StaysWithinLimits target source trail →
        c.asArgument.conflict? target source trail = none → c.conflict? target source trail = none) := by
  constructor
  · intro hl h
    have hcompat := compat_of_conflict?_eq_none (Or.inl hmode) hl h
    exact conflict?_eq_none_of_compat (compat_asArgument.mpr hcompat) trail
  · intro hlength hl h
    have hcompat := compat_of_conflict?_eq_none (Or.inr hlength) hl h
    exact conflict?_eq_none_of_compat (compat_asArgument.mp hcompat) trail

/-- A union of a string, a literal and an object type that mentions itself, and a union of the literal and
another such object type. -/
def literalUnions : List Types.Operation :=
  [.declareObject "First", .declareObject "Second", .literal (.string "a"),
    .union [TypeId.string, ⟨17⟩, ⟨15⟩], .union [⟨17⟩, ⟨16⟩],
    .defineObject ⟨15⟩ { name := some "First", properties := [{ name := "next", type := ⟨18⟩ }] },
    .defineObject ⟨16⟩ { name := some "Second", properties := [{ name := "next", type := ⟨19⟩ }] }]

/-- In a call the literal commits to the string, elsewhere to itself. The unions fit either way, and they
do so further down. -/
theorem conflict?_asArgument_literalUnions :
    let c : Comparison := ⟨{ types := Types.initial.performAll literalUnions }, {}⟩
    let below := oneLayer.push ⟨{}, .node {}⟩
    ((c.program.types.members ⟨18⟩).find? (c.agrees (c.widens oneLayer) · ⟨17⟩) = some ⟨17⟩ ∧
        (c.program.types.members ⟨18⟩).find? (c.asArgument.agrees (c.asArgument.widens oneLayer) · ⟨17⟩) =
          some TypeId.string) ∧
      (c.StaysWithinLimits ⟨18⟩ ⟨19⟩ oneLayer ∧ c.asArgument.conflict? ⟨18⟩ ⟨19⟩ oneLayer = none) ∧
      c.asArgument.StaysWithinLimits ⟨18⟩ ⟨19⟩ below ∧ c.conflict? ⟨18⟩ ⟨19⟩ below = none := by
  intro c below
  have hlimits : c.StaysWithinLimits ⟨18⟩ ⟨19⟩ oneLayer := by decide
  have hbelow : c.asArgument.StaysWithinLimits ⟨18⟩ ⟨19⟩ below := by decide
  refine ⟨⟨by decide, by decide⟩, ⟨hlimits, ?_⟩, hbelow, ?_⟩
  · exact (conflict?_asArgument rfl).1 hlimits (by decide)
  · exact (conflict?_asArgument rfl).2 (by decide) hbelow (by decide)

end Comparison

end Misfit
