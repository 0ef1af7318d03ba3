import Misfit.Proofs.Compare.Compatible
import Mathlib.Logic.Relation

/-!
# Comparing in one direction only

A relaxed comparison does not look the properties of the source up on the target. Fewer shapes differ
then, which can do harm: a member of the source may agree with a member of a target union that stands
before the one that it commits to otherwise, and the pairs left open there need not fit. Nothing else
can, so a relaxed comparison accepts what the full one accepts as long as every member that commits
elsewhere commits to compatible pairs.
-/
namespace Misfit

namespace Comparison

/-- The same comparison, with properties looked up in one direction only. -/
def relaxed (c : Comparison) : Comparison := { c with mode := { c.mode with bothWays := false } }

variable (c : Comparison)

/-- What a comparison of two types asks for next: the elements of two arrays among their members, and the
pairs left open where a member of the source commits. -/
inductive GoesOnTo : TypeId × TypeId → TypeId × TypeId → Prop
  | elements {target source k m te me : TypeId} (hk : k ∈ c.program.types.members target)
      (hm : m ∈ c.program.types.members source) (hte : c.program.types.element? k = some te)
      (hme : c.program.types.element? m = some me) : GoesOnTo (target, source) (te, me)
  | opened {target source k m : TypeId} {pair : NestedPair}
      (hm : m ∈ c.program.types.members source)
      (hk : (c.program.types.members target).find? (c.agrees false · m) = some k)
      (hp : pair ∈ c.openPairs false k m) : GoesOnTo (target, source) (pair.target, pair.source)

/-- The second pair comes up in the comparison of the first one. -/
def ComesUp : TypeId × TypeId → TypeId × TypeId → Prop := Relation.ReflTransGen c.GoesOnTo

/-- Where a member of the source commits to another target once the comparison is relaxed, the pairs left
open there are compatible in one direction. -/
def RelaxesWell (target source : TypeId) : Prop :=
  ∀ m ∈ c.program.types.members source, c.program.types.isArray m = false → ∀ k k',
    (c.program.types.members target).find? (c.agrees false · m) = some k →
      (c.program.types.members target).find? (c.relaxed.agrees false · m) = some k' → k' ≠ k →
        ∀ pair ∈ c.openPairs false k' m, c.relaxed.Compat pair.target pair.source

variable {c} {target source : TypeId}

/-- From two arrays a comparison goes on to their elements. -/
theorem goesOnTo_elements {te se : TypeId} (ht : c.program.types.element? target = some te)
    (hs : c.program.types.element? source = some se) : c.GoesOnTo (target, source) (te, se) := by
  have htarget := Types.isUnion_eq_false_of_isArray (Types.isArray_iff.mpr ⟨te, ht⟩)
  have hsource := Types.isUnion_eq_false_of_isArray (Types.isArray_iff.mpr ⟨se, hs⟩)
  refine .elements ?_ ?_ ht hs
  · rw [Types.members_eq_of_not_isUnion htarget, List.mem_singleton]
  · rw [Types.members_eq_of_not_isUnion hsource, List.mem_singleton]

/-- Shapes that agree in both directions agree in one. -/
theorem agrees_relaxed {wide : Bool} (h : c.agrees wide target source = true) :
    c.relaxed.agrees wide target source = true := by
  rcases Bool.or_eq_true_iff.mp h with hf | hs
  · exact Bool.or_eq_true_iff.mpr (Or.inl hf)
  · obtain ⟨hp, hd⟩ := Bool.and_eq_true_iff.mp hs
    have hforward : (c.program.diffProperties target source).hasProblem = false := by
      have hd' : c.shapesDiffer target source = false := by simpa using hd
      exact (Bool.or_eq_false_iff.mp hd').1
    have hrelaxed : c.relaxed.shapesDiffer target source = false := by
      simpa [shapesDiffer, relaxed] using hforward
    exact Bool.or_eq_true_iff.mpr (Or.inr (Bool.and_eq_true_iff.mpr ⟨hp, by simp [hrelaxed]⟩))

/-- A member that is accepted is accepted when the comparison is relaxed: it commits as before, or where
it commits now the pairs left open fit. -/
theorem AcceptedAmong.relax {X X' : TypeId → TypeId → Prop}
    {m : TypeId} (hm : m ∈ c.program.types.members source) (hwell : c.RelaxesWell target source)
    (hX : ∀ t s, c.GoesOnTo (target, source) (t, s) → X t s → X' t s)
    (hcompat : ∀ t s, c.relaxed.Compat t s → X' t s)
    (h : c.AcceptedAmong false X X (c.program.types.members target) m) :
    c.relaxed.AcceptedAmong false X' X' (c.program.types.members target) m := by
  cases h with
  | @array k ha hk h =>
    refine .array ha hk (h.imp_right ?_)
    rintro ⟨te, me, hte, hme, hx⟩
    exact ⟨te, me, hte, hme, hX te me (.elements hk hm hte hme) hx⟩
  | @other k ha hk h =>
    obtain ⟨hagrees, -⟩ := List.find?_eq_some_iff_append.mp hk
    obtain ⟨k', hk'⟩ := exists_find?_agrees (c := c.relaxed) (List.mem_of_find?_eq_some hk)
      (agrees_relaxed hagrees)
    refine .other ha hk' fun pair hp => ?_
    by_cases heq : k' = k
    · subst heq
      exact hX _ _ (.opened hm hk hp) (h pair hp)
    · exact hcompat _ _ (hwell m hm ha k k' hk hk' heq pair hp)

/-- Compatible types stay compatible when the comparison is relaxed, if every pair that comes up relaxes
well. -/
theorem Compat.relax (h : c.Compat target source)
    (hwell : ∀ t s, c.ComesUp (target, source) (t, s) → c.RelaxesWell t s) :
    c.relaxed.Compat target source := by
  -- What holds of all pairs that come up: they are compatible, in both directions or in one.
  refine compat_of_round (X := fun t s =>
    (c.Compat t s ∧ c.ComesUp (target, source) (t, s)) ∨ c.relaxed.Compat t s) ?_
    (Or.inl ⟨h, .refl⟩)
  rintro t s (⟨hcompat, hup⟩ | hcompat)
  · cases compat_iff_round.mp hcompat with
    | trivial h => exact .trivial h
    | @elements te se hte hse h =>
      exact .elements hte hse (Or.inl ⟨h, hup.tail (goesOnTo_elements hte hse)⟩)
    | members ht hs h =>
      exact .members ht hs fun m hm =>
        (h m hm).relax hm (hwell t s hup) (fun _ _ hnext hx => Or.inl ⟨hx, hup.tail hnext⟩)
          fun _ _ => Or.inr
  · exact (compat_iff_round.mp hcompat).mono (fun _ _ => Or.inr) fun _ _ => Or.inr

/-- Two types that a relaxed comparison rejects, though the full one accepts them and no limit has a part
in it. -/
def LosesByRelaxing (c : Comparison) (target source : TypeId) (trail : Trail) : Prop :=
  c.StaysWithinLimits target source trail ∧ c.conflict? target source trail = none ∧
    c.relaxed.StaysWithinLimits target source trail ∧ c.relaxed.conflict? target source trail ≠ none

instance (c : Comparison) (target source : TypeId) (trail : Trail) :
    Decidable (c.LosesByRelaxing target source trail) :=
  inferInstanceAs (Decidable (_ ∧ _))

/-- The union of an object with one property and of an object with one more, where the types of the
property that both have are `first` and an object with a number. -/
def widerMember (first : Types × TypeId) : Types :=
  let (t, narrow) := first
  let (t, count) := t.object { properties := [{ name := "x", type := TypeId.number }] }
  let (t, short) := t.object { properties := [{ name := "p", type := narrow }] }
  let (t, long) := t.object
    { properties := [{ name := "p", type := count }, { name := "q", type := TypeId.number }] }
  (t.union [short, long]).1

/-- The text of the property is a number in one object and a string in the other. -/
def clashingMember : Types :=
  widerMember (Types.initial.object { properties := [{ name := "x", type := TypeId.string }] })

/-- The property is anything in one object and a number in the other. -/
def lenientMember : Types :=
  widerMember (Types.initial.object { properties := [{ name := "x", type := TypeId.any }] })

/-- A union rejects one of its own members: relaxed, the member agrees with the one before it. -/
theorem relaxed_rejectsMember :
    (⟨{ types := clashingMember }, {}⟩ : Comparison).LosesByRelaxing ⟨19⟩ ⟨18⟩
      (Trail.empty.push ⟨{}, .node {}⟩) := by
  decide

variable {trail : Trail}

/-- Where compatible types are compared in one direction, they fit trivially or they relax well. -/
theorem relaxesWell_of_compat (h : c.relaxed.Compat target source) :
    c.program.types.triviallyFits target source = true ∨ c.RelaxesWell target source := by
  cases compat_iff_round.mp h with
  | trivial h => exact Or.inl h
  | elements hte hse h =>
    have harray : c.program.types.isArray source = true := Types.isArray_iff.mpr ⟨_, hse⟩
    refine Or.inr fun m hm ha => ?_
    rw [Types.eq_of_mem_members (Types.isUnion_eq_false_of_isArray harray) hm, harray] at ha
    simp at ha
  | members ht hs h =>
    refine Or.inr fun m hm ha k k' hk hk' hne pair hp => ?_
    cases h m hm with
    | array ha' _ _ =>
      have hno : c.relaxed.program.types.isArray m = false := ha
      simp [hno] at ha'
    | other _ hfirst h =>
      obtain rfl := Option.some.inj (hk'.symm.trans hfirst)
      exact h pair hp

/-- A relaxed comparison accepts what the full one accepts within its limits, as long as every pair that
comes up relaxes well. The pair itself has to, unless it fits trivially. -/
theorem conflict?_relaxed_of_full (hmode : c.mode.callArgument = false)
    (hl : c.StaysWithinLimits target source trail) (h : c.conflict? target source trail = none) :
    ((∀ t s, c.ComesUp (target, source) (t, s) → c.RelaxesWell t s) →
        c.relaxed.conflict? target source trail = none) ∧
      (c.relaxed.StaysWithinLimits target source trail →
        c.relaxed.conflict? target source trail = none →
          c.program.types.triviallyFits target source = true ∨ c.RelaxesWell target source) := by
  constructor
  · intro hwell
    have hcompat := compat_of_conflict?_eq_none (Or.inl hmode) hl h
    exact conflict?_eq_none_of_compat (hcompat.relax hwell) trail
  · intro hlr hr
    exact relaxesWell_of_compat (compat_of_conflict?_eq_none (Or.inl hmode) hlr hr)

/-- A member that agrees with an earlier member once the comparison is relaxed, and fits it. -/
theorem relaxed_acceptsMember :
    let c : Comparison := ⟨{ types := lenientMember }, {}⟩
    let trail := Trail.empty.push ⟨{}, .node {}⟩
    (c.StaysWithinLimits ⟨19⟩ ⟨18⟩ trail ∧ c.conflict? ⟨19⟩ ⟨18⟩ trail = none) ∧
      c.relaxed.conflict? ⟨19⟩ ⟨18⟩ trail = none ∧ c.RelaxesWell ⟨19⟩ ⟨18⟩ := by
  intro c trail
  have hfull : c.StaysWithinLimits ⟨19⟩ ⟨18⟩ trail ∧ c.conflict? ⟨19⟩ ⟨18⟩ trail = none := by decide
  have hmembers : ∀ m ∈ c.program.types.members ⟨18⟩, m = ⟨18⟩ := by decide
  have hwell : c.RelaxesWell ⟨19⟩ ⟨18⟩ := by
    intro m hm _ k k' _ hk' _ pair hp
    rw [hmembers m hm] at hk' hp
    have hfirst : (c.program.types.members ⟨19⟩).find? (c.relaxed.agrees false · ⟨18⟩) = some ⟨17⟩ := by
      decide
    obtain rfl := Option.some.inj (hfirst.symm.trans hk')
    have hpairs : ∀ pair ∈ c.openPairs false ⟨17⟩ ⟨18⟩,
        c.relaxed.StaysWithinLimits pair.target pair.source trail ∧
          c.relaxed.conflict? pair.target pair.source trail = none := by decide
    exact compat_of_conflict?_eq_none (Or.inl rfl) (hpairs pair hp).1 (hpairs pair hp).2
  -- The comparison of both directions leaves nothing open.
  have hends : ∀ next, ¬c.GoesOnTo (⟨19⟩, ⟨18⟩) next := by
    intro next hnext
    cases hnext with
    | elements hk _ hte _ =>
      have hnone : ∀ k ∈ c.program.types.members ⟨19⟩, c.program.types.element? k = none := by decide
      simp [hnone _ hk] at hte
    | opened hm hk hp =>
      rw [hmembers _ hm] at hk hp
      have hfirst : (c.program.types.members ⟨19⟩).find? (c.agrees false · ⟨18⟩) = some ⟨18⟩ := by
        decide
      obtain rfl := Option.some.inj (hfirst.symm.trans hk)
      have hpairs : c.openPairs false ⟨18⟩ ⟨18⟩ = [] := by decide
      simp [hpairs] at hp
  have hrelaxed := (conflict?_relaxed_of_full rfl hfull.1 hfull.2).1 fun t s hup => by
    rcases Relation.ReflTransGen.cases_head hup with heq | ⟨next, hnext, -⟩
    · obtain ⟨rfl, rfl⟩ := Prod.mk.inj heq
      exact hwell
    · exact (hends next hnext).elim
  exact ⟨hfull, hrelaxed, hwell⟩

end Comparison

end Misfit
