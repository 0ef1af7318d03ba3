import Misfit.Proofs.Compare.UnionTarget
import Misfit.Proofs.Types.Operations

/-!
# Unions as sources

A union fits a target if each of its members does. The round against the union and the rounds against its
members ask for the same, so where nothing comes back to the types under comparison this is plain. Where
something does, it is taken for granted in the comparison that it comes back to, and compared in the
others. Where no literal is widened this makes no difference, because what is taken for granted is
compatible. But widening ends one layer further down, and a pair that fits only because a literal in it
was widened does not fit again there.

A member that is a union itself is another matter: it is not taken apart among the members of a union.
-/
namespace Misfit

namespace Comparison

variable (c : Comparison)

/-- Where the comparison of two types comes back to them, they fit without any literal widened. -/
def StandsAlone (target source : TypeId) : Prop :=
  Relation.TransGen c.GoesOnTo (target, source) (target, source) → c.Compat target source

/-- The target has the text of the type or of a member of it only if it is that type. -/
def DistinctTexts (target source : TypeId) : Prop :=
  ∀ i ∈ source :: c.program.types.members source,
    c.program.types.render target = c.program.types.render i → target = i

instance (target source : TypeId) : Decidable (c.DistinctTexts target source) :=
  inferInstanceAs (Decidable (∀ i ∈ _, _))

variable {c} {target source m : TypeId} {trail : Trail} {wide : Bool} {X Y : TypeId → TypeId → Prop}

/-- A round against a type that is not a union accepts it among the members of the target. -/
theorem Round.acceptedAmong (hs : c.program.types.Sound) (hm : c.program.types.isUnion m = false)
    (htext : c.program.types.render target = c.program.types.render m → target = m)
    (h : c.Round wide X Y target m) :
    c.AcceptedAmong wide X Y (c.program.types.members target) m := by
  cases h with
  | trivial h =>
    obtain ⟨k, hk⟩ := hs.exists_mem_members target
    refine .of_triviallyFits hk fun k hk => ?_
    cases ht : c.program.types.isUnion target with
    | false =>
      rw [Types.eq_of_mem_members ht hk]
      exact h
    | true =>
      -- A union fits another type trivially only if that is `any`.
      have hne : target ≠ m := by
        rintro rfl
        simp [ht] at hm
      have hany : target ≠ TypeId.any := by
        rintro rfl
        simp [hs.isUnion_any] at ht
      have hmany : m = TypeId.any := by
        simpa [Types.triviallyFits, hne, hany, mt htext hne] using h
      simp [Types.triviallyFits, hmany]
  | elements ht hse h =>
    have htarget := Types.isUnion_eq_false_of_isArray (Types.isArray_iff.mpr ⟨_, ht⟩)
    rw [Types.members_eq_of_not_isUnion htarget]
    exact .array (Types.isArray_iff.mpr ⟨_, hse⟩) (List.mem_singleton_self _) (Or.inr ⟨_, _, ht, hse, h⟩)
  | members ht hse h => exact h m (by simp [Types.members_eq_of_not_isUnion hm])

/-- A type that is not a union is accepted by a round if it is accepted among the members of the target. -/
theorem Round.of_acceptedAmong (hm : c.program.types.isUnion m = false)
    (h : c.AcceptedAmong wide X Y (c.program.types.members target) m) : c.Round wide X Y target m := by
  have hmembers : (c.program.types.isArray target = true → c.program.types.isUnion m = true) →
      (c.program.types.isArray m = true → c.program.types.isUnion target = true) →
      c.Round wide X Y target m := fun hta hma =>
    .members hta hma fun m' hm' => by
      rw [Types.eq_of_mem_members hm hm']
      exact h
  cases ht : c.program.types.isUnion target with
  | true =>
    exact hmembers (fun ha => by simp [Types.isArray_eq_false_of_isUnion ht] at ha) fun _ => ht
  | false =>
    -- Where one of the two is an array, they fit trivially or by their elements.
    cases h with
    | @array k ha hk h =>
      obtain rfl := Types.eq_of_mem_members ht hk
      rcases h with h | ⟨te, me, hte, hme, hx⟩
      · exact .trivial ((fitsAtOnce_of_isArray (Or.inr ha) wide).symm.trans h)
      · exact .elements hte hme hx
    | @other k ha hk h =>
      obtain rfl := Types.eq_of_mem_members ht (List.mem_of_find?_eq_some hk)
      cases hka : c.program.types.isArray k with
      | false => exact hmembers (by simp [hka]) (by simp [ha])
      | true =>
        have hagrees := List.find?_some hk
        rw [agrees, haveProperties_of_isArray (Or.inl hka), fitsAtOnce_of_isArray (Or.inl hka)] at hagrees
        exact .trivial (by simpa using hagrees)

/-- A round against a union fits if the rounds against its members do. -/
theorem round_iff_of_isUnion (hs : c.program.types.Sound)
    (hsource : c.program.types.isUnion source = true)
    (hm : ∀ m ∈ c.program.types.members source, c.program.types.isUnion m = false)
    (hne : target ≠ source) (htext : c.DistinctTexts target source) :
    c.Round wide X Y target source ↔
      ∀ m ∈ c.program.types.members source, c.Round wide X Y target m := by
  constructor
  · intro h m hmem
    refine .of_acceptedAmong (hm m hmem) ?_
    cases h with
    | trivial h =>
      have hany : source ≠ TypeId.any := by
        rintro rfl
        simp [hs.isUnion_any] at hsource
      have htarget : target = TypeId.any := by
        simpa [Types.triviallyFits, hne, hany,
          mt (htext source List.mem_cons_self) hne] using h
      have hmembers : c.program.types.members target = [TypeId.any] := by
        rw [htarget, Types.members_eq_of_not_isUnion hs.isUnion_any]
      refine .of_triviallyFits (k := target) (by rw [hmembers, htarget]; simp) fun k hk => ?_
      rw [hmembers, List.mem_singleton] at hk
      simp [Types.triviallyFits, hk]
    | elements ht hse h =>
      have hno := Types.isArray_eq_false_of_isUnion hsource
      simp [Types.isArray, hse] at hno
    | members ht hse h => exact h m hmem
  · intro h
    refine .members (fun _ => hsource) (fun ha => ?_) fun m hmem =>
      (h m hmem).acceptedAmong hs (hm m hmem) (htext m (List.mem_cons_of_mem _ hmem))
    simp [Types.isArray_eq_false_of_isUnion hsource] at ha

/-- A type that is not a union fits another one exactly if it accepts each member of it. -/
theorem round_iff_members (hs : c.program.types.Sound) (ht : c.program.types.isUnion target = false)
    (htext : c.DistinctTexts target source) :
    c.Round wide X Y target source ↔
      ∀ m ∈ c.program.types.members source, c.AcceptedAmong wide X Y [target] m := by
  constructor
  · intro h
    by_cases hany : source = TypeId.any
    · intro m hm
      rw [hany, Types.members_eq_of_not_isUnion hs.isUnion_any, List.mem_singleton] at hm
      exact .of_triviallyFits (List.mem_singleton_self target) (by simp [Types.triviallyFits, hm])
    · refine h.accepted ht hany fun hu heq => ?_
      rw [htext source List.mem_cons_self heq] at ht
      simp [ht] at hu
  · intro h
    cases hu : c.program.types.isUnion source with
    | false =>
      refine .of_acceptedAmong hu ?_
      rw [Types.members_eq_of_not_isUnion ht]
      exact h source (by simp [Types.members_eq_of_not_isUnion hu])
    | true =>
      refine .members (fun _ => hu) (fun ha => ?_) ?_
      · simp [Types.isArray_eq_false_of_isUnion hu] at ha
      · rwa [Types.members_eq_of_not_isUnion ht]

theorem standsAlone_of_neverWidens (hp : c.NeverWidens trail)
    (hl : c.StaysWithinLimits target source trail) (h : c.conflict? target source trail = none) :
    c.StandsAlone target source :=
  fun _ => compat_of_conflict?_eq_none hp hl h

/-- A path without two types that stand alone makes up for the one that starts with them. -/
theorem StandsAlone.makesUpFor (h : c.StandsAlone target source) {next : TypeId × TypeId}
    (hnext : c.GoesOnTo (target, source) next) (w : LoggedWalk) :
    c.MakesUpFor w (firstRound target source) next := by
  intro t s hon
  obtain ⟨rfl, rfl⟩ := (onPath_firstRound target source t s).mp hon
  by_cases hup : c.ComesUp next (t, s)
  · exact Or.inr (Or.inr (Or.inr (h (.head' hnext hup))))
  · exact Or.inr (Or.inr (Or.inl hup))

/-- A comparison with a type that is not a union goes on to elements, or the type has properties. -/
theorem GoesOnTo.elements_or_hasProperties {next : TypeId × TypeId}
    (hm : c.program.types.isUnion m = false) (h : c.GoesOnTo (target, m) next) :
    (∃ k ∈ c.program.types.members target, c.program.types.element? k = some next.1 ∧
      c.program.types.element? m = some next.2) ∨ (c.program.types.shape m).hasProperties = true := by
  cases h with
  | elements hk hm' hte hme =>
    obtain rfl := Types.eq_of_mem_members hm hm'
    exact Or.inl ⟨_, hk, hte, hme⟩
  | @opened _ _ k m' _ hm' hk hp =>
    obtain rfl := Types.eq_of_mem_members hm hm'
    obtain ⟨hagrees, -⟩ := List.find?_eq_some_iff_append.mp hk
    exact Or.inr (Bool.and_eq_true_iff.mp (of_mem_openPairs hagrees hp).1).2

/-- Any path makes up for the path of an accepted member. An array is met again by its elements, and below
a layer a type with properties is compatible. -/
theorem makesUpFor_of_member (hm : c.program.types.isUnion m = false)
    (hl : c.StaysWithinLimits target m trail) (h : c.conflict? target m trail = none)
    (halone : trail.length = 0 → c.program.types.isArray m = false → c.StandsAlone target m)
    {next : TypeId × TypeId} (hnext : c.GoesOnTo (target, m) next) (w : LoggedWalk) :
    c.MakesUpFor w (firstRound target m) next := by
  rcases hnext.elements_or_hasProperties hm with ⟨k, hk, hte, hme⟩ | hprops
  · intro t s hon
    obtain ⟨rfl, rfl⟩ := (onPath_firstRound target m t s).mp hon
    exact Or.inr (Or.inl ⟨k, hk, next.1, next.2, hte, hme, Or.inr rfl⟩)
  · refine StandsAlone.makesUpFor ?_ hnext w
    by_cases hlength : trail.length = 0
    · exact halone hlength (of_hasProperties hprops).1
    · exact fun _ => compat_of_hasProperties (Or.inr hprops) hl h hlength

/-- Two types stand alone if no array comes up after them, and all pairs left open are in a list without
them. -/
theorem standsAlone_of_list {l : List (TypeId × TypeId)}
    (harray : ∀ p ∈ (target, source) :: l, ∀ k ∈ c.program.types.members p.1,
      c.program.types.isArray k = false)
    (hopen : ∀ p ∈ (target, source) :: l, ∀ k ∈ c.program.types.members p.1,
      ∀ m ∈ c.program.types.members p.2, ∀ pair ∈ c.openPairs false k m, (pair.target, pair.source) ∈ l)
    (hnot : (target, source) ∉ l) : c.StandsAlone target source := by
  have hnext : ∀ p ∈ (target, source) :: l, ∀ next, c.GoesOnTo p next → next ∈ l := by
    intro p hp next h
    cases h with
    | elements hk hm hte hme =>
      have hno := harray _ hp _ hk
      simp [Types.isArray, hte] at hno
    | opened hm hk hpair => exact hopen _ hp _ (List.mem_of_find?_eq_some hk) _ hm _ hpair
  have hmem : ∀ p, Relation.TransGen c.GoesOnTo (target, source) p → p ∈ l := by
    intro p hp
    induction hp with
    | single h => exact hnext _ List.mem_cons_self _ h
    | tail _ h ih => exact hnext _ (List.mem_cons_of_mem _ ih) _ h
  exact fun hback => (hnot (hmem _ hback)).elim

variable (c) in
/-- The source is a union of types that are not unions, and its comparison and those of its members meet
no limit. -/
structure UnitesWithinLimits (target source : TypeId) (trail : Trail) : Prop where
  isUnion : c.program.types.isUnion source = true
  members : ∀ m ∈ c.program.types.members source, c.program.types.isUnion m = false
  union : c.StaysWithinLimits target source trail
  member : ∀ m ∈ c.program.types.members source, c.StaysWithinLimits target m trail

/-- A union fits where each of its members does. -/
theorem conflict?_eq_none_of_members (hs : c.program.types.Sound)
    (hu : c.UnitesWithinLimits target source trail) (hne : target ≠ source)
    (htext : c.DistinctTexts target source)
    (halone : trail.length = 0 → ∀ m ∈ c.program.types.members source,
      c.program.types.isArray m = false → c.StandsAlone target m)
    (h : ∀ m ∈ c.program.types.members source, c.conflict? target m trail = none) :
    c.conflict? target source trail = none := by
  rw [conflict?_eq_compareEntered]
  refine compareEntered_of_acceptedFrom rfl
    ((round_iff_of_isUnion hs hu.isUnion hu.members hne htext).mpr fun m hmem => ?_)
  have hnone := h m hmem
  rw [conflict?_eq_compareEntered] at hnone
  exact (carriesOver depthBelow depthBelow).round (limits_firstRound target m)
    (staysWithinLimits_iff.mp (hu.member m hmem)) hnone fun next hnext =>
      makesUpFor_of_member (hu.members m hmem) (hu.member m hmem) (h m hmem)
        (fun hlength => halone hlength m hmem) hnext _

/-- Each member of a union that stands alone fits where the union does. -/
theorem conflict?_member_eq_none (hs : c.program.types.Sound)
    (hu : c.UnitesWithinLimits target source trail) (hne : target ≠ source)
    (htext : c.DistinctTexts target source) (halone : c.StandsAlone target source)
    (h : c.conflict? target source trail = none) :
    ∀ m ∈ c.program.types.members source, c.conflict? target m trail = none := by
  intro m hmem
  rw [conflict?_eq_compareEntered] at h ⊢
  have hround := (carriesOver depthBelow depthBelow).round (limits_firstRound target source)
    (staysWithinLimits_iff.mp hu.union) h fun next hnext => halone.makesUpFor hnext (firstRound target m)
  exact compareEntered_of_acceptedFrom rfl
    ((round_iff_of_isUnion hs hu.isUnion hu.members hne htext).mp hround m hmem)

variable (c) in
/-- The union and its members do not fit alike, though no two types print the same and no limit has a part
in it. -/
def FitsUnevenly (target source : TypeId) (trail : Trail) : Prop :=
  ((List.range c.program.types.size).map fun i => c.program.types.render ⟨i⟩).Nodup ∧
    c.program.types.isUnion source = true ∧ target ≠ source ∧
    c.StaysWithinLimits target source trail ∧
    (∀ m ∈ c.program.types.members source, c.StaysWithinLimits target m trail) ∧
    ¬(c.conflict? target source trail = none ↔
      ∀ m ∈ c.program.types.members source, c.conflict? target m trail = none)

instance (target source : TypeId) (trail : Trail) : Decidable (c.FitsUnevenly target source trail) :=
  inferInstanceAs (Decidable (_ ∧ _))

/-- A union of a string and an object type that leads back to it, and a union of a literal and such an
object type. -/
def returningUnions : List Types.Operation :=
  [.declareObject "First", .declareObject "Second", .literal (.string "a"),
    .union [TypeId.string, ⟨15⟩], .union [⟨17⟩, ⟨16⟩],
    .defineObject ⟨15⟩ { name := some "First", properties := [{ name := "next", type := ⟨18⟩ }] },
    .defineObject ⟨16⟩ { name := some "Second", properties := [{ name := "next", type := ⟨19⟩ }] }]

/-- Two unions of an object type, with a property that leads back and one whose types fit only if a literal
is widened. The second object type leads back to the given type. -/
def returningBeside (next : TypeId) : List Types.Operation :=
  [.declareObject "First", .declareObject "Second", .literal (.string "a"),
    .object { properties := [{ name := "x", type := TypeId.number }] },
    .union [TypeId.string, ⟨18⟩], .union [⟨17⟩, ⟨18⟩], .union [⟨15⟩, ⟨18⟩], .union [⟨16⟩, ⟨18⟩],
    .defineObject ⟨15⟩ { name := some "First", properties :=
      [{ name := "next", type := ⟨21⟩ }, { name := "value", type := ⟨19⟩ }] },
    .defineObject ⟨16⟩ { name := some "Second", properties :=
      [{ name := "next", type := next }, { name := "value", type := ⟨20⟩ }] }]

/-- A union that was entered before the union among its members, and a union of all their members. -/
def nestedUnions : List Types.Operation :=
  [.union [⟨16⟩, TypeId.boolean], .union [TypeId.string, TypeId.number],
    .union [TypeId.string, TypeId.number, TypeId.boolean, TypeId.null]]

/-- In a call a union can fit without a member of it, if it leads back to itself and fits only because it is
taken for granted there: by a literal of its own, or without a layer above by one in a property. Without a
layer above it can also fail though its members fit, if one of them leads back to itself. And it fails,
call or not, if a member of it is a union. -/
theorem union_fitsUnevenly :
    let c (ops : List Types.Operation) (mode : Mode) : Comparison :=
      ⟨{ types := Types.initial.performAll ops }, mode⟩
    (c returningUnions Mode.call).FitsUnevenly ⟨18⟩ ⟨19⟩ oneLayer ∧
      (c (returningBeside ⟨22⟩) Mode.call).FitsUnevenly ⟨21⟩ ⟨22⟩ Trail.empty ∧
      (c (returningBeside ⟨16⟩) Mode.call).FitsUnevenly ⟨21⟩ ⟨22⟩ Trail.empty ∧
      (c nestedUnions {}).FitsUnevenly ⟨17⟩ ⟨15⟩ oneLayer := by
  refine ⟨by decide, by decide, by decide, by decide⟩

/-- Where no literal is widened, a union fits exactly if each of its members does. Where one may be, it
fits if they do, unless there is no layer above and a member relies on its own comparison; and they fit if
it does, unless it relies on its own comparison. -/
theorem unionSource_iff_members (hs : c.program.types.Sound)
    (hu : c.UnitesWithinLimits target source trail) (hne : target ≠ source)
    (htext : c.DistinctTexts target source) :
    (c.NeverWidens trail → (c.conflict? target source trail = none ↔
        ∀ m ∈ c.program.types.members source, c.conflict? target m trail = none)) ∧
      ((trail.length = 0 → ∀ m ∈ c.program.types.members source,
          c.program.types.isArray m = false → c.StandsAlone target m) →
        (∀ m ∈ c.program.types.members source, c.conflict? target m trail = none) →
          c.conflict? target source trail = none) ∧
      (c.StandsAlone target source → c.conflict? target source trail = none →
        ∀ m ∈ c.program.types.members source, c.conflict? target m trail = none) := by
  refine ⟨fun hp => ⟨fun h => ?_, fun h => ?_⟩, conflict?_eq_none_of_members hs hu hne htext,
    conflict?_member_eq_none hs hu hne htext⟩
  · exact conflict?_member_eq_none hs hu hne htext (standsAlone_of_neverWidens hp hu.union h) h
  · exact conflict?_eq_none_of_members hs hu hne htext
      (fun _ m hm _ => standsAlone_of_neverWidens hp (hu.member m hm) (h m hm)) h

/-- A union of a string and an object type that mentions itself, and a union of a literal and such an object
type. -/
def selfUnions : List Types.Operation :=
  [.declareObject "First", .declareObject "Second", .literal (.string "a"),
    .union [TypeId.string, ⟨15⟩], .union [⟨17⟩, ⟨16⟩],
    .defineObject ⟨15⟩ { name := some "First", properties := [{ name := "next", type := ⟨15⟩ }] },
    .defineObject ⟨16⟩ { name := some "Second", properties := [{ name := "next", type := ⟨16⟩ }] }]

/-- In a call the second union fits the first one, as its members do. Elsewhere the literal does not fit,
and neither does the union. -/
theorem unionSource_selfUnions :
    let c (mode : Mode) : Comparison := ⟨{ types := Types.initial.performAll selfUnions }, mode⟩
    ((c Mode.call).UnitesWithinLimits ⟨18⟩ ⟨19⟩ oneLayer ∧ (c Mode.call).DistinctTexts ⟨18⟩ ⟨19⟩ ∧
        (c Mode.call).StandsAlone ⟨18⟩ ⟨19⟩ ∧ (c Mode.call).conflict? ⟨18⟩ ⟨19⟩ oneLayer = none ∧
        ∀ m ∈ (c Mode.call).program.types.members ⟨19⟩,
          (c Mode.call).conflict? ⟨18⟩ m oneLayer = none) ∧
      (c {}).UnitesWithinLimits ⟨18⟩ ⟨19⟩ oneLayer ∧ (c {}).DistinctTexts ⟨18⟩ ⟨19⟩ ∧
        (c {}).conflict? ⟨18⟩ ⟨17⟩ oneLayer ≠ none ∧ (c {}).conflict? ⟨18⟩ ⟨19⟩ oneLayer ≠ none := by
  intro c
  have hs : ∀ mode, (c mode).program.types.Sound :=
    fun _ => (Types.Built.initial.performAll selfUnions).sound
  have hcall : (c Mode.call).UnitesWithinLimits ⟨18⟩ ⟨19⟩ oneLayer :=
    ⟨by decide, by decide, by decide, by decide⟩
  have hplain : (c {}).UnitesWithinLimits ⟨18⟩ ⟨19⟩ oneLayer :=
    ⟨by decide, by decide, by decide, by decide⟩
  have halone : (c Mode.call).StandsAlone ⟨18⟩ ⟨19⟩ :=
    standsAlone_of_list (l := [(⟨15⟩, ⟨16⟩)]) (by decide) (by decide) (by decide)
  have hfits : (c Mode.call).conflict? ⟨18⟩ ⟨19⟩ oneLayer = none := by decide
  have hclash : (c {}).conflict? ⟨18⟩ ⟨17⟩ oneLayer ≠ none := by decide
  refine ⟨⟨hcall, by decide, halone, hfits, ?_⟩, hplain, by decide, hclash, fun hnone => hclash ?_⟩
  · exact (unionSource_iff_members (hs _) hcall (by decide) (by decide)).2.2 halone hfits
  · exact ((unionSource_iff_members (hs _) hplain (by decide) (by decide)).1 (Or.inl rfl)).mp hnone _
      (by decide)

end Comparison

end Misfit
