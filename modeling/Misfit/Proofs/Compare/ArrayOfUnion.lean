import Misfit.Proofs.Compare.UnionSource
import Misfit.Proofs.Types.NormalForm

/-!
# Arrays of unions

An array of a union of some types is set against another array like each of the types against its element
type, with the two arrays on the path. What comes back to the arrays comes back to their elements right
after, so having them on the path makes no difference by itself. It makes one that the union is under
comparison and not each of the types: in a call, what comes back to the element type and the union is taken
for granted on one side and compared again on the other, where no literal is widened any more.
-/
namespace Misfit

namespace Types

variable {t : Types} {i : TypeId}

/-- An array of itself is cut off right away where it is printed. -/
theorem render_of_element?_self (h : t.element? i = some i) : t.render i = ellipsis ++ "[]" := by
  have hget : t.get? i = some (.array i) := by
    unfold element? at h
    split at h
    · rename_i element hi
      rw [hi, Option.some.inj h]
    · simp at h
  have hinner : t.renderWithin t.size [i] i = ellipsis := by
    cases t.size <;> simp [renderWithin]
  simp [render, renderWithin, renderWith, hget, needsParentheses, hinner]

end Types

namespace Comparison

variable (c : Comparison)

/-- A comparison in a layer of the given depth accepts, and meets no limit. -/
def AcceptsAt (depth : Nat) (target source : TypeId) : Prop :=
  ∃ trail : Trail, trail.length = depth ∧ c.StaysWithinLimits target source trail ∧
    c.conflict? target source trail = none

/-- Two arrays, where the element type of the one is no union, and that of the other is the union of some
types. No two of them all print the same. -/
structure ArrayOfUnion (target source te se : TypeId) (types : List TypeId) : Prop where
  target_element : c.program.types.element? target = some te
  source_element : c.program.types.element? source = some se
  not_union : c.program.types.isUnion te = false
  gathers : c.program.types.Gathers types se
  arrays : c.program.types.render target = c.program.types.render source → target = source
  elements : ∀ i ∈ se :: types, c.DistinctTexts te i

variable {c} {target source te se i : TypeId} {types : List TypeId} {trail : Trail}

/-- A type that goes on from a type that is neither a union nor an array has properties. -/
theorem GoesOnTo.hasProperties_target {next : TypeId × TypeId}
    (hu : c.program.types.isUnion target = false) (ha : c.program.types.isArray target = false)
    (h : c.GoesOnTo (target, source) next) : (c.program.types.shape target).hasProperties = true := by
  cases h with
  | elements hk _ hte _ =>
    rw [Types.eq_of_mem_members hu hk] at hte
    simp [Types.isArray, hte] at ha
  | opened _ hk hp =>
    have hmem := List.mem_of_find?_eq_some hk
    rw [Types.eq_of_mem_members hu hmem] at hk hp
    obtain ⟨hagrees, -⟩ := List.find?_eq_some_iff_append.mp hk
    exact (Bool.and_eq_true_iff.mp (of_mem_openPairs hagrees hp).1).1

/-- Where something is widened below a layer, a pair can rely on itself only if its target is a union or an
array. -/
theorem AcceptsAt.standsAlone {depth : Nat} (hu : c.program.types.isUnion target = false)
    (hcall : c.mode.callArgument = false ∨ c.program.types.isArray target = false)
    (hdepth : depth ≠ 0) (h : c.AcceptsAt depth target source) : c.StandsAlone target source := by
  obtain ⟨trail, rfl, hl, hnone⟩ := h
  intro hback
  rcases hcall with hmode | ha
  · exact compat_of_conflict?_eq_none (Or.inl hmode) hl hnone
  · obtain ⟨next, hnext, -⟩ := Relation.TransGen.head'_iff.mp hback
    exact compat_of_hasProperties (Or.inl (hnext.hasProperties_target hu ha)) hl hnone hdepth

/-- What is accepted below a layer meets the rules on any path that it stands on, or does not need. -/
theorem AcceptsAt.round {n : Nat} {w : LoggedWalk} (h : c.AcceptsAt trail.length target source)
    (hlength : trail.length ≠ 0) (halone : w.OnPath target source ∨
      c.program.types.isUnion source = false ∨ c.StandsAlone target source) :
    c.Round (c.widens trail) (AcceptedFrom (c.compareLogged n) w trail.length)
      (AcceptedFrom (c.compareLogged n) w (trail.length + 1)) target source := by
  obtain ⟨trail', htrail, hl, hnone⟩ := h
  have haccepted := acceptedRound_firstRound hl hnone
  rw [← htrail, ← widens_congr htrail]
  refine (carriesOver depthBelow n).round haccepted.depth haccepted.withinLimits haccepted.accepted
    fun next hnext => ?_
  rcases halone with hon | hu | halone
  · intro t s ht
    obtain ⟨rfl, rfl⟩ := (onPath_firstRound target source t s).mp ht
    exact Or.inl hon
  · exact makesUpFor_of_member hu hl hnone (fun hzero => by omega) hnext _
  · exact halone.makesUpFor hnext _

theorem compat_of_elements (ht : c.program.types.element? target = some te)
    (hs : c.program.types.element? source = some se) (h : c.Compat te se) : c.Compat target source :=
  compat_iff_round.mpr (.elements ht hs h)

/-- Two arrays that fit by their elements only. -/
theorem compat_elements (hf : c.program.types.triviallyFits target source = false)
    (ht : c.program.types.element? target = some te) (hs : c.program.types.element? source = some se)
    (h : c.Compat target source) : c.Compat te se := by
  cases compat_iff_round.mp h with
  | trivial h => simp [hf] at h
  | elements ht' hs' h =>
    obtain rfl := Option.some.inj (ht.symm.trans ht')
    obtain rfl := Option.some.inj (hs.symm.trans hs')
    exact h
  | members hta =>
    have hu := hta (Types.isArray_iff.mpr ⟨te, ht⟩)
    rw [Types.isUnion_eq_false_of_isArray (Types.isArray_iff.mpr ⟨se, hs⟩)] at hu
    simp at hu

/-- Assuming two arrays while their elements are compared adds nothing to what fits. -/
theorem CompatUnder.compat_of_elements (ht : c.program.types.element? target = some te)
    (hs : c.program.types.element? source = some se)
    (h : c.CompatUnder (firstRound target source).OnPath te se) : c.Compat te se := by
  have hon := onPath_firstRound target source
  have harrays : c.CompatUnder (firstRound target source).OnPath target source :=
    compatUnder_iff_round.mpr (.elements ht hs (Or.inl h))
  have hcompat : c.Compat target source :=
    (harrays.discharge (A := fun _ _ => False) fun t s hts => Or.inr ((hon t s).mp hts)).compat
      fun _ _ hfalse => hfalse.elim
  refine h.compat fun t s hts => ?_
  obtain ⟨rfl, rfl⟩ := (hon t s).mp hts
  exact hcompat

namespace ArrayOfUnion

variable (h : c.ArrayOfUnion target source te se types) (hs : c.program.types.Sound)
include h hs

/-- Only where the two arrays are the same do they fit without their elements compared. -/
theorem element_eq_of_triviallyFits (hf : c.program.types.triviallyFits target source = true) :
    te = se := by
  have hne : ∀ i, (c.program.types.element? i).isSome = true → i ≠ TypeId.any := by
    rintro _ hi rfl
    simp [Types.element?, hs.get?_any] at hi
  have htarget := hne target (by simp [h.target_element])
  have hsource := hne source (by simp [h.source_element])
  have heq : target = source := by
    by_contra hneq
    simp [Types.triviallyFits, hneq, htarget, hsource, mt h.arrays hneq] at hf
  exact Option.some.inj (h.target_element.symm.trans (heq ▸ h.source_element))

/-- A round against the union fits if the rounds against the types do, because they have its members. -/
theorem round_iff {wide : Bool} {X Y : TypeId → TypeId → Prop} :
    c.Round wide X Y te se ↔ ∀ i ∈ types, c.Round wide X Y te i := by
  have hmembers : ∀ i ∈ se :: types, c.Round wide X Y te i ↔
      ∀ m ∈ c.program.types.members i, c.AcceptedAmong wide X Y [te] m :=
    fun i hi => round_iff_members hs h.not_union (h.elements i hi)
  rw [hmembers se List.mem_cons_self]
  constructor
  · intro hround i hi
    rw [hmembers i (List.mem_cons_of_mem se hi)]
    exact fun m hm => hround m ((h.gathers m).mpr ⟨i, hi, hm⟩)
  · intro hrounds m hm
    obtain ⟨i, hi, hmem⟩ := (h.gathers m).mp hm
    exact (hmembers i (List.mem_cons_of_mem se hi)).mp (hrounds i hi) m hmem

/-- An array of a union fits if each of the types does, and those that are unions stand alone. -/
theorem conflict?_eq_none (hlength : trail.length ≠ 0)
    (halone : ∀ i ∈ types, i = se ∨ c.program.types.isUnion i = false ∨ c.StandsAlone te i)
    (haccepts : ∀ i ∈ types, c.AcceptsAt trail.length te i) :
    c.conflict? target source trail = none := by
  rw [conflict?_eq_compareEntered]
  by_cases hf : c.program.types.triviallyFits target source = true
  · rw [compareEntered_of_triviallyFits hf]
  rw [compareEntered_of_elements (by simpa using hf) h.target_element h.source_element]
  by_cases hw : ((firstRound target source).enter (te, se)).1 = .entered
  · have hdepth : depthBelow = (depthBelow - 1) + 1 := by decide
    have hon := (LoggedWalk.onPath_enter hw te se).mpr (Or.inl ⟨rfl, rfl⟩)
    rw [hdepth, compareLogged_of_entered hw]
    refine compareEntered_of_acceptedFrom rfl ((h.round_iff hs).mpr fun i hi => ?_)
    refine (haccepts i hi).round hlength ((halone i hi).imp_left ?_)
    rintro rfl
    exact hon
  · rw [compareLogged_of_refused hw]

/-- What the comparison of the arrays accepts, it accepts trivially or in a round on their elements. -/
theorem acceptedRound (hl : c.StaysWithinLimits target source trail)
    (hnone : c.conflict? target source trail = none) :
    te = se ∨ ∃ n v, c.AcceptedRound n te se trail (firstRound target source) v := by
  by_cases hf : c.program.types.triviallyFits target source = true
  · exact Or.inl (h.element_eq_of_triviallyFits hs hf)
  have hf' : c.program.types.triviallyFits target source = false := by simpa using hf
  rw [conflict?_eq_compareEntered, compareEntered_of_elements hf' h.target_element h.source_element] at hnone
  rw [staysWithinLimits_iff, compareEntered_of_elements hf' h.target_element h.source_element] at hl
  rcases onPath_or_acceptedRound (limits_firstRound target source) hl hnone with hon | ⟨n, v, -, hv⟩
  · -- Both arrays would be arrays of themselves, and print the same.
    obtain ⟨rfl, rfl⟩ := (onPath_firstRound target source te se).mp hon
    have htexts := Types.render_of_element?_self h.target_element
    exact Or.inl (h.arrays (htexts.trans (Types.render_of_element?_self h.source_element).symm))
  · exact Or.inr ⟨n, v, hv⟩

section Path

variable {n : Nat} {w v : LoggedWalk} {next : TypeId × TypeId}

omit hs in
/-- The two arrays need not be on the path of their elements: they are met again by them. -/
theorem makesUpFor_elements (hv : c.AcceptedRound n te se trail (firstRound target source) v) :
    c.MakesUpFor (firstRound te se) v next := by
  have hself : (firstRound te se).OnPath te se := (onPath_firstRound te se te se).mpr ⟨rfl, rfl⟩
  have htarget := Types.isUnion_eq_false_of_isArray (Types.isArray_iff.mpr ⟨te, h.target_element⟩)
  intro t s hon
  rcases (hv.onPath t s).mp hon with ⟨rfl, rfl⟩ | hon
  · exact Or.inl hself
  · obtain ⟨rfl, rfl⟩ := (onPath_firstRound target source t s).mp hon
    have hmem : t ∈ c.program.types.members t := by simp [Types.members_eq_of_not_isUnion htarget]
    exact Or.inr (Or.inl ⟨t, hmem, te, se, h.target_element, h.source_element, Or.inl hself⟩)

omit hs in
/-- Nor need the elements be there if they stand alone: what comes back to the arrays comes back to them. -/
theorem makesUpFor_of_standsAlone (hv : c.AcceptedRound n te se trail (firstRound target source) v)
    (halone : c.StandsAlone te se) (hnext : c.GoesOnTo (te, se) next) (w : LoggedWalk) :
    c.MakesUpFor w v next := by
  intro t s hon
  by_cases hup : c.ComesUp next (t, s)
  · refine Or.inr (Or.inr (Or.inr ?_))
    rcases (hv.onPath t s).mp hon with ⟨rfl, rfl⟩ | hon
    · exact halone (.head' hnext hup)
    · obtain ⟨rfl, rfl⟩ := (onPath_firstRound target source t s).mp hon
      have hback := hup.tail (goesOnTo_elements h.target_element h.source_element)
      exact compat_of_elements h.target_element h.source_element (halone (.head' hnext hback))
  · exact Or.inr (Or.inr (Or.inl hup))

end Path

/-- Each of the types fits if the array of the union does, and the union stands alone. -/
theorem conflict?_element_eq_none (hl : c.StaysWithinLimits target source trail)
    (hnone : c.conflict? target source trail = none) (hi : i ∈ types)
    (halone : i = se ∨ c.StandsAlone te se) {trail' : Trail} (htrail : trail'.length = trail.length) :
    c.conflict? te i trail' = none := by
  rw [conflict?_eq_compareEntered]
  refine compareEntered_of_acceptedFrom htrail ((h.round_iff hs).mp ?_ i hi)
  rcases h.acceptedRound hs hl hnone with rfl | ⟨n, v, hv⟩
  · exact .trivial (by simp [Types.triviallyFits])
  refine (carriesOver n depthBelow).round hv.depth hv.withinLimits hv.accepted fun next hnext => ?_
  rcases halone with rfl | halone
  · exact h.makesUpFor_elements hv
  · exact h.makesUpFor_of_standsAlone hv halone hnext _

/-- The element type and the union stand alone where nothing is widened, or where the element type is no
array. -/
theorem standsAlone (hlength : trail.length ≠ 0)
    (hcall : c.mode.callArgument = false ∨ c.program.types.isArray te = false)
    (hl : c.StaysWithinLimits target source trail) (hnone : c.conflict? target source trail = none) :
    c.StandsAlone te se := by
  by_cases heq : te = se
  · exact fun _ => heq ▸ compat_iff_round.mpr (.trivial (by simp [Types.triviallyFits]))
  intro hback
  rcases hcall with hmode | ha
  · have hcompat := compat_of_conflict?_eq_none (Or.inl hmode) hl hnone
    have hf := mt (h.element_eq_of_triviallyFits hs) heq
    exact compat_elements (by simpa using hf) h.target_element h.source_element hcompat
  · obtain ⟨n, v, hv⟩ := (h.acceptedRound hs hl hnone).resolve_left heq
    obtain ⟨next, hnext, -⟩ := Relation.TransGen.head'_iff.mp hback
    have hunder := hv.compatUnder (Or.inl (hnext.hasProperties_target h.not_union ha)) hlength
    exact hunder.compat_of_elements h.target_element h.source_element

end ArrayOfUnion

end Comparison

end Misfit
