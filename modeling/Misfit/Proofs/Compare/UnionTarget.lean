import Misfit.Proofs.Compare.Paths
import Mathlib.Data.List.Find

/-!
# Unions as targets

A union does not accept everything that one of its members accepts. A member of the source commits to
the first target that it agrees with on the surface, and where the pairs left open there conflict, the
targets after it are not tried. So a union accepts what a member of it accepts exactly if the source
commits to compatible pairs.

This leaves three cases out. A member that is a union itself is not taken apart again. A source that is a
union can have the text of the member and fit it for that, which says nothing of its own members. And
where literals are widened, an array can rely on a pair further up that is compared again, one layer
deeper, when the union is in its place.
-/
namespace Misfit

namespace Comparison

variable (c : Comparison)

/-- Wherever the source commits, the pairs left open are compatible. Arrays do not commit. -/
def CommitsWell (wide : Bool) (target source : TypeId) : Prop :=
  ∀ m ∈ c.program.types.members source, c.program.types.isArray m = false →
    ∀ k, (c.program.types.members target).find? (c.agrees wide · m) = some k →
      ∀ pair ∈ c.openPairs wide k m, c.Compat pair.target pair.source

/-- Seen from a pair under comparison, the path of `w'` makes up for the path of `w`: a pair that is
missing there consists of arrays whose elements are on it or under comparison. -/
def Covers (w' w : LoggedWalk) (target source : TypeId) : Prop :=
  ∀ t s, w.OnPath t s → w'.OnPath t s ∨
    ∃ te se, c.program.types.element? t = some te ∧ c.program.types.element? s = some se ∧
      (w'.OnPath te se ∨ te = target ∧ se = source)

variable {c} {target source k : TypeId} {trail : Trail}

/-- What one target accepts is accepted among several targets if it commits well there. -/
theorem AcceptedAmong.among {wide : Bool} {X X' Y Y' : TypeId → TypeId → Prop} {m : TypeId}
    {targets : List TypeId} (hk : k ∈ targets)
    (hX : ∀ te me, c.program.types.element? k = some te → c.program.types.element? m = some me →
      X te me → X' te me)
    (hY : c.program.types.isArray m = false → ∀ first,
      targets.find? (c.agrees wide · m) = some first →
        ∀ pair ∈ c.openPairs wide first m, Y' pair.target pair.source)
    (h : c.AcceptedAmong wide X Y [k] m) : c.AcceptedAmong wide X' Y' targets m := by
  cases h with
  | array ha ht h =>
    obtain rfl := List.mem_singleton.mp ht
    refine .array ha hk (h.imp_right ?_)
    rintro ⟨te, me, hte, hme, hx⟩
    exact ⟨te, me, hte, hme, hX te me hte hme hx⟩
  | other ha ht h =>
    obtain rfl := List.mem_singleton.mp (List.mem_of_find?_eq_some ht)
    obtain ⟨hagrees, -⟩ := List.find?_eq_some_iff_append.mp ht
    obtain ⟨first, hfirst⟩ := exists_find?_agrees hk hagrees
    exact .other ha hfirst (hY ha first hfirst)

/-- A member that fits every target trivially is accepted by one of them. -/
theorem AcceptedAmong.of_triviallyFits {wide : Bool} {X Y : TypeId → TypeId → Prop} {m : TypeId}
    {targets : List TypeId} (hk : k ∈ targets)
    (h : ∀ k ∈ targets, c.program.types.triviallyFits k m = true) :
    c.AcceptedAmong wide X Y targets m := by
  have hfits : ∀ k ∈ targets, c.fitsAtOnce wide k m = true :=
    fun k hk => fitsAtOnce_of_triviallyFits (h k hk) wide
  cases ha : c.program.types.isArray m with
  | true => exact .array ha hk (Or.inl (hfits k hk))
  | false =>
    obtain ⟨first, hfirst⟩ := exists_find?_agrees hk (by simp [agrees, hfits k hk] :
      c.agrees wide k m = true)
    refine .other ha hfirst ?_
    simp [openPairs, hfits first (List.mem_of_find?_eq_some hfirst)]

/-- A type that is not a union accepts a source only if it accepts every member of it. A source that is a
union has to have a text of its own for that. -/
theorem Round.accepted {wide : Bool} {X Y : TypeId → TypeId → Prop}
    (hk : c.program.types.isUnion k = false) (hany : source ≠ TypeId.any)
    (htext : c.program.types.isUnion source = true →
      c.program.types.render k ≠ c.program.types.render source)
    (h : c.Round wide X Y k source) :
    ∀ m ∈ c.program.types.members source, c.AcceptedAmong wide X Y [k] m := by
  intro m hm
  cases h with
  | trivial h =>
    have hfits : c.program.types.triviallyFits k m = true := by
      by_cases hs : c.program.types.isUnion source = true
      · have hne : k ≠ source := by
          rintro rfl
          simp [hk] at hs
        have hkany : k = TypeId.any := by
          simpa [Types.triviallyFits, hne, hany, htext hs] using h
        simp [Types.triviallyFits, hkany]
      · rw [Types.eq_of_mem_members (by simpa using hs) hm]
        exact h
    exact .of_triviallyFits (List.mem_singleton_self k) (by simpa using hfits)
  | elements ht hs h =>
    have harray : c.program.types.isArray source = true := Types.isArray_iff.mpr ⟨_, hs⟩
    rw [Types.eq_of_mem_members (Types.isUnion_eq_false_of_isArray harray) hm]
    exact .array harray (by simp) (Or.inr ⟨_, _, ht, hs, h⟩)
  | members ht hs h =>
    rw [← Types.members_eq_of_not_isUnion hk]
    exact h m hm

/-- A round against a union, from what one of its members accepts. -/
theorem Round.of_member {wide : Bool} {X X' Y Y' : TypeId → TypeId → Prop}
    (ht : c.program.types.isUnion target = true) (hk : k ∈ c.program.types.members target)
    (hX : ∀ m ∈ c.program.types.members source, ∀ te me, c.program.types.element? k = some te →
      c.program.types.element? m = some me → X te me → X' te me)
    (hY : ∀ m ∈ c.program.types.members source, c.program.types.isArray m = false →
      ∀ first, (c.program.types.members target).find? (c.agrees wide · m) = some first →
        ∀ pair ∈ c.openPairs wide first m, Y' pair.target pair.source)
    (h : ∀ m ∈ c.program.types.members source, c.AcceptedAmong wide X Y [k] m) :
    c.Round wide X' Y' target source := by
  refine .members (fun ha => ?_) (fun _ => ht) fun m hm => (h m hm).among hk (hX m hm) (hY m hm)
  simp [Types.isArray_eq_false_of_isUnion ht] at ha

theorem Covers.makesUpFor {w w' : LoggedWalk} (h : c.Covers w' w target source) :
    c.MakesUpFor w' w (target, source) := by
  intro t s hon
  rcases h t s hon with hpath | ⟨te, se, hte, hse, hmet⟩
  · exact Or.inl hpath
  · have ht := Types.isUnion_eq_false_of_isArray (Types.isArray_iff.mpr ⟨te, hte⟩)
    exact Or.inr (Or.inl ⟨t, by simp [Types.members_eq_of_not_isUnion ht], te, se, hte, hse,
      hmet.imp_right fun heq => Prod.ext heq.1 heq.2⟩)

/-- A comparison accepts what another one accepts if its path makes up for the path of the other. Where
the other comparison stops at a pair that is missing, this one goes on to the elements and stops
there. -/
theorem compareLogged_of_covers {n n' : Nat} {trail' : Trail} {w w' : LoggedWalk}
    (ht : trail'.length = trail.length) (hd : w.walk.limits.depth ≤ n + w.walk.depth)
    (hl : (c.compareLogged n target source trail w).2.WithinLimits)
    (h : (c.compareLogged n target source trail w).1 = none)
    (hcovers : c.Covers w' w target source) :
    (c.compareLogged n' target source trail' w').1 = none :=
  carriesOver n n' ht hd hl h hcovers.makesUpFor

/-- What a comparison accepted of the elements of two arrays is accepted where the array on the target's
side is a member of another target. -/
theorem round_of_conflict?_eq_none (hl : c.StaysWithinLimits k source trail)
    (h : c.conflict? k source trail = none) (target : TypeId) :
    c.Round (c.widens trail)
      (fun te se => c.program.types.element? k = some te → c.program.types.element? source = some se →
        AcceptedFrom (c.compareLogged depthBelow) (firstRound target source) trail.length te se)
      (fun _ _ => True) k source := by
  rw [conflict?_eq_compareEntered] at h
  have hl' := staysWithinLimits_iff.mp hl
  refine round_of_compareEntered (moves_compareLogged depthBelow) ?_ (fun _ _ _ _ _ _ _ _ => trivial)
    (Prod.ext h rfl)
  intro te se w hw hw' hnone hte hse trail' w' hlength hlater
  refine compareLogged_of_covers hlength ?_ (LoggedWalk.WithinLimits.of_later hl' hw') hnone ?_
  · rw [hw.limits, hw.depth]
    exact limits_firstRound k source
  · intro t s honpath
    rw [hw.onPath, onPath_firstRound] at honpath
    obtain ⟨rfl, rfl⟩ := honpath
    exact Or.inr ⟨te, se, hte, hse, Or.inr ⟨rfl, rfl⟩⟩

/-- A union accepts what a member of it accepts if the source commits to compatible pairs there. -/
theorem conflict?_eq_none_of_member (ht : c.program.types.isUnion target = true)
    (hk : k ∈ c.program.types.members target) (hku : c.program.types.isUnion k = false)
    (hl : c.StaysWithinLimits k source trail) (h : c.conflict? k source trail = none)
    (hs : c.program.types.isUnion source = true →
      c.program.types.render k ≠ c.program.types.render source ∧ (c.NeverWidens trail ∨
        ∀ m ∈ c.program.types.members source, c.program.types.isArray m = false))
    (hcommits : c.CommitsWell (c.widens trail) target source) :
    c.conflict? target source trail = none := by
  by_cases hf : c.program.types.triviallyFits target source = true
  · rw [conflict?_eq_compareEntered, compareEntered_of_triviallyFits hf]
  have hany : source ≠ TypeId.any := by
    rintro rfl
    simp [Types.triviallyFits] at hf
  have htext := fun hu => (hs hu).1
  by_cases hn : c.NeverWidens trail
  · have hround := compat_iff_round.mp (compat_of_conflict?_eq_none hn hl h)
    rw [hn.widens_eq_false] at hcommits
    have hunion : c.Round false c.Compat c.Compat target source :=
      .of_member ht hk (fun _ _ _ _ _ _ hx => hx) hcommits (hround.accepted hku hany htext)
    exact conflict?_eq_none_of_compat (compat_iff_round.mpr hunion) trail
  · have hround := round_of_conflict?_eq_none hl h target
    have hunion : c.Round (c.widens trail)
        (AcceptedFrom (c.compareLogged depthBelow) (firstRound target source) trail.length) c.Compat
        target source := by
      refine .of_member ht hk ?_ hcommits (hround.accepted hku hany htext)
      -- Literals are widened, so an array can only be the source itself.
      intro m hm te me hte hme hx
      have hu : c.program.types.isUnion source = false := by
        cases hu : c.program.types.isUnion source with
        | false => rfl
        | true =>
          have hno := (hs hu).2.resolve_left hn m hm
          simp [Types.isArray, hme] at hno
      obtain rfl := Types.eq_of_mem_members hu hm
      exact hx hte hme
    rw [conflict?_eq_compareEntered]
    exact compareEntered_of_round (moves_compareLogged depthBelow)
      (fun te se w hw haccepted => haccepted trail w rfl hw)
      (fun trail' _ t s w _ hcompat => compareLogged_of_compat hcompat) hunion

/-- Where the target or the source has properties, what is accepted while literals are widened is accepted
without. -/
theorem Round.narrow {wide : Bool} {X Y X' : TypeId → TypeId → Prop}
    (hp : (c.program.types.shape target).hasProperties = true ∨
      (c.program.types.shape source).hasProperties = true)
    (h : c.Round wide X Y target source) : c.Round false X' Y target source := by
  cases h with
  | trivial h => exact .trivial h
  | elements ht hs h =>
    rcases hp with hp | hp
    · have hno := (of_hasProperties hp).1
      simp [Types.isArray, ht] at hno
    · have hno := (of_hasProperties hp).1
      simp [Types.isArray, hs] at hno
  | members ht hs h =>
    refine .members ht hs fun m hm => ?_
    have hpm : ∀ k ∈ c.program.types.members target,
        (c.program.types.shape k).hasProperties = true ∨
          (c.program.types.shape m).hasProperties = true := fun k hk =>
      hp.imp (fun hp => Types.eq_of_mem_members (of_hasProperties hp).2 hk ▸ hp)
        fun hp => Types.eq_of_mem_members (of_hasProperties hp).2 hm ▸ hp
    have hfits : ∀ k ∈ c.program.types.members target,
        c.fitsAtOnce wide k m = c.fitsAtOnce false k m := fun k hk => by
      rw [fitsAtOnce_of_hasProperties (hpm k hk), fitsAtOnce_of_hasProperties (hpm k hk)]
    cases h m hm with
    | @array k ha hk h =>
      refine .array ha hk (Or.inl ?_)
      rcases h with h | ⟨te, me, hte, hme, -⟩
      · rwa [← hfits k hk]
      · rcases hpm k hk with hp | hp
        · have hno := (of_hasProperties hp).1
          simp [Types.isArray, hte] at hno
        · simp [(of_hasProperties hp).1] at ha
    | @other k ha hk h =>
      have hmem := List.mem_of_find?_eq_some hk
      refine .other ha ?_ (by simpa only [openPairs, hfits k hmem] using h)
      rw [← hk]
      exact List.find?_congr fun k hk => by simp only [agrees, hfits k hk]

/-- Below a layer nothing is widened any more, so what a round accepts there of a target or a source with
properties is compatible if the path is assumed. -/
theorem AcceptedRound.compatUnder {n : Nat} {w v : LoggedWalk}
    (h : c.AcceptedRound n target source trail w v)
    (hp : (c.program.types.shape target).hasProperties = true ∨
      (c.program.types.shape source).hasProperties = true)
    (htrail : trail.length ≠ 0) : c.CompatUnder w.OnPath target source := by
  have hdeeper : ∀ trail' : Trail, trail'.length = trail.length + 1 → c.NeverWidens trail' :=
    fun trail' hlength => Or.inr (by omega)
  have hround := round_of_compareEntered (moves_compareLogged n) (X := fun _ _ => True)
    (fun _ _ _ _ _ _ => trivial)
    (fun trail' hlength => (soundWithin n).yields h.depth h.withinLimits (hdeeper trail' hlength))
    (Prod.ext h.accepted rfl)
  exact (compatUnder_iff_round.mpr (hround.narrow hp)).discharge
    fun t s hts => ((h.onPath t s).mp hts).symm

theorem compat_of_hasProperties (hp : (c.program.types.shape target).hasProperties = true ∨
      (c.program.types.shape source).hasProperties = true)
    (hl : c.StaysWithinLimits target source trail) (h : c.conflict? target source trail = none)
    (htrail : trail.length ≠ 0) : c.Compat target source :=
  ((acceptedRound_firstRound hl h).compatUnder hp htrail).compat
    fun t s hon => (LoggedWalk.not_onPath_start t s hon).elim

theorem commitsWell_of_compat (ht : c.program.types.isUnion target = true)
    (hf : c.program.types.triviallyFits target source = false) (h : c.Compat target source) :
    c.CommitsWell false target source := by
  intro m hm ha k hk pair hp
  cases compat_iff_round.mp h with
  | trivial h => simp [hf] at h
  | elements hte hse h =>
    have harray := Types.isArray_eq_false_of_isUnion ht
    simp [Types.isArray, hte] at harray
  | members hte hse h =>
    cases h m hm with
    | array ha' _ _ => simp [ha] at ha'
    | other _ hk' h =>
      obtain rfl := Option.some.inj (hk.symm.trans hk')
      exact h pair hp

/-- What a union accepts, it accepts trivially or because the source commits to compatible pairs. -/
theorem commitsWell_of_conflict?_eq_none (ht : c.program.types.isUnion target = true)
    (hl : c.StaysWithinLimits target source trail) (h : c.conflict? target source trail = none)
    (hf : c.program.types.triviallyFits target source = false)
    (htrail : c.mode.callArgument = true → trail.length ≠ 0)
    (hs : c.program.types.isUnion source = true → c.NeverWidens trail) :
    c.CommitsWell (c.widens trail) target source := by
  by_cases hn : c.NeverWidens trail
  · rw [hn.widens_eq_false]
    exact commitsWell_of_compat ht hf (compat_of_conflict?_eq_none hn hl h)
  have hlength : trail.length = 1 := by
    by_contra hne
    refine hn (or_iff_not_imp_left.mpr fun hcall => ?_)
    have hpos := htrail (by simpa using hcall)
    omega
  have hunion : c.program.types.isUnion source = false := by
    cases hu : c.program.types.isUnion source with
    | false => rfl
    | true => exact (hn (hs hu)).elim
  intro m hm ha k hk pair hp
  obtain rfl := Types.eq_of_mem_members hunion hm
  -- A literal that is widened leaves nothing open, so the source has properties and is no literal.
  have hprops : (c.program.types.shape m).hasProperties = true := by
    obtain ⟨hagrees, -⟩ := List.find?_eq_some_iff_append.mp hk
    exact (Bool.and_eq_true_iff.mp (of_mem_openPairs hagrees hp).1).2
  have hcompat : c.Compat target m := compat_of_hasProperties (Or.inr hprops) hl h (by omega)
  have hfits : ∀ wide k, c.fitsAtOnce wide k m = c.program.types.triviallyFits k m :=
    fun wide k => fitsAtOnce_of_hasProperties (Or.inr hprops) wide
  refine commitsWell_of_compat ht hf hcompat m hm ha k ?_ pair ?_
  · simpa only [agrees, hfits] using hk
  · simpa only [openPairs, hfits] using hp

variable (c) in
/-- The union rejects a source that one of its members accepts, and no limit has a part in it. -/
def LosesMember (target k source : TypeId) (trail : Trail) : Prop :=
  c.program.types.isUnion target = true ∧ k ∈ c.program.types.members target ∧
    c.StaysWithinLimits k source trail ∧ c.conflict? k source trail = none ∧
    c.StaysWithinLimits target source trail ∧ c.conflict? target source trail ≠ none

instance (target k source : TypeId) (trail : Trail) : Decidable (c.LosesMember target k source trail) :=
  inferInstanceAs (Decidable (_ ∧ _))

/-- A trail of one layer that shows nothing. -/
def oneLayer : Trail := Trail.empty.push ⟨{}, .node {}⟩

/-- Two objects whose only properties have one name and types with parts, the union of both, and an
object that fits either of them. -/
def rivalTypes : Types :=
  let (t, text) := Types.initial.object { properties := [{ name := "x", type := TypeId.string }] }
  let (t, count) := t.object { properties := [{ name := "x", type := TypeId.number }] }
  let (t, first) := t.object { properties := [{ name := "p", type := text }] }
  let (t, second) := t.object { properties := [{ name := "p", type := count }] }
  let (t, _) := t.union [first, second]
  let (t, loose) := t.object { properties := [{ name := "x", type := TypeId.any }] }
  (t.object { properties := [{ name := "p", type := loose }] }).1

/-- A function that returns a union, and a union of a function and another type that prints like it. -/
def homographTypes : Types :=
  let (t, result) := Types.initial.union [TypeId.string, TypeId.number]
  let (t, returning) := t.function { result }
  let (t, function) := t.function { result := TypeId.string }
  let (t, _) := t.union [function, TypeId.number]
  (t.union [returning, TypeId.boolean]).1

/-- An array and a union of arrays that lead back to themselves, where one array fits only because its
literal is widened. -/
def returningTypes : Types :=
  let (t, first) := Types.initial.declareObject "First"
  let (t, second) := t.declareObject "Second"
  let (t, element) := t.union [TypeId.string, first]
  let (t, member) := t.array element
  let (t, literal) := t.literal (.string "a")
  let (t, seconds) := t.array second
  let (t, literals) := t.array literal
  let (t, source) := t.union [seconds, literals]
  let (t, _) := t.union [member, TypeId.number]
  let next (type : TypeId) : Member := { name := "next", type }
  let t := (t.defineObject first { name := some "First", properties := [next member] }).getD t
  (t.defineObject second { name := some "Second", properties := [next source] }).getD t

/-- A union that was entered before the union among its members. -/
def unionOfUnions : Types :=
  let (t, _) := Types.initial.union [⟨16⟩, TypeId.boolean]
  (t.union [TypeId.string, TypeId.number]).1

/-- The source commits to a member of the union that comes first; it is a union itself that fits for its
text; it relies on a pair that is compared again; the member that it fits is a union. -/
theorem union_losesMember :
    (⟨{ types := rivalTypes }, {}⟩ : Comparison).LosesMember ⟨19⟩ ⟨18⟩ ⟨18⟩ oneLayer ∧
      (⟨{ types := homographTypes }, {}⟩ : Comparison).LosesMember ⟨19⟩ ⟨16⟩ ⟨18⟩ oneLayer ∧
      (⟨{ types := returningTypes }, Mode.call⟩ : Comparison).LosesMember ⟨23⟩ ⟨18⟩ ⟨22⟩ oneLayer ∧
      (⟨{ types := unionOfUnions }, {}⟩ : Comparison).LosesMember ⟨15⟩ ⟨16⟩ TypeId.string oneLayer := by
  refine ⟨by decide, by decide, by decide, by decide⟩

/-- A union of types accepts what a member of it accepts exactly if the source commits to compatible
pairs, unless it fits trivially. -/
theorem unionTarget_of_member (ht : c.program.types.isUnion target = true)
    (hk : k ∈ c.program.types.members target) (hku : c.program.types.isUnion k = false)
    (hl : c.StaysWithinLimits k source trail) (h : c.conflict? k source trail = none)
    (hs : c.program.types.isUnion source = true →
      c.program.types.render k ≠ c.program.types.render source ∧ (c.NeverWidens trail ∨
        ∀ m ∈ c.program.types.members source, c.program.types.isArray m = false)) :
    (c.CommitsWell (c.widens trail) target source → c.conflict? target source trail = none) ∧
      (c.StaysWithinLimits target source trail → c.conflict? target source trail = none →
        (c.mode.callArgument = true → trail.length ≠ 0) →
        (c.program.types.isUnion source = true → c.NeverWidens trail) →
        c.program.types.triviallyFits target source = true ∨
          c.CommitsWell (c.widens trail) target source) := by
  refine ⟨conflict?_eq_none_of_member ht hk hku hl h hs, fun hlt hnone htrail hsource => ?_⟩
  cases hf : c.program.types.triviallyFits target source with
  | true => exact Or.inl rfl
  | false => exact Or.inr (commitsWell_of_conflict?_eq_none ht hlt hnone hf htrail hsource)

/-- The object that fits either member of the union commits well, and the second member does not. -/
theorem unionTarget_rivalTypes :
    let c : Comparison := ⟨{ types := rivalTypes }, {}⟩
    c.CommitsWell (c.widens oneLayer) ⟨19⟩ ⟨21⟩ ∧ ¬c.CommitsWell (c.widens oneLayer) ⟨19⟩ ⟨18⟩ := by
  intro c
  have hunion : c.program.types.isUnion ⟨19⟩ = true := by decide
  have hmember : (⟨18⟩ : TypeId) ∈ c.program.types.members ⟨19⟩ := by decide
  constructor
  · have hlimits : c.StaysWithinLimits ⟨18⟩ ⟨21⟩ oneLayer := by decide
    have h := unionTarget_of_member hunion hmember (by decide) hlimits (by decide)
      fun hu => absurd hu (by decide)
    have hcommits := h.2 (by decide) (by decide) (by decide) fun _ => Or.inl rfl
    exact hcommits.resolve_left (by decide)
  · have hlimits : c.StaysWithinLimits ⟨18⟩ ⟨18⟩ oneLayer := by decide
    have h := unionTarget_of_member hunion hmember (by decide) hlimits (by decide)
      fun hu => absurd hu (by decide)
    intro hcommits
    have hnone := h.1 hcommits
    exact absurd hnone (by decide)

end Comparison

end Misfit
