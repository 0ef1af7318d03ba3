import Misfit.Proofs.Compare.Surface
import Mathlib.Logic.Relation

/-!
# The place of a conflict

Arrays and unions are taken apart without a layer of their own, and a pair of properties left open puts
one layer on the trail. So the layers that a conflict has beyond the trail of its comparison retrace how
the comparison got to it: each one shows a property that leads from the types above to the types below,
and what the conflict says is about types reached from the innermost ones.
-/
namespace Misfit

/-- The layer stands for a property: it shows the name on both sides, and carries the two types. -/
structure Layer.Shows (layer : Layer) (name : String) (target source : TypeId) : Prop where
  target_shown : layer.target.shown = name
  target_type : layer.target.type = some target
  source_node : ∃ d, layer.source = .node d ∧ d.shown = name ∧ d.type = some source

namespace Comparison

variable (c : Comparison)

/-- One step that stays in its layer: from two arrays to their elements, or from two types to a member
of each. -/
inductive Step : TypeId × TypeId → TypeId × TypeId → Prop
  | elements {target source te se : TypeId} (ht : c.program.types.element? target = some te)
      (hs : c.program.types.element? source = some se) : Step (target, source) (te, se)
  | members {target source k m : TypeId} (hk : k ∈ c.program.types.members target)
      (hm : m ∈ c.program.types.members source) : Step (target, source) (k, m)

/-- The second pair is reached from the first one within a layer. -/
def Reaches : TypeId × TypeId → TypeId × TypeId → Prop := Relation.ReflTransGen c.Step

/-- The layer leads from two object types that agree on the surface to the types of a property that both
of them declare. -/
structure Opens (k m : TypeId) (layer : Layer) (target source : TypeId) : Prop where
  forward : (c.program.diffProperties k m).hasProblem = false
  reverse : c.mode.bothWays = true → (c.program.diffProperties m k).hasProblem = false
  declared : ∃ p ∈ c.program.types.properties k, ∃ q ∈ c.program.types.properties m,
    q.name = p.name ∧ p.type = target ∧ q.type = source ∧ layer.Shows p.name target source

/-- Layer by layer, the way from one pair of types to another. -/
inductive Located : TypeId × TypeId → List Layer → TypeId × TypeId → Prop
  | here {pair : TypeId × TypeId} : Located pair [] pair
  | deeper {pair last : TypeId × TypeId} {k m target source : TypeId} {layer : Layer}
      {layers : List Layer} (hr : c.Reaches pair (k, m)) (ho : c.Opens k m layer target source)
      (h : Located (target, source) layers last) : Located pair (layer :: layers) last

/-- Nothing about the two members is alike: they do not fit at once, they are not both arrays, and they
do not both have properties. -/
structure Unrelated (wide : Bool) (k m : TypeId) : Prop where
  fitsAtOnce : c.fitsAtOnce wide k m = false
  isArray : (c.program.types.isArray k && c.program.types.isArray m) = false
  haveProperties : c.haveProperties k m = false

/-- What a clash says of types reached from a pair. A type clash sets a whole target against a member of
the source that has nothing to do with any of its members. A shape clash compares a member of the source
with each member of the target that has properties, and all of them differ from it. -/
inductive Explains (wide : Bool) (pair : TypeId × TypeId) : Clash → Prop
  | types {target source m : TypeId} (hr : c.Reaches pair (target, source))
      (hm : m ∈ c.program.types.members source)
      (h : ∀ k ∈ c.program.types.members target, c.Unrelated wide k m) :
      Explains wide pair (.types (c.program.typeClash target m))
  | shapes {target source m : TypeId} {candidates : List TypeId} (hr : c.Reaches pair (target, source))
      (hm : m ∈ c.program.types.members source)
      (hc : (c.program.types.members target).filter (c.haveProperties · m) = candidates)
      (hne : candidates ≠ [])
      (h : ∀ k ∈ c.program.types.members target, c.agrees wide k m = false) :
      Explains wide pair (.shapes (selectBest (candidates.map (c.clashOf · m))))

/-- Every one of the shape clashes is between a member of a target that is reached and one member of the
source that is reached with it, and they differ in a property. -/
def BetweenMembers (pair : TypeId × TypeId) (clashes : List ShapeClash) : Prop :=
  ∃ target source, c.Reaches pair (target, source) ∧ ∃ m ∈ c.program.types.members source,
    ∀ clash ∈ clashes, ∃ k ∈ c.program.types.members target,
      clash.targetSide = c.program.describeType k ∧ clash.sourceSide = c.program.describeType m ∧
        c.haveProperties k m = true ∧ c.shapesDiffer k m = true

/-- The conflict is where its trail says, seen from a pair whose comparison started at a trail, and less
than so many layers below. -/
def Placed (depth : Nat) (pair : TypeId × TypeId) (trail : Trail) (conflict : Conflict) : Prop :=
  ∃ layers last, layers.length < depth ∧ conflict.trail.layers = trail.layers ++ layers ∧
    c.Located pair layers last ∧ c.Explains (c.widens conflict.trail) last conflict.clash

/-- Every conflict that the comparer finds is where its trail says, less than so many layers below. -/
def Places {ω : Type} (depth : Nat) (inner : Comparer ω) : Prop :=
  ∀ target source trail w conflict, (inner target source trail w).1 = some conflict →
    c.Placed depth (target, source) trail conflict

/-- What the search for an array has come to among the targets seen so far. -/
structure ArrayCandidates (depth : Nat) (trail : Trail) (seen : List TypeId) (member : TypeId)
    (found : Candidates) : Prop where
  shapes : found.shapes = []
  nested : ∀ conflict, found.nested = some conflict →
    ∃ k ∈ seen, c.Placed depth (k, member) trail conflict
  unrelated : found.nested = none → ∀ k ∈ seen, c.Unrelated (c.widens trail) k member

variable {c}

theorem reaches_members {target source k m : TypeId} (hk : k ∈ c.program.types.members target)
    (hm : m ∈ c.program.types.members source) : c.Reaches (target, source) (k, m) :=
  .single (.members hk hm)

theorem reaches_elements {target source te se : TypeId}
    (ht : c.program.types.element? target = some te)
    (hs : c.program.types.element? source = some se) : c.Reaches (target, source) (te, se) :=
  .single (.elements ht hs)

theorem Explains.of_reaches {wide : Bool} {pair next : TypeId × TypeId} {clash : Clash}
    (hr : c.Reaches pair next) (h : c.Explains wide next clash) : c.Explains wide pair clash := by
  cases h with
  | types hr' hm h => exact .types (hr.trans hr') hm h
  | shapes hr' hm hc hne h => exact .shapes (hr.trans hr') hm hc hne h

/-- Every shape clash that is shown sets a member of a target against one member of the source, and they
differ. It says what two such members are reported as, up to the context. -/
theorem Explains.clashOf {wide : Bool} {pair : TypeId × TypeId} {shown : List ShapeClash}
    (h : c.Explains wide pair (.shapes shown)) :
    ∃ target source, c.Reaches pair (target, source) ∧ ∃ m ∈ c.program.types.members source,
      ∀ clash ∈ shown, ∃ k ∈ c.program.types.members target, c.haveProperties k m = true ∧
        c.shapesDiffer k m = true ∧ (clash = c.clashOf k m ∨ clash = (c.clashOf k m).promote) := by
  cases h with
  | @shapes target source m _ hr hm hc hne h =>
    refine ⟨target, source, hr, m, hm, fun clash hclash => ?_⟩
    obtain ⟨candidate, hcandidate, heq⟩ := eq_or_eq_promote_of_mem_selectBest hclash
    obtain ⟨k, hk, rfl⟩ := List.mem_map.mp hcandidate
    obtain ⟨hmem, hp⟩ := List.mem_filter.mp (hc ▸ hk)
    have hdiffer : c.shapesDiffer k m = true := by
      simpa [agrees, hp] using (Bool.or_eq_false_iff.mp (h k hmem)).2
    exact ⟨k, hmem, hp, hdiffer, heq⟩

theorem Explains.betweenMembers {wide : Bool} {pair : TypeId × TypeId} {shown : List ShapeClash}
    (h : c.Explains wide pair (.shapes shown)) : c.BetweenMembers pair shown := by
  obtain ⟨target, source, hr, m, hm, hshown⟩ := h.clashOf
  refine ⟨target, source, hr, m, hm, fun clash hclash => ?_⟩
  obtain ⟨k, hk, hp, hdiffer, rfl | rfl⟩ := hshown clash hclash
  · exact ⟨k, hk, rfl, rfl, hp, hdiffer⟩
  · exact ⟨k, hk, rfl, rfl, hp, hdiffer⟩

theorem Placed.of_reaches {n : Nat} {pair next : TypeId × TypeId} {trail : Trail} {conflict : Conflict}
    (hr : c.Reaches pair next) (h : c.Placed n next trail conflict) : c.Placed n pair trail conflict := by
  obtain ⟨layers, last, hdepth, hlayers, hlocated, hclash⟩ := h
  cases hlocated with
  | here => exact ⟨[], pair, hdepth, hlayers, .here, hclash.of_reaches hr⟩
  | deeper hr' ho h => exact ⟨_, last, hdepth, hlayers, .deeper (hr.trans hr') ho h, hclash⟩

theorem Placed.succ {n : Nat} {pair : TypeId × TypeId} {trail : Trail} {conflict : Conflict}
    (h : c.Placed n pair trail conflict) : c.Placed (n + 1) pair trail conflict := by
  obtain ⟨layers, last, hdepth, h⟩ := h
  exact ⟨layers, last, Nat.lt_succ_of_lt hdepth, h⟩

theorem Placed.deeper {n : Nat} {pair : TypeId × TypeId} {k m target source : TypeId} {trail : Trail}
    {layer : Layer} {conflict : Conflict} (hr : c.Reaches pair (k, m))
    (ho : c.Opens k m layer target source)
    (h : c.Placed n (target, source) (trail.push layer) conflict) :
    c.Placed (n + 1) pair trail conflict := by
  obtain ⟨layers, last, hdepth, hlayers, hlocated, hclash⟩ := h
  refine ⟨layer :: layers, last, Nat.succ_lt_succ hdepth, ?_, .deeper hr ho hlocated, hclash⟩
  rw [hlayers, Trail.layers_push, List.append_assoc, List.singleton_append]

/-- A clash found at the trail itself. -/
theorem Placed.here {n : Nat} {pair : TypeId × TypeId} {trail : Trail} {clash : Clash}
    (h : c.Explains (c.widens trail) pair clash) : c.Placed (n + 1) pair trail ⟨trail, clash⟩ :=
  ⟨[], pair, Nat.succ_pos n, (List.append_nil _).symm, .here, h⟩

/-- The pairs left open where two members agree lead on from properties that both of them declare. -/
theorem opens_of_mem_openPairs {wide : Bool} {k m : TypeId} {pair : NestedPair}
    (ha : c.agrees wide k m = true) (hp : pair ∈ c.openPairs wide k m) :
    c.Opens k m pair.layer pair.target pair.source := by
  obtain ⟨-, hsame, hnested⟩ := of_mem_openPairs ha hp
  have hdiffer := Bool.or_eq_false_iff.mp hsame
  refine ⟨hdiffer.1, fun hb => by simpa [hb] using hdiffer.2, ?_⟩
  obtain ⟨p, hpk, q, hq, -, rfl⟩ := Program.mem_nested_diffProperties.mp hnested
  obtain ⟨shape, hobject, hfind⟩ := Option.bind_eq_some_iff.mp hq
  obtain ⟨hname, hqm⟩ := Member.name_of_property? hfind
  refine ⟨p, hpk, q, by simpa [Types.properties, hobject] using hqm, hname, rfl, rfl, ?_⟩
  exact ⟨by simp, by simp, _, rfl, by simp [hname], by simp⟩

section Rounds

variable {ω : Type} {n : Nat} {inner : Comparer ω} {trail : Trail} {w : ω}

/-- An array set against something else shares no member with it. -/
theorem explains_of_arrayAgainstOther {target source : TypeId}
    (hf : c.program.types.triviallyFits target source = false)
    (ha : (c.program.types.isArray target && c.program.types.isArray source) = false)
    (h : (c.program.types.shape target).arrayAgainstOther (c.program.types.shape source) = true) :
    c.Explains (c.widens trail) (target, source) (.types (c.program.typeClash target source)) := by
  obtain ⟨harray, ht, hs⟩ := Shape.of_arrayAgainstOther h
  simp only [Types.isArray_shape, Types.isUnion_shape] at harray ht hs
  refine .types .refl (by simp [Types.members_eq_of_not_isUnion hs]) fun k hk => ?_
  obtain rfl := Types.eq_of_mem_members ht hk
  exact ⟨(fitsAtOnce_of_isArray harray _).trans hf, ha, haveProperties_of_isArray harray⟩

theorem firstMatch_of_isArray (hi : c.Places n inner) {member : TypeId}
    (hm : c.program.types.isArray member = true) {seen : List TypeId} {found : Candidates}
    (hfound : c.ArrayCandidates n trail seen member found) (rest : List TypeId) :
    match (c.firstMatch inner trail member rest found w).1 with
    | .ok pairs => pairs = []
    | .error found => c.ArrayCandidates n trail (seen ++ rest) member found := by
  induction rest generalizing seen found w with
  | nil => simpa [firstMatch] using hfound
  | cons k rest ih =>
    rw [List.append_cons seen k rest]
    cases c.meeting (c.fitsAtOnce (c.widens trail) k member) k member with
    | atOnce hf => rw [firstMatch_cons_of_fitsAtOnce hf]
    | whole hf ha =>
      rw [firstMatch_cons_of_isArray hm hf ha]
      refine ih ⟨hfound.shapes, fun conflict hc => ?_, fun hn other ho => ?_⟩
      · obtain ⟨other, ho, hplaced⟩ := hfound.nested conflict hc
        exact ⟨other, List.mem_append_left _ ho, hplaced⟩
      · rcases List.mem_append.mp ho with ho | ho
        · exact hfound.unrelated hn other ho
        · obtain rfl := List.mem_singleton.mp ho
          exact ⟨hf, ha, haveProperties_of_isArray (Or.inr hm)⟩
    | @elements ke me hf hk hme =>
      rw [firstMatch_cons_of_elements hf hk hme]
      have hplaces := hi ke me trail w
      cases hinner : inner ke me trail w with
      | mk result w' =>
        rw [hinner] at hplaces
        cases result with
        | none => rfl
        | some nested =>
          have hplaced : c.Placed n (k, member) trail nested :=
            (hplaces nested rfl).of_reaches (reaches_elements hk hme)
          refine ih ⟨hfound.shapes, fun conflict hc => ?_, fun hn => ?_⟩
          · rcases Option.or_eq_some_iff.mp hc with hc | ⟨-, hc⟩
            · obtain ⟨other, ho, hplaced⟩ := hfound.nested conflict hc
              exact ⟨other, List.mem_append_left _ ho, hplaced⟩
            · cases hc
              exact ⟨k, by simp, hplaced⟩
          · simp at hn

theorem pairs_of_firstMatch_isArray (hi : c.Places n inner) {member : TypeId}
    (hm : c.program.types.isArray member = true) {targets : List TypeId} {pairs : List NestedPair}
    {w' : ω} (h : c.firstMatch inner trail member targets {} w = (.ok pairs, w')) : pairs = [] := by
  have hnone : c.ArrayCandidates n trail [] member {} := ⟨rfl, by simp, by simp⟩
  have hspec := firstMatch_of_isArray (w := w) hi hm hnone targets
  rwa [h] at hspec

theorem candidates_of_firstMatch_isArray (hi : c.Places n inner) {member : TypeId}
    (hm : c.program.types.isArray member = true) {targets : List TypeId} {found : Candidates}
    {w' : ω} (h : c.firstMatch inner trail member targets {} w = (.error found, w')) :
    c.ArrayCandidates n trail targets member found := by
  have hnone : c.ArrayCandidates n trail [] member {} := ⟨rfl, by simp, by simp⟩
  have hspec := firstMatch_of_isArray (w := w) hi hm hnone targets
  rwa [h] at hspec

/-- A member of the source that agrees with no member of the target is explained where it is. -/
theorem placed_of_firstMatch_error (hi : c.Places n inner) {target source member : TypeId}
    (hm : member ∈ c.program.types.members source) {found : Candidates} {w' : ω}
    (h : c.firstMatch inner trail member (c.program.types.members target) {} w = (.error found, w')) :
    c.Placed (n + 1) (target, source) trail (c.explain trail target member found) := by
  by_cases ha : c.program.types.isArray member = true
  · have hspec := candidates_of_firstMatch_isArray hi ha h
    obtain ⟨shapes, nested⟩ := found
    obtain rfl : shapes = [] := hspec.shapes
    cases nested with
    | some conflict =>
      obtain ⟨k, hk, hplaced⟩ := hspec.nested conflict rfl
      exact (hplaced.of_reaches (reaches_members hk hm)).succ
    | none => exact .here (.types .refl hm (hspec.unrelated rfl))
  · have ha' : c.program.types.isArray member = false := by simpa using ha
    rw [firstMatch_of_not_isArray ha'] at h
    cases hfind : (c.program.types.members target).find? (c.agrees (c.widens trail) · member) with
    | some k => simp [hfind] at h
    | none =>
      have hdisagree : ∀ k ∈ c.program.types.members target,
          c.agrees (c.widens trail) k member = false := by
        simpa using hfind
      simp only [hfind, List.nil_append, Prod.mk.injEq, Except.error.injEq] at h
      obtain ⟨rfl, -⟩ := h
      cases hc : (c.program.types.members target).filter (c.haveProperties · member) with
      | nil =>
        refine .here (.types .refl hm fun k hk => ⟨?_, by simp [ha'], ?_⟩)
        · exact (Bool.or_eq_false_iff.mp (hdisagree k hk)).1
        · simpa using List.filter_eq_nil_iff.mp hc k hk
      | cons first rest => exact .here (.shapes .refl hm hc (by simp) hdisagree)

theorem opens_of_firstMatch (hi : c.Places n inner) {member : TypeId} {targets : List TypeId}
    {pairs : List NestedPair} {w' : ω}
    (h : c.firstMatch inner trail member targets {} w = (.ok pairs, w')) :
    ∀ pair ∈ pairs, ∃ k ∈ targets, c.Opens k member pair.layer pair.target pair.source := by
  by_cases ha : c.program.types.isArray member = true
  · obtain rfl : pairs = [] := pairs_of_firstMatch_isArray hi ha h
    simp
  · rw [firstMatch_of_not_isArray (by simpa using ha)] at h
    cases hfind : targets.find? (c.agrees (c.widens trail) · member) with
    | none => simp [hfind] at h
    | some k =>
      simp only [hfind, Prod.mk.injEq, Except.ok.injEq] at h
      obtain ⟨rfl, -⟩ := h
      obtain ⟨hagrees, -⟩ := List.find?_eq_some_iff_append.mp hfind
      exact fun pair hp => ⟨k, List.mem_of_find?_eq_some hfind, opens_of_mem_openPairs hagrees hp⟩

theorem placed_of_matchAll_error (hi : c.Places n inner) {target source : TypeId}
    {members : List TypeId} (hm : ∀ m ∈ members, m ∈ c.program.types.members source)
    {conflict : Conflict} {w' : ω}
    (h : c.matchAll inner trail target (c.program.types.members target) members w =
      (.error conflict, w')) :
    c.Placed (n + 1) (target, source) trail conflict := by
  induction members generalizing w with
  | nil => simp [matchAll] at h
  | cons member rest ih =>
    simp only [matchAll] at h
    cases hf : c.firstMatch inner trail member (c.program.types.members target) {} w with
    | mk result v =>
      rw [hf] at h
      cases result with
      | error found =>
        simp only [Prod.mk.injEq, Except.error.injEq] at h
        obtain ⟨rfl, -⟩ := h
        exact placed_of_firstMatch_error hi (hm member List.mem_cons_self) hf
      | ok here =>
        dsimp only at h
        cases hr : c.matchAll inner trail target (c.program.types.members target) rest v with
        | mk result v' =>
          rw [hr] at h
          cases result with
          | ok more => simp at h
          | error other =>
            simp only [Prod.mk.injEq, Except.error.injEq] at h
            obtain ⟨rfl, rfl⟩ := h
            exact ih (fun m hmem => hm m (List.mem_cons_of_mem member hmem)) hr

/-- Every pair that is left open comes from a member of each side. -/
theorem opens_of_matchAll (hi : c.Places n inner) {target : TypeId} {targets members : List TypeId}
    {pairs : List NestedPair}
    (h : (c.matchAll inner trail target targets members w).1 = .ok pairs) :
    ∀ pair ∈ pairs, ∃ k ∈ targets, ∃ m ∈ members, c.Opens k m pair.layer pair.target pair.source := by
  induction members generalizing w pairs with
  | nil =>
    simp only [matchAll, Except.ok.injEq] at h
    simp [← h]
  | cons member rest ih =>
    simp only [matchAll] at h
    cases hf : c.firstMatch inner trail member targets {} w with
    | mk result v =>
      rw [hf] at h
      cases result with
      | error found => simp at h
      | ok here =>
        dsimp only at h
        cases hr : c.matchAll inner trail target targets rest v with
        | mk result v' =>
          rw [hr] at h
          cases result with
          | error other => simp at h
          | ok more =>
            obtain rfl := Except.ok.inj h
            intro pair hp
            rcases List.mem_append.mp hp with hp | hp
            · obtain ⟨k, hk, ho⟩ := opens_of_firstMatch hi hf pair hp
              exact ⟨k, hk, member, List.mem_cons_self, ho⟩
            · obtain ⟨k, hk, m, hmem, ho⟩ := ih (congrArg Prod.fst hr) pair hp
              exact ⟨k, hk, m, List.mem_cons_of_mem member hmem, ho⟩

theorem placed_of_compareOpen (hi : c.Places n inner) {pairs : List NestedPair} {conflict : Conflict}
    (h : (compareOpen inner trail pairs w).1 = some conflict) :
    ∃ pair ∈ pairs, c.Placed n (pair.target, pair.source) (trail.push pair.layer) conflict := by
  induction pairs generalizing w with
  | nil => simp [compareOpen] at h
  | cons pair rest ih =>
    simp only [compareOpen] at h
    have hplaces := hi pair.target pair.source (trail.push pair.layer) w
    cases hinner : inner pair.target pair.source (trail.push pair.layer) w with
    | mk result v =>
      rw [hinner] at h hplaces
      cases result with
      | some found =>
        obtain rfl : found = conflict := Option.some.inj h
        exact ⟨pair, List.mem_cons_self, hplaces found rfl⟩
      | none =>
        obtain ⟨other, ho, hplaced⟩ := ih h
        exact ⟨other, List.mem_cons_of_mem pair ho, hplaced⟩

/-- A round places its conflicts if the comparer below it does. -/
theorem places_compareEntered (hi : c.Places n inner) : c.Places (n + 1) (c.compareEntered inner) := by
  intro target source trail w conflict h
  cases c.meeting (c.program.types.triviallyFits target source) target source with
  | atOnce hf => simp [compareEntered_of_triviallyFits hf] at h
  | @elements te se hf ht hs =>
    rw [compareEntered_of_elements hf ht hs] at h
    exact ((hi te se trail w conflict h).of_reaches (reaches_elements ht hs)).succ
  | whole hf ha =>
    rw [compareEntered_of_not_isArray hf ha] at h
    split at h
    · rename_i hagainst
      obtain rfl := Option.some.inj h
      exact .here (explains_of_arrayAgainstOther hf ha hagainst)
    cases hm : c.matchAll inner trail target (c.program.types.members target)
        (c.program.types.members source) w with
    | mk result w' =>
      rw [hm] at h
      cases result with
      | error found =>
        obtain rfl := Option.some.inj h
        exact placed_of_matchAll_error hi (fun m hmem => hmem) hm
      | ok pairs =>
        obtain ⟨pair, hp, hplaced⟩ := placed_of_compareOpen hi h
        obtain ⟨k, hk, m, hmem, ho⟩ := opens_of_matchAll hi (congrArg Prod.fst hm) pair hp
        exact hplaced.deeper (reaches_members hk hmem) ho

end Rounds

/-- A conflict is less layers below than the guard allows pairs on the path. -/
theorem places_compareWithin (n : Nat) : c.Places n (c.compareWithin n) := by
  induction n with
  | zero =>
    intro target source trail w conflict h
    simp [compareWithin] at h
  | succ n ih =>
    intro target source trail w conflict h
    rw [compareWithin] at h
    split at h
    · exact places_compareEntered ih target source trail _ conflict h
    · simp at h

/-- What a conflict says is said of types that its comparison came to. -/
theorem explains_of_compare {target source : TypeId} {trail : Trail} {w : Walk} {conflict : Conflict}
    (h : (c.compare target source trail w).1 = some conflict) :
    ∃ last, c.Explains (c.widens conflict.trail) last conflict.clash := by
  obtain ⟨_, last, -, -, -, hclash⟩ := places_compareWithin _ target source trail w conflict h
  exact ⟨last, hclash⟩

/-- Every conflict is where its trail says. Beyond the trail of the comparison, each layer stands for a
property of two object types that agree, and leads from the types above it to the types below it. The
clash is between types reached from the innermost ones. -/
theorem located_of_compare {target source : TypeId} {trail : Trail} {w : Walk} {conflict : Conflict}
    (h : (c.compare target source trail w).1 = some conflict) :
    ∃ layers last, conflict.trail.layers = trail.layers ++ layers ∧
      c.Located (target, source) layers last ∧
      c.Explains (c.widens conflict.trail) last conflict.clash ∧
      ∀ shown, conflict.clash = .shapes shown → c.BetweenMembers last shown := by
  obtain ⟨layers, last, -, hlayers, hlocated, hclash⟩ :=
    places_compareWithin _ target source trail w conflict h
  refine ⟨layers, last, hlayers, hlocated, hclash, fun shown hshown => ?_⟩
  rw [hshown] at hclash
  exact hclash.betweenMembers

/-- Two object types with a property of one name each, whose types differ in a property of theirs. -/
def nestedTypes : Types :=
  let (t, text) := Types.initial.object { properties := [{ name := "x", type := TypeId.string }] }
  let (t, count) := t.object { properties := [{ name := "x", type := TypeId.number }] }
  let (t, _) := t.object { properties := [{ name := "inner", type := text }] }
  (t.object { properties := [{ name := "inner", type := count }] }).1

/-- The conflict is one layer below the trail it started from. -/
theorem located_nestedTypes :
    let c : Comparison := ⟨{ types := nestedTypes }, {}⟩
    ∃ conflict, (c.compare ⟨17⟩ ⟨18⟩ Trail.empty Walk.start).1 = some conflict ∧
      ∃ layer last, conflict.trail.layers = [layer] ∧ c.Located (⟨17⟩, ⟨18⟩) [layer] last ∧
        c.Explains (c.widens conflict.trail) last conflict.clash ∧
        ∀ shown, conflict.clash = .shapes shown → c.BetweenMembers last shown := by
  intro c
  have hdepth : (c.compare ⟨17⟩ ⟨18⟩ Trail.empty Walk.start).1.map (·.trail.length) = some 1 := by
    decide
  obtain ⟨conflict, hconflict, hlength⟩ := Option.map_eq_some_iff.mp hdepth
  obtain ⟨layers, last, hlayers, hlocated, hclash⟩ := located_of_compare hconflict
  rw [Trail.layers_empty, List.nil_append] at hlayers
  obtain ⟨layer, rfl⟩ : ∃ layer, layers = [layer] := by
    rw [← List.length_eq_one_iff, ← hlayers, Trail.length_layers, hlength]
  exact ⟨conflict, hconflict, layer, last, hlayers, hlocated, hclash⟩

end Comparison

end Misfit
