import Misfit.Proofs.Compare.Symmetry
import Misfit.Proofs.Compare.UnionSource

/-!
# The order of properties

Two object types with the same properties in another order have different texts, so what one of them fits
for its text alone the other one has to fit property by property. It does, because every property finds
itself. Beyond that the order decides which pairs are compared first, and no more: the same shapes differ
and the same pairs are left open.

There is one exception. In a call without a layer above, literals are widened in the properties, and what
comes back to the pair under comparison is taken for granted. But the parts of the two object types come
back to one of them only. Compared for the other one, the pair is met further down, where no literal is
widened.
-/
namespace Misfit

/-- The property without the place of its declaration. -/
def Member.bare (m : Member) : Member := { m with declaration := none }

theorem Member.eq_of_bare_eq {m m' : Member} (h : m.bare = m'.bare) :
    m.name = m'.name ∧ m.type = m'.type ∧ m.optional = m'.optional := by
  simpa [bare] using h

namespace Types

variable (t : Types)

/-- An object type in which no two properties share a name. -/
structure IsRecord (i : TypeId) : Prop where
  object : (t.object? i).isSome = true
  nodup_names : ((t.properties i).map Member.name).Nodup

/-- Two object types with the same properties, up to their order and the places of their declarations. -/
structure Reorders (a a' : TypeId) : Prop where
  left : t.IsRecord a
  right : t.IsRecord a'
  perm : ((t.properties a).map Member.bare).Perm ((t.properties a').map Member.bare)

instance (i : TypeId) : Decidable (t.IsRecord i) :=
  decidable_of_iff ((t.object? i).isSome = true ∧ ((t.properties i).map Member.name).Nodup)
    ⟨fun h => ⟨h.1, h.2⟩, fun h => ⟨h.object, h.nodup_names⟩⟩

instance (a a' : TypeId) : Decidable (t.Reorders a a') :=
  decidable_of_iff (t.IsRecord a ∧ t.IsRecord a' ∧
      ((t.properties a).map Member.bare).Perm ((t.properties a').map Member.bare))
    ⟨fun h => ⟨h.1, h.2.1, h.2.2⟩, fun h => ⟨h.left, h.right, h.perm⟩⟩

/-- A property does not fit what its name is found for on the other side. -/
def refuses (property : Member) : Option Member → Bool
  | none => !property.optional
  | some other => match t.propertyMatch property.type other.type with
    | .same | .nested => false
    | .mismatch | .uneven | .never => true

variable {t} {a a' i : TypeId}

theorem Reorders.symm (h : t.Reorders a a') : t.Reorders a' a := ⟨h.right, h.left, h.perm.symm⟩

/-- What is found under a name, up to the place of its declaration. -/
theorem IsRecord.map_bare_property?_eq_some_iff (h : t.IsRecord i) {name : String} {m : Member} :
    (t.property? i name).map Member.bare = some m ↔
      m ∈ (t.properties i).map Member.bare ∧ m.name = name := by
  rw [Option.map_eq_some_iff, List.mem_map]
  constructor
  · rintro ⟨p, hp, rfl⟩
    obtain ⟨hmem, hname⟩ := mem_properties_of_property? hp
    exact ⟨⟨p, hmem, rfl⟩, hname⟩
  · rintro ⟨⟨p, hmem, rfl⟩, rfl⟩
    exact ⟨p, property?_of_mem_properties h.nodup_names hmem, rfl⟩

theorem Reorders.property? (h : t.Reorders a a') (name : String) :
    (t.property? a name).map Member.bare = (t.property? a' name).map Member.bare := by
  refine Option.ext fun m => ?_
  rw [h.left.map_bare_property?_eq_some_iff, h.right.map_bare_property?_eq_some_iff, h.perm.mem_iff]

theorem IsRecord.hasProperties (h : t.IsRecord i) : (t.shape i).hasProperties = true := by
  have hobject := h.object
  unfold object? at hobject
  unfold shape
  split at hobject
  · rename_i id hid
    simp [hid, Shape.hasProperties]
  · simp at hobject

theorem IsRecord.ne_any (h : t.IsRecord i) (hs : t.Sound) : i ≠ TypeId.any := by
  rintro rfl
  have hobject := h.object
  simp [object?, hs.get?_any] at hobject

theorem refuses_bare (property : Member) (other? : Option Member) :
    t.refuses property.bare (other?.map Member.bare) = t.refuses property other? := by
  cases other? <;> rfl

@[simp] theorem propertyMatch_self (t : Types) (i : TypeId) : t.propertyMatch i i = .same := by
  simp [propertyMatch]

end Types

namespace Program

variable {p : Program} {a a' first second t s : TypeId}

/-- A finding is a problem exactly if the property refuses what was found. -/
theorem problem_findingFor_iff (p : Program) (property : Member) (other? : Option Member) :
    (p.findingFor property other? = .mismatch ∨ p.findingFor property other? = .missing ∨
      p.findingFor property other? = .misslike) ↔ p.types.refuses property other? = true := by
  cases other? with
  | none => cases ho : property.optional <;> simp [findingFor, Types.refuses, ho]
  | some other =>
    simp only [findingFor, Types.refuses]
    cases p.types.propertyMatch property.type other.type <;>
      cases p.declaredAlike property other <;> simp

/-- Two shapes show a problem where a property of the first one refuses what is found for it. -/
theorem hasProblem_diffProperties (p : Program) (first second : TypeId) :
    (p.diffProperties first second).hasProblem = (p.types.properties first).any fun property =>
      p.types.refuses property (p.types.property? second property.name) := by
  rw [Bool.eq_iff_iff]
  simp [PropertyDiff.hasProblem, diffProperties, ← problem_findingFor_iff, or_assoc]

theorem leftOpen_nested_iff :
    Comparison.LeftOpen (p.diffProperties first second).nested t s ↔
      ∃ property ∈ p.types.properties first, ∃ other,
        p.types.property? second property.name = some other ∧
          p.types.propertyMatch property.type other.type = .nested ∧
            property.type = t ∧ other.type = s := by
  constructor
  · rintro ⟨pair, hp, rfl, rfl⟩
    obtain ⟨property, hproperty, other, hother, hmatch, rfl⟩ := mem_nested_diffProperties.mp hp
    exact ⟨property, hproperty, other, hother, hmatch, rfl, rfl⟩
  · rintro ⟨property, hproperty, other, hother, hmatch, rfl, rfl⟩
    exact ⟨_, mem_nested_diffProperties.mpr ⟨property, hproperty, other, hother, hmatch, rfl⟩, rfl, rfl⟩

/-! ### Reordered properties -/

theorem hasProblem_reordered (h : p.types.Reorders a a') (other : TypeId) :
    (p.diffProperties a other).hasProblem = (p.diffProperties a' other).hasProblem ∧
      (p.diffProperties other a).hasProblem = (p.diffProperties other a').hasProblem := by
  have hbare : ∀ i, (p.types.properties i).any (fun property =>
      p.types.refuses property (p.types.property? other property.name)) =
        ((p.types.properties i).map Member.bare).any fun property =>
          p.types.refuses property ((p.types.property? other property.name).map Member.bare) := by
    intro i
    rw [List.any_map]
    exact congrArg _ (funext fun property => (Types.refuses_bare property _).symm)
  simp only [hasProblem_diffProperties]
  constructor
  · rw [hbare, hbare, h.perm.any_eq]
  · refine congrArg _ (funext fun property => ?_)
    rw [← Types.refuses_bare, h.property?, Types.refuses_bare]

theorem leftOpen_nested_reordered (h : p.types.Reorders a a') (other : TypeId) :
    (Comparison.LeftOpen (p.diffProperties a other).nested t s →
        Comparison.LeftOpen (p.diffProperties a' other).nested t s) ∧
      (Comparison.LeftOpen (p.diffProperties other a).nested t s →
        Comparison.LeftOpen (p.diffProperties other a').nested t s) := by
  simp only [leftOpen_nested_iff]
  constructor
  · rintro ⟨property, hp, found, hfound, hmatch, rfl, rfl⟩
    obtain ⟨property', hp', heq⟩ := List.mem_map.mp (h.perm.mem_iff.mp (List.mem_map_of_mem hp))
    obtain ⟨hname, htype, -⟩ := Member.eq_of_bare_eq heq
    exact ⟨property', hp', found, hname ▸ hfound, htype ▸ hmatch, htype, rfl⟩
  · rintro ⟨property, hp, found, hfound, hmatch, rfl, rfl⟩
    have hsame := h.property? property.name
    rw [hfound] at hsame
    obtain ⟨found', hfound', heq⟩ := Option.map_eq_some_iff.mp hsame.symm
    obtain ⟨-, htype, -⟩ := Member.eq_of_bare_eq heq
    exact ⟨property, hp, found', hfound', htype ▸ hmatch, rfl, htype⟩

/-- Every property of a record finds itself. -/
theorem hasProblem_self (h : p.types.IsRecord a) : (p.diffProperties a a).hasProblem = false := by
  rw [hasProblem_diffProperties, List.any_eq_false]
  intro property hp
  simp [Types.property?_of_mem_properties h.nodup_names hp, Types.refuses]

theorem not_leftOpen_self (h : p.types.IsRecord a) :
    ¬Comparison.LeftOpen (p.diffProperties a a).nested t s := by
  rw [leftOpen_nested_iff]
  rintro ⟨property, hp, found, hfound, hmatch, -, -⟩
  obtain rfl := Option.some.inj
    ((Types.property?_of_mem_properties h.nodup_names hp).symm.trans hfound)
  simp at hmatch

end Program

namespace Comparison

variable (c : Comparison)

/-- What agrees of the second pair agrees of the first one too, and leaves no other pairs open. -/
structure LooksLike (target source target' source' : TypeId) : Prop where
  agrees (wide : Bool) : c.agrees wide target' source' = c.agrees wide target source
  leftOpen {wide : Bool} {t s : TypeId} (h : LeftOpen (c.openPairs wide target' source') t s) :
    LeftOpen (c.openPairs wide target source) t s

variable {c} {target source a a' b m t s : TypeId} {wide : Bool} {X Y : TypeId → TypeId → Prop}

theorem haveProperties_reordered (h : c.program.types.Reorders a a') (m : TypeId) :
    c.haveProperties a m = c.haveProperties a' m ∧ c.haveProperties m a = c.haveProperties m a' := by
  simp [haveProperties, h.left.hasProperties, h.right.hasProperties]

theorem shapesDiffer_reordered (h : c.program.types.Reorders a a') (m : TypeId) :
    c.shapesDiffer a m = c.shapesDiffer a' m ∧ c.shapesDiffer m a = c.shapesDiffer m a' := by
  obtain ⟨hfirst, hsecond⟩ := Program.hasProblem_reordered h m
  simp [shapesDiffer, hfirst, hsecond]

/-- A record fits a type that has a text of its own by its properties, unless one of them is `any`. -/
theorem agrees_iff_of_isRecord
    (hr : c.program.types.IsRecord target ∨ c.program.types.IsRecord source)
    (htext : c.program.types.render target = c.program.types.render source → target = source) :
    c.agrees wide target source = true ↔ (target = TypeId.any ∨ source = TypeId.any) ∨
      c.haveProperties target source = true ∧ c.shapesDiffer target source = false := by
  have hfits := fitsAtOnce_of_hasProperties (c := c) (hr.imp (·.hasProperties) (·.hasProperties)) wide
  by_cases hself : target = source
  · subst hself
    have hrecord := hr.elim id id
    simp [agrees, hfits, Types.triviallyFits, haveProperties, hrecord.hasProperties, shapesDiffer,
      Program.hasProblem_self hrecord]
  · simp [agrees, hfits, Types.triviallyFits, hself, mt htext hself]

theorem leftOpen_iff_of_isRecord
    (hr : c.program.types.IsRecord target ∨ c.program.types.IsRecord source)
    (htext : c.program.types.render target = c.program.types.render source → target = source) :
    LeftOpen (c.openPairs wide target source) t s ↔ ¬(target = TypeId.any ∨ source = TypeId.any) ∧
      LeftOpen (c.program.diffProperties target source).nested t s := by
  have hfits := fitsAtOnce_of_hasProperties (c := c) (hr.imp (·.hasProperties) (·.hasProperties)) wide
  have hnothing : ¬LeftOpen [] t s := by simp [LeftOpen]
  by_cases hself : target = source
  · subst hself
    have hnone := Program.not_leftOpen_self (t := t) (s := s) (hr.elim id id)
    simp [openPairs, hfits, Types.triviallyFits, hnone, hnothing]
  · by_cases hany : target = TypeId.any ∨ source = TypeId.any
    · have htrivially : c.program.types.triviallyFits target source = true := by
        rcases hany with h | h <;> simp [Types.triviallyFits, h]
      simp [openPairs, hfits, htrivially, hany, hnothing]
    · have hdiffer : c.program.types.triviallyFits target source = false := by
        simp [Types.triviallyFits, hself, mt htext hself, not_or.mp hany]
      simp [openPairs, hfits, hdiffer, hany]

/-- As targets, records with the same properties look alike. -/
theorem looksLike_target (hs : c.program.types.Sound) (h : c.program.types.Reorders a a')
    (htext : c.program.types.render a = c.program.types.render m → a = m)
    (htext' : c.program.types.render a' = c.program.types.render m → a' = m) :
    c.LooksLike a m a' m where
  agrees wide := by
    rw [Bool.eq_iff_iff, agrees_iff_of_isRecord (Or.inl h.right) htext',
      agrees_iff_of_isRecord (Or.inl h.left) htext, (haveProperties_reordered h m).1,
      (shapesDiffer_reordered h m).1]
    simp [h.left.ne_any hs, h.right.ne_any hs]
  leftOpen hopen := by
    rw [leftOpen_iff_of_isRecord (Or.inl h.right) htext'] at hopen
    rw [leftOpen_iff_of_isRecord (Or.inl h.left) htext]
    refine ⟨?_, (Program.leftOpen_nested_reordered h.symm m).1 hopen.2⟩
    simpa [h.left.ne_any hs, h.right.ne_any hs] using hopen.1

/-- So they do as sources. -/
theorem looksLike_source (hs : c.program.types.Sound) (h : c.program.types.Reorders a a')
    (htext : c.program.types.render a = c.program.types.render m → a = m)
    (htext' : c.program.types.render a' = c.program.types.render m → a' = m) :
    c.LooksLike m a m a' where
  agrees wide := by
    rw [Bool.eq_iff_iff, agrees_iff_of_isRecord (Or.inr h.right) fun heq => (htext' heq.symm).symm,
      agrees_iff_of_isRecord (Or.inr h.left) fun heq => (htext heq.symm).symm,
      (haveProperties_reordered h m).2, (shapesDiffer_reordered h m).2]
    simp [h.left.ne_any hs, h.right.ne_any hs]
  leftOpen hopen := by
    rw [leftOpen_iff_of_isRecord (Or.inr h.right) fun heq => (htext' heq.symm).symm] at hopen
    rw [leftOpen_iff_of_isRecord (Or.inr h.left) fun heq => (htext heq.symm).symm]
    refine ⟨?_, (Program.leftOpen_nested_reordered h.symm m).2 hopen.2⟩
    simpa [h.left.ne_any hs, h.right.ne_any hs] using hopen.1

/-- A member is accepted by one record if it is accepted by the other. -/
theorem AcceptedAmong.reorder_target (h : c.program.types.Reorders a a') (hl : c.LooksLike a m a' m)
    (ha : c.AcceptedAmong wide X Y [a] m) : c.AcceptedAmong wide X Y [a'] m := by
  cases ha with
  | @array k harray hk hfits =>
    obtain rfl := List.mem_singleton.mp hk
    have hagrees : c.agrees wide a' m = true := by
      rw [hl.agrees wide, agrees]
      rcases hfits with hfits | ⟨te, me, hte, -⟩
      · simp [hfits]
      · have hno := (of_hasProperties h.left.hasProperties).1
        simp [Types.isArray, hte] at hno
    refine .array harray (List.mem_singleton_self a') (Or.inl ?_)
    simpa [agrees, haveProperties_of_isArray (Or.inr harray)] using hagrees
  | @other k harray hk hopen =>
    obtain rfl := List.mem_singleton.mp (List.mem_of_find?_eq_some hk)
    obtain ⟨hagrees, -⟩ := List.find?_eq_some_iff_append.mp hk
    have hfirst : [a'].find? (c.agrees wide · m) = some a' := by simpa [hl.agrees wide] using hagrees
    refine .other harray hfirst fun pair hp => ?_
    obtain ⟨pair', hp', ht, hs⟩ := hl.leftOpen ⟨pair, hp, rfl, rfl⟩
    exact ht ▸ hs ▸ hopen pair' hp'

/-- One record is accepted among some targets if the other one is. -/
theorem AcceptedAmong.reorder_source {targets : List TypeId} (h : c.program.types.Reorders a a')
    (hl : ∀ k ∈ targets, c.LooksLike k a k a') (ha : c.AcceptedAmong wide X Y targets a) :
    c.AcceptedAmong wide X Y targets a' := by
  cases ha with
  | array harray =>
    simp [(of_hasProperties h.left.hasProperties).1] at harray
  | @other k _ hk hopen =>
    have hmem := List.mem_of_find?_eq_some hk
    have hfirst : targets.find? (c.agrees wide · a') = some k := by
      rw [← hk]
      exact List.find?_congr fun k hk => (hl k hk).agrees wide
    refine .other (of_hasProperties h.right.hasProperties).1 hfirst fun pair hp => ?_
    obtain ⟨pair', hp', ht, hs⟩ := (hl k hmem).leftOpen ⟨pair, hp, rfl, rfl⟩
    exact ht ▸ hs ▸ hopen pair' hp'

theorem Round.reorder_target (hs : c.program.types.Sound) (h : c.program.types.Reorders a a')
    (ht : c.DistinctTexts a b) (ht' : c.DistinctTexts a' b) (hround : c.Round wide X Y a b) :
    c.Round wide X Y a' b := by
  rw [round_iff_members hs (of_hasProperties h.left.hasProperties).2 ht] at hround
  rw [round_iff_members hs (of_hasProperties h.right.hasProperties).2 ht']
  intro m hm
  have hmem := List.mem_cons_of_mem b hm
  exact (hround m hm).reorder_target h (looksLike_target hs h (ht m hmem) (ht' m hmem))

theorem Round.reorder_source (hs : c.program.types.Sound) (h : c.program.types.Reorders a a')
    (ht : c.DistinctTexts a b) (ht' : c.DistinctTexts a' b) (hround : c.Round wide X Y b a) :
    c.Round wide X Y b a' := by
  have haccepted := hround.acceptedAmong hs (of_hasProperties h.left.hasProperties).2
    fun heq => (ht b List.mem_cons_self heq.symm).symm
  refine .of_acceptedAmong (of_hasProperties h.right.hasProperties).2
    (haccepted.reorder_source h fun k hk => ?_)
  have hmem := List.mem_cons_of_mem b hk
  exact looksLike_source hs h (ht k hmem) (ht' k hmem)

variable {trail : Trail}

/-- A record that stands alone as a target can be replaced by one with the same properties. -/
theorem conflict?_reorder_target (hs : c.program.types.Sound) (h : c.program.types.Reorders a a')
    (ht : c.DistinctTexts a b) (ht' : c.DistinctTexts a' b) (hl : c.StaysWithinLimits a b trail)
    (halone : c.StandsAlone a b) (hnone : c.conflict? a b trail = none) :
    c.conflict? a' b trail = none := by
  rw [conflict?_eq_compareEntered] at hnone ⊢
  have hround := (carriesOver depthBelow depthBelow).round (limits_firstRound a b)
    (staysWithinLimits_iff.mp hl) hnone fun next hnext => halone.makesUpFor hnext (firstRound a' b)
  exact compareEntered_of_acceptedFrom rfl (hround.reorder_target hs h ht ht')

/-- So can one that stands alone as a source. -/
theorem conflict?_reorder_source (hs : c.program.types.Sound) (h : c.program.types.Reorders a a')
    (ht : c.DistinctTexts a b) (ht' : c.DistinctTexts a' b) (hl : c.StaysWithinLimits b a trail)
    (halone : c.StandsAlone b a) (hnone : c.conflict? b a trail = none) :
    c.conflict? b a' trail = none := by
  rw [conflict?_eq_compareEntered] at hnone ⊢
  have hround := (carriesOver depthBelow depthBelow).round (limits_firstRound b a)
    (staysWithinLimits_iff.mp hl) hnone fun next hnext => halone.makesUpFor hnext (firstRound b a')
  exact compareEntered_of_acceptedFrom rfl (hround.reorder_source hs h ht ht')

/-- A record stands alone below a layer, and wherever nothing is widened. -/
theorem standsAlone_of_isRecord
    (hr : c.program.types.IsRecord target ∨ c.program.types.IsRecord source)
    (hlayer : c.mode.callArgument = false ∨ trail.length ≠ 0)
    (hl : c.StaysWithinLimits target source trail) (h : c.conflict? target source trail = none) :
    c.StandsAlone target source := by
  rcases hlayer with hmode | hlength
  · exact standsAlone_of_neverWidens (Or.inl hmode) hl h
  · exact fun _ => compat_of_hasProperties (hr.imp (·.hasProperties) (·.hasProperties)) hl h hlength

variable (c) in
/-- Nothing but the order of the properties of an object type without a name decides whether two types fit,
though no two types print the same and no limit has a part in it. -/
def DecidedByOrder (pairOf : TypeId → TypeId × TypeId) (a a' : TypeId) (trail : Trail) : Prop :=
  ((List.range c.program.types.size).map fun i => c.program.types.render ⟨i⟩).Nodup ∧
    c.program.types.Reorders a a' ∧
    (∀ i ∈ [a, a'], (c.program.types.object? i).bind ObjectShape.name = none ∧
      c.StaysWithinLimits (pairOf i).1 (pairOf i).2 trail) ∧
    ¬(c.conflict? (pairOf a).1 (pairOf a).2 trail = none ↔
      c.conflict? (pairOf a').1 (pairOf a').2 trail = none)

instance (pairOf : TypeId → TypeId × TypeId) (a a' : TypeId) (trail : Trail) :
    Decidable (c.DecidedByOrder pairOf a a' trail) :=
  inferInstanceAs (Decidable (_ ∧ _))

/-- Two object types that lead on to named ones, each with its properties in two orders. They differ in a
union, of a string and an object in the one and of a literal and the object in the other. The named types
lead back to what is given. -/
def leadingBack (first second : TypeId) : List Types.Operation :=
  let next (type : TypeId) : Member := { name := "next", type }
  let value (type : TypeId) : Member := { name := "value", type }
  let back (type : TypeId) : Member := { name := "back", type }
  [.declareObject "First", .declareObject "Second", .literal (.string "a"),
    .object { properties := [{ name := "x", type := TypeId.number }] },
    .union [TypeId.string, ⟨18⟩], .union [⟨17⟩, ⟨18⟩],
    .object { properties := [next ⟨15⟩, value ⟨19⟩] },
    .object { properties := [value ⟨19⟩, next ⟨15⟩] },
    .object { properties := [next ⟨16⟩, value ⟨20⟩] },
    .object { properties := [value ⟨20⟩, next ⟨16⟩] },
    .defineObject ⟨15⟩ { name := some "First", properties := [back first] },
    .defineObject ⟨16⟩ { name := some "Second", properties := [back second] }]

/-- In a call without a layer above, the order can decide what fits an object type and what it fits. -/
theorem order_decides :
    let c : Comparison := ⟨{ types := Types.initial.performAll (leadingBack ⟨21⟩ ⟨23⟩) }, Mode.call⟩
    c.DecidedByOrder (fun i => (i, ⟨23⟩)) ⟨21⟩ ⟨22⟩ Trail.empty ∧
      c.DecidedByOrder (fun i => (⟨21⟩, i)) ⟨23⟩ ⟨24⟩ Trail.empty := by
  decide

/-- Below a layer, and wherever nothing is widened, the order of the properties of an object type makes
no difference to what fits it and what it fits. Elsewhere it makes none if the types that fit stand
alone. -/
theorem reordered_fits_alike (hs : c.program.types.Sound) (hr : c.program.types.Reorders a a')
    (htext : ∀ i ∈ [a, a'], c.DistinctTexts i b)
    (hl : ∀ i ∈ [a, a'], c.StaysWithinLimits i b trail ∧ c.StaysWithinLimits b i trail) :
    (c.mode.callArgument = false ∨ trail.length ≠ 0 →
        (c.conflict? a b trail = none ↔ c.conflict? a' b trail = none) ∧
          (c.conflict? b a trail = none ↔ c.conflict? b a' trail = none)) ∧
      (c.StandsAlone a b → c.conflict? a b trail = none → c.conflict? a' b trail = none) ∧
      (c.StandsAlone b a → c.conflict? b a trail = none → c.conflict? b a' trail = none) := by
  obtain ⟨ht, ht'⟩ : c.DistinctTexts a b ∧ c.DistinctTexts a' b := ⟨htext a (by simp), htext a' (by simp)⟩
  obtain ⟨hlab, hlba⟩ := hl a (by simp)
  obtain ⟨hlab', hlba'⟩ := hl a' (by simp)
  have htarget := fun halone => conflict?_reorder_target hs hr ht ht' hlab halone
  have hsource := fun halone => conflict?_reorder_source hs hr ht ht' hlba halone
  refine ⟨fun hlayer => ⟨⟨fun h => ?_, fun h => ?_⟩, ⟨fun h => ?_, fun h => ?_⟩⟩, htarget, hsource⟩
  · exact htarget (standsAlone_of_isRecord (Or.inl hr.left) hlayer hlab h) h
  · exact conflict?_reorder_target hs hr.symm ht' ht hlab'
      (standsAlone_of_isRecord (Or.inl hr.right) hlayer hlab' h) h
  · exact hsource (standsAlone_of_isRecord (Or.inr hr.left) hlayer hlba h) h
  · exact conflict?_reorder_source hs hr.symm ht' ht hlba'
      (standsAlone_of_isRecord (Or.inr hr.right) hlayer hlba' h) h

/-- Where the named types lead nowhere, the object types fit in a call, in either order. Elsewhere the
literal does not fit, in no order. -/
theorem reordered_leadingNowhere :
    let c (mode : Mode) : Comparison :=
      ⟨{ types := Types.initial.performAll (leadingBack TypeId.number TypeId.number) }, mode⟩
    ((c Mode.call).StandsAlone ⟨21⟩ ⟨23⟩ ∧ (c Mode.call).conflict? ⟨22⟩ ⟨23⟩ Trail.empty = none) ∧
      (c {}).conflict? ⟨21⟩ ⟨23⟩ Trail.empty ≠ none ∧ (c {}).conflict? ⟨22⟩ ⟨23⟩ Trail.empty ≠ none := by
  intro c
  have hs : ∀ mode, (c mode).program.types.Sound :=
    fun _ => (Types.Built.initial.performAll (leadingBack TypeId.number TypeId.number)).sound
  have hcall : (c Mode.call).program.types.Reorders ⟨21⟩ ⟨22⟩ := by decide
  have hplain : (c {}).program.types.Reorders ⟨21⟩ ⟨22⟩ := by decide
  have halone : (c Mode.call).StandsAlone ⟨21⟩ ⟨23⟩ :=
    standsAlone_of_list (l := [(⟨15⟩, ⟨16⟩), (⟨19⟩, ⟨20⟩)]) (by decide) (by decide) (by decide)
  have hclash : (c {}).conflict? ⟨21⟩ ⟨23⟩ Trail.empty ≠ none := by decide
  refine ⟨⟨halone, ?_⟩, hclash, fun hnone => hclash ?_⟩
  · exact (reordered_fits_alike (hs _) hcall (by decide) (by decide)).2.1 halone (by decide)
  · exact ((reordered_fits_alike (hs _) hplain (by decide) (by decide)).1 (Or.inl rfl)).1.mpr hnone

end Comparison

end Misfit
