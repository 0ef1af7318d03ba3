import Misfit.Proofs.Compare.Place
import Misfit.Proofs.Compare.Symmetry

/-!
# What a shape clash says of the properties

A shape clash sorts the property names of the target into groups, and lists the names of the source that
the target lacks. No name is lost on the way and none is in two groups, and what is missing on a side can
be read off the two types.

Of the other direction only the missing names are kept. The names that clash there need not be: a name
that both sides declare falls into the same group whichever side it is looked up from, so it is among the
clashing names of the target already. That is why a clash that is reported always shows a problem.
-/
namespace Misfit

/-- The sort of findings says that both sides declare the name, whatever pair of types is left open. -/
structure Finding.OfBoth (sort : Finding → Bool) : Prop where
  missing : sort .missing = false
  optional : sort .optional = false
  unchecked : ∀ pair pair', sort (.unchecked pair) = sort (.unchecked pair')

theorem Finding.ofBoth_eq {finding : Finding}
    (h : finding = .matched ∨ finding = .mismatch ∨ finding = .misslike) :
    Finding.OfBoth fun f => decide (f = finding) := by
  rcases h with rfl | rfl | rfl <;> exact ⟨rfl, rfl, fun _ _ => by simp⟩

namespace PropertyDiff

variable (d : PropertyDiff)

/-- The names by what was found of them. -/
def groups : List (List String) :=
  [d.matched, d.mismatch, d.misslike, d.missing, d.optional, d.unchecked]

/-- Every name is in one group, once for each of its findings. -/
theorem perm_flatten_groups : d.groups.flatten.Perm (d.findings.map Prod.fst) := by
  rw [List.perm_iff_count]
  intro name
  obtain ⟨findings⟩ := d
  simp only [groups, matched, mismatch, misslike, missing, optional, unchecked, names,
    List.flatten_cons, List.flatten_nil, List.append_nil, List.count_append]
  induction findings with
  | nil => rfl
  | cons entry rest ih =>
    obtain ⟨other, finding⟩ := entry
    cases finding <;> simp [List.count_cons] <;> omega

theorem names_sublist (sort : Finding → Bool) : (d.names sort).Sublist (d.findings.map Prod.fst) :=
  List.filter_sublist.map Prod.fst

/-- The names of a group are in the order of the findings. -/
theorem sublist_of_mem_groups {group : List String} (h : group ∈ d.groups) :
    group.Sublist (d.findings.map Prod.fst) := by
  simp only [groups, List.mem_cons, List.not_mem_nil, or_false] at h
  rcases h with rfl | rfl | rfl | rfl | rfl | rfl <;> exact d.names_sublist _

theorem hasProblem_iff :
    d.hasProblem = true ↔ d.mismatch ≠ [] ∨ d.missing ≠ [] ∨ d.misslike ≠ [] := by
  obtain ⟨findings⟩ := d
  simp only [hasProblem, mismatch, missing, misslike, names, ne_eq, List.map_eq_nil_iff]
  induction findings with
  | nil => simp
  | cons entry rest ih =>
    obtain ⟨other, finding⟩ := entry
    cases finding <;> simp_all

end PropertyDiff

namespace ShapeClash

variable (clash : ShapeClash)

/-- The names of the target by what was found of them. -/
def groups : List (List String) :=
  [clash.matched, clash.mismatch, clash.misslike, clash.missing, clash.optional, clash.unchecked]

/-- The names that both sides declare are in the same groups. -/
structure Mirrors (clash other : ShapeClash) : Prop where
  matched : clash.matched.Perm other.matched
  mismatch : clash.mismatch.Perm other.mismatch
  misslike : clash.misslike.Perm other.misslike
  unchecked : clash.unchecked.Perm other.unchecked

end ShapeClash

namespace Types

variable {t : Types} {i : TypeId} {name : String}

variable (t) in
/-- The names of the properties of a type, in their order. -/
def names (i : TypeId) : List String := (t.properties i).map Member.name

variable (t) in
/-- The names of the optional properties of a type, or of the required ones, that another type lacks. -/
def absentNames (optional : Bool) (i other : TypeId) : List String :=
  ((t.properties i).filter fun p => p.optional = optional && p.name ∉ t.names other).map Member.name

theorem property?_eq_none_iff : t.property? i name = none ↔ name ∉ t.names i := by
  simp only [property?, names, properties]
  cases t.object? i with
  | none => simp
  | some shape => simp [ObjectShape.property?, List.find?_eq_none]

/-- No type has two properties of a name if no shape has. -/
theorem nodup_names_of_objects
    (h : ∀ shape ∈ t.objects.toList, (shape.properties.map Member.name).Nodup) (i : TypeId) :
    (t.names i).Nodup := by
  unfold names properties object?
  split
  · rename_i id _
    simp only [Option.elim_some, objectAt, Array.getD_eq_getD_getElem?]
    cases hid : t.objects[id.raw]? with
    | none => simp
    | some shape => exact h shape (by simpa using Array.mem_of_getElem? hid)
  · simp

end Types

namespace Program

variable {p : Program} {first second : TypeId}

theorem map_fst_findings (p : Program) (first second : TypeId) :
    (p.diffProperties first second).findings.map Prod.fst = p.types.names first := by
  simp [diffProperties, Types.names]

theorem names_diffProperties (sort : Finding → Bool) :
    (p.diffProperties first second).names sort =
      ((p.types.properties first).filter fun property =>
        sort (p.findingFor property (p.types.property? second property.name))).map Member.name := by
  simp [diffProperties, PropertyDiff.names, List.filter_map, Function.comp_def]

/-- A name that is found on the other side is not missing there. -/
theorem findingFor_some_ne (p : Program) (property other : Member) :
    p.findingFor property (some other) ≠ .missing ∧
      p.findingFor property (some other) ≠ .optional := by
  simp only [findingFor]
  split
  · simp
  · simp
  · split <;> simp

theorem findingFor_eq_missing_iff {property : Member} {other? : Option Member} :
    p.findingFor property other? = .missing ↔ property.optional = false ∧ other? = none := by
  cases other? with
  | none => simp [findingFor]
  | some other => simp [(p.findingFor_some_ne property other).1]

theorem findingFor_eq_optional_iff {property : Member} {other? : Option Member} :
    p.findingFor property other? = .optional ↔ property.optional = true ∧ other? = none := by
  cases other? with
  | none => simp [findingFor]
  | some other => simp [(p.findingFor_some_ne property other).2]

/-- The required names that are missing are those that the other side lacks. -/
theorem missing_diffProperties (p : Program) (first second : TypeId) :
    (p.diffProperties first second).missing = p.types.absentNames false first second := by
  simp [PropertyDiff.missing, names_diffProperties, Types.absentNames, findingFor_eq_missing_iff,
    Types.property?_eq_none_iff]

/-- So are the optional names. -/
theorem optional_diffProperties (p : Program) (first second : TypeId) :
    (p.diffProperties first second).optional = p.types.absentNames true first second := by
  simp [PropertyDiff.optional, names_diffProperties, Types.absentNames, findingFor_eq_optional_iff,
    Types.property?_eq_none_iff]

theorem declaredAlike_comm (p : Program) (first second : Member) :
    p.declaredAlike first second = p.declaredAlike second first := by
  unfold declaredAlike
  cases first.declaration.bind p.declarationText with
  | none => cases second.declaration.bind p.declarationText <;> rfl
  | some firstText =>
    cases second.declaration.bind p.declarationText with
    | none => rfl
    | some secondText => simp only [eq_comm]

/-- Two properties that are set against each other come to the same finding in both directions, except
that a pair left open is turned around. -/
theorem findingFor_comm (p : Program) (property other : Member) :
    p.findingFor property (some other) = p.findingFor other (some property) ∨
      (∃ pair, p.findingFor property (some other) = .unchecked pair) ∧
        ∃ pair, p.findingFor other (some property) = .unchecked pair := by
  simp only [findingFor, p.types.propertyMatch_comm other.type, p.declaredAlike_comm other]
  cases p.types.propertyMatch property.type other.type <;> simp

section BothWays

variable {sort : Finding → Bool}

/-- A name that both sides declare is in the same group of either direction. -/
theorem mem_names_of_mem_names (hsort : Finding.OfBoth sort) (hfirst : (p.types.names first).Nodup)
    {name : String} (h : name ∈ (p.diffProperties first second).names sort) :
    name ∈ (p.diffProperties second first).names sort := by
  simp only [names_diffProperties, List.mem_map, List.mem_filter] at h ⊢
  obtain ⟨property, ⟨hproperty, hfound⟩, rfl⟩ := h
  cases hother : p.types.property? second property.name with
  | none =>
    rw [hother, findingFor] at hfound
    split at hfound
    · simp [hsort.optional] at hfound
    · simp [hsort.missing] at hfound
  | some other =>
    rw [hother] at hfound
    obtain ⟨hmem, hname⟩ := Types.mem_properties_of_property? hother
    have hback : p.types.property? first other.name = some property :=
      hname ▸ Types.property?_of_mem_properties hfirst hproperty
    refine ⟨other, ⟨hmem, ?_⟩, hname⟩
    rw [hback]
    rcases p.findingFor_comm other property with heq | ⟨⟨pair, hpair⟩, pair', hpair'⟩
    · rwa [heq]
    · rwa [hpair, hsort.unchecked pair pair', ← hpair']

theorem perm_names (hsort : Finding.OfBoth sort) (hfirst : (p.types.names first).Nodup)
    (hsecond : (p.types.names second).Nodup) :
    ((p.diffProperties first second).names sort).Perm
      ((p.diffProperties second first).names sort) := by
  have hnodup : ∀ {i j}, (p.types.names i).Nodup → ((p.diffProperties i j).names sort).Nodup :=
    fun hi => (p.map_fst_findings _ _ ▸ PropertyDiff.names_sublist _ sort).nodup hi
  rw [List.perm_ext_iff_of_nodup (hnodup hfirst) (hnodup hsecond)]
  exact fun name => ⟨mem_names_of_mem_names hsort hfirst, mem_names_of_mem_names hsort hsecond⟩

end BothWays

end Program

namespace Comparison

variable (c : Comparison) {target source : TypeId} {clash : ShapeClash}

/-- What a shape clash of two types says of their properties. -/
structure Accounts (target source : TypeId) (clash : ShapeClash) : Prop where
  targetSide : clash.targetSide = c.program.describeType target
  sourceSide : clash.sourceSide = c.program.describeType source
  /-- Both are objects or functions. -/
  haveProperties : c.haveProperties target source = true
  disjoint : clash.groups.Pairwise List.Disjoint
  names : clash.groups.flatten.Perm (c.program.types.names target)
  inOrder : ∀ group ∈ clash.groups, group.Sublist (c.program.types.names target)
  missing : clash.missing = c.program.types.absentNames false target source
  optional : clash.optional = c.program.types.absentNames true target source
  overlap : clash.overlap = clash.matched.length + clash.unchecked.length
  surplus_isSome : clash.surplus.isSome = c.mode.bothWays
  surplus : ∀ surplus, clash.surplus = some surplus →
    surplus.missing = c.program.types.absentNames false source target ∧
      surplus.optional = c.program.types.absentNames true source target
  total : clash.total = if c.mode.bothWays
    then max (c.program.types.names target).length (c.program.types.names source).length
    else (c.program.types.names target).length
  evidence : clash.mismatch ≠ [] ∨ clash.misslike ≠ [] ∨ clash.missing ≠ [] ∨ clash.surplusMissing ≠ []
  mirrors : clash.Mirrors (c.clashOf source target)
  /-- The other direction has no problem of its own but names that are missing. -/
  onlyMissing : (c.program.diffProperties source target).hasProblem = true →
    clash.mismatch = [] → clash.misslike = [] →
      c.program.types.absentNames false source target ≠ []

variable {c}

/-- The context that a clash is shown with does not matter. -/
theorem Accounts.promote (h : c.Accounts target source clash) :
    c.Accounts target source clash.promote where
  targetSide := h.targetSide
  sourceSide := h.sourceSide
  haveProperties := h.haveProperties
  disjoint := h.disjoint
  names := h.names
  inOrder := h.inOrder
  missing := h.missing
  optional := h.optional
  overlap := h.overlap
  surplus_isSome := by simpa [ShapeClash.promote] using h.surplus_isSome
  surplus := by
    intro surplus hsurplus
    obtain ⟨shown, hshown, rfl⟩ := Option.map_eq_some_iff.mp hsurplus
    exact h.surplus shown hshown
  total := h.total
  evidence := by
    have hmissing : clash.promote.surplusMissing = clash.surplusMissing := by
      cases hs : clash.surplus <;> simp [ShapeClash.promote, ShapeClash.surplusMissing, hs]
    rw [hmissing]
    exact h.evidence
  mirrors := ⟨h.mirrors.matched, h.mirrors.mismatch, h.mirrors.misslike, h.mirrors.unchecked⟩
  onlyMissing := h.onlyMissing

theorem mirrors_clashOf (htarget : (c.program.types.names target).Nodup)
    (hsource : (c.program.types.names source).Nodup) :
    (c.clashOf target source).Mirrors (c.clashOf source target) where
  matched := Program.perm_names (Finding.ofBoth_eq (.inl rfl)) htarget hsource
  mismatch := Program.perm_names (Finding.ofBoth_eq (.inr (.inl rfl))) htarget hsource
  misslike := Program.perm_names (Finding.ofBoth_eq (.inr (.inr rfl))) htarget hsource
  unchecked := (Program.perm_names ⟨rfl, rfl, fun _ _ => rfl⟩ htarget hsource :
    (c.program.diffProperties target source).unchecked.Perm
      (c.program.diffProperties source target).unchecked)

/-- A problem of the other direction is a name that clashes in this one too, or one that is missing. -/
theorem problem_of_reverse (htarget : (c.program.types.names target).Nodup)
    (hsource : (c.program.types.names source).Nodup)
    (h : (c.program.diffProperties source target).hasProblem = true) :
    (c.program.diffProperties target source).mismatch ≠ [] ∨
      (c.program.diffProperties target source).misslike ≠ [] ∨
        c.program.types.absentNames false source target ≠ [] := by
  obtain ⟨-, hmismatch, hmisslike, -⟩ := c.mirrors_clashOf htarget hsource
  rcases (PropertyDiff.hasProblem_iff _).mp h with h | h | h
  · exact Or.inl fun hnil => h (List.Perm.nil_eq (hnil ▸ hmismatch)).symm
  · rw [Program.missing_diffProperties] at h
    exact Or.inr (Or.inr h)
  · exact Or.inr (Or.inl fun hnil => h (List.Perm.nil_eq (hnil ▸ hmisslike)).symm)

/-- Shapes that differ show a problem, in whichever direction they do. -/
theorem evidence_clashOf (htarget : (c.program.types.names target).Nodup)
    (hsource : (c.program.types.names source).Nodup) (h : c.shapesDiffer target source = true) :
    (c.clashOf target source).mismatch ≠ [] ∨ (c.clashOf target source).misslike ≠ [] ∨
      (c.clashOf target source).missing ≠ [] ∨ (c.clashOf target source).surplusMissing ≠ [] := by
  rcases Bool.or_eq_true_iff.mp h with h | h
  · rcases (PropertyDiff.hasProblem_iff _).mp h with h | h | h
    · exact Or.inl h
    · exact Or.inr (Or.inr (Or.inl h))
    · exact Or.inr (Or.inl h)
  · obtain ⟨hb, h⟩ := Bool.and_eq_true_iff.mp h
    have hsurplus : (c.clashOf target source).surplusMissing =
        c.program.types.absentNames false source target := by
      simp [clashOf, Program.shapeClash, ShapeClash.surplusMissing, hb,
        Program.missing_diffProperties]
    rcases problem_of_reverse htarget hsource h with h | h | h
    · exact Or.inl h
    · exact Or.inr (Or.inl h)
    · exact Or.inr (Or.inr (Or.inr (hsurplus ▸ h)))

/-- Two shapes that differ are reported with all that was found of their properties. -/
theorem accounts_clashOf (htarget : (c.program.types.names target).Nodup)
    (hsource : (c.program.types.names source).Nodup) (hp : c.haveProperties target source = true)
    (h : c.shapesDiffer target source = true) : c.Accounts target source (c.clashOf target source) := by
  have hnames : (c.clashOf target source).groups.flatten.Perm (c.program.types.names target) :=
    c.program.map_fst_findings target source ▸ PropertyDiff.perm_flatten_groups _
  exact
    { targetSide := rfl
      sourceSide := rfl
      haveProperties := hp
      disjoint := (List.nodup_flatten.mp (hnames.nodup_iff.mpr htarget)).2
      names := hnames
      inOrder := fun group hgroup => c.program.map_fst_findings target source ▸
        (c.program.diffProperties target source).sublist_of_mem_groups hgroup
      missing := c.program.missing_diffProperties target source
      optional := c.program.optional_diffProperties target source
      overlap := rfl
      surplus_isSome := by cases hb : c.mode.bothWays <;> simp [clashOf, Program.shapeClash, hb]
      surplus := by
        intro surplus hsurplus
        obtain ⟨reverse, hreverse, rfl⟩ := Option.map_eq_some_iff.mp hsurplus
        obtain rfl := Option.some.inj (Option.ite_none_right_eq_some.mp hreverse).2
        exact ⟨c.program.missing_diffProperties source target,
          c.program.optional_diffProperties source target⟩
      total := by
        cases hb : c.mode.bothWays <;> simp [clashOf, Program.shapeClash, Types.names, hb]
      evidence := evidence_clashOf htarget hsource h
      mirrors := mirrors_clashOf htarget hsource
      onlyMissing := fun h hmismatch hmisslike =>
        ((problem_of_reverse htarget hsource h).resolve_left (not_not_intro hmismatch)).resolve_left
          (not_not_intro hmisslike) }

/-- Every shape clash in a conflict accounts for the properties of an object or function type on either
side, where no type has two properties of one name. -/
theorem accounts_of_compare {trail : Trail} {w : Walk} {conflict : Conflict} {shown : List ShapeClash}
    (hn : ∀ i, (c.program.types.names i).Nodup)
    (h : (c.compare target source trail w).1 = some conflict)
    (hclash : conflict.clash = .shapes shown) :
    ∀ clash ∈ shown, ∃ k m, c.Accounts k m clash := by
  obtain ⟨last, hexplains⟩ := explains_of_compare h
  rw [hclash] at hexplains
  obtain ⟨_, _, _, m, _, hshown⟩ := hexplains.clashOf
  intro clash hmem
  obtain ⟨k, -, hp, hdiffer, rfl | rfl⟩ := hshown clash hmem
  · exact ⟨k, m, accounts_clashOf (hn k) (hn m) hp hdiffer⟩
  · exact ⟨k, m, (accounts_clashOf (hn k) (hn m) hp hdiffer).promote⟩

/-- Two object types. Of the properties of the first one, the second has one of the same type, one of
another type and one whose type has parts of its own; it lacks a required and an optional one, and has
as many more itself. -/
def ledgerTypes : Types :=
  let member (name : String) (type : TypeId) (optional : Bool) : Member := { name, type, optional }
  let (t, inner) := Types.initial.object { properties := [member "x" TypeId.number false] }
  let (t, other) := t.object { properties := [member "y" TypeId.number false] }
  let (t, _) := t.object { properties := [member "id" TypeId.number false,
    member "name" TypeId.string false, member "place" inner false, member "size" TypeId.number false,
    member "note" TypeId.string true] }
  (t.object { properties := [member "hint" TypeId.string true, member "name" TypeId.number false,
    member "place" other false, member "id" TypeId.number false,
    member "extra" TypeId.string false] }).1

/-- The clash of the two types names all seven properties. -/
theorem accounts_ledgerTypes :
    let c : Comparison := ⟨{ types := ledgerTypes }, {}⟩
    (∀ i, (c.program.types.names i).Nodup) ∧
      ∃ conflict clash, (c.compare ⟨17⟩ ⟨18⟩ Trail.empty Walk.start).1 = some conflict ∧
        conflict.clash = .shapes [clash] ∧
        clash.groups = [["id"], ["name"], [], ["size"], ["note"], ["place"]] ∧
        clash.surplus = some { missing := ["extra"], optional := ["hint"] } ∧
        ∃ k m, c.Accounts k m clash := by
  intro c
  have hn : ∀ i, (c.program.types.names i).Nodup := Types.nodup_names_of_objects (by decide)
  have hclash : (c.compare ⟨17⟩ ⟨18⟩ Trail.empty Walk.start).1.map (·.clash) =
      some (.shapes [c.clashOf ⟨17⟩ ⟨18⟩]) := by decide
  obtain ⟨conflict, hconflict, hshapes⟩ := Option.map_eq_some_iff.mp hclash
  refine ⟨hn, conflict, _, hconflict, hshapes, by decide, by decide, ?_⟩
  exact accounts_of_compare hn hconflict hshapes _ (List.mem_singleton_self _)

end Comparison

end Misfit
