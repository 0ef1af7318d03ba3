import Misfit.Describe
import Misfit.Record.Clash

/-!
# Comparing the properties of two shapes

One direction of comparing two object types: every property of the first is looked up on the second. Two
properties are set against each other only on the surface; where both have parts of their own, the pair
is left to a comparison of its own, to be made once the shapes around it agree.
-/
namespace Misfit

/-- What two property types are to each other on the surface. -/
inductive PropertyMatch
  | same
  /-- Both are simple, and they differ. -/
  | mismatch
  /-- Just one of them is simple. -/
  | uneven
  /-- None is simple, and one is `never`. -/
  | never
  /-- Both have parts; comparing those decides. -/
  | nested
  deriving DecidableEq, Repr

/-- A pair of property types left to a comparison of its own, and the layer that describes it. -/
structure NestedPair where
  target : TypeId
  source : TypeId
  layer : Layer
  deriving DecidableEq, Repr

/-- Where a property goes when it is looked up on the other side. -/
inductive Finding
  | matched
  | mismatch
  | misslike
  | missing
  | optional
  | unchecked (pair : NestedPair)
  deriving DecidableEq, Repr

/-- The findings for the properties of one side, in their order. -/
structure PropertyDiff where
  findings : List (String × Finding) := []
  deriving DecidableEq, Repr

namespace PropertyDiff

/-- The names with a finding of one sort. -/
def names (d : PropertyDiff) (sort : Finding → Bool) : List String :=
  (d.findings.filter (sort ·.2)).map Prod.fst

def matched (d : PropertyDiff) : List String := d.names (· = .matched)
def mismatch (d : PropertyDiff) : List String := d.names (· = .mismatch)
def misslike (d : PropertyDiff) : List String := d.names (· = .misslike)
def missing (d : PropertyDiff) : List String := d.names (· = .missing)
def optional (d : PropertyDiff) : List String := d.names (· = .optional)

def unchecked (d : PropertyDiff) : List String :=
  d.names fun | .unchecked _ => true | _ => false

/-- The pairs that are left to comparisons of their own. -/
def nested (d : PropertyDiff) : List NestedPair :=
  d.findings.filterMap fun | (_, .unchecked pair) => some pair | _ => none

/-- The number of properties. -/
def total (d : PropertyDiff) : Nat := d.findings.length

/-- The number of names on which the sides agree as far as was checked. -/
def overlap (d : PropertyDiff) : Nat := d.matched.length + d.unchecked.length

/-- Some property does not fit. -/
def hasProblem (d : PropertyDiff) : Bool :=
  d.findings.any fun (_, f) => f = .mismatch || f = .missing || f = .misslike

end PropertyDiff

namespace Types

/-- Two unions, or a union and another type, have a simple member of the same text. -/
def shareSimpleMember (t : Types) (first second : TypeId) : Bool :=
  let simpleTexts (members : List TypeId) := (members.filter t.isSimple).map t.render
  let firsts := t.members first
  let seconds := t.members second
  if firsts.length < 2 && seconds.length < 2 then false
  else
    let texts := simpleTexts firsts
    (simpleTexts seconds).any (· ∈ texts)

/-- Sets two property types against each other. Two functions always match: the types of their
parameters and results are not compared. -/
def propertyMatch (t : Types) (first second : TypeId) : PropertyMatch :=
  if first = TypeId.any || second = TypeId.any || t.render first = t.render second ||
      (t.isFunction first && t.isFunction second) || t.shareSimpleMember first second then .same
  else if t.isSimple first && t.isSimple second then .mismatch
  else if t.isSimple first || t.isSimple second then .uneven
  else if t.isNever first || t.isNever second then .never
  else .nested

end Types

namespace Program

/-- Both members are declared, with the same text. -/
def declaredAlike (p : Program) (first second : Member) : Bool :=
  match first.declaration.bind p.declarationText, second.declaration.bind p.declarationText with
  | some firstText, some secondText => firstText = secondText
  | _, _ => false

/-- Looks up one property of a side on the other side. -/
def findingFor (p : Program) (property : Member) (other? : Option Member) : Finding :=
  match other? with
  | none => if property.optional then .optional else .missing
  | some other => match p.types.propertyMatch property.type other.type with
    | .same => .matched
    | .nested => .unchecked
      { target := property.type, source := other.type
        layer := ⟨p.describeMember property, .node (p.describeMember other)⟩ }
    | _ => if p.declaredAlike property other then .misslike else .mismatch

/-- Looks up each property of `first` on `second`. Pairs left open have `first` as their target. -/
def diffProperties (p : Program) (first second : TypeId) : PropertyDiff where
  findings := (p.types.properties first).map fun property =>
    (property.name, p.findingFor property (p.types.property? second property.name))

/-- The clash of two shapes, from the comparison of their properties in one direction or both. -/
def shapeClash (p : Program) (target source : TypeId) (forward : PropertyDiff)
    (reverse : Option PropertyDiff) : ShapeClash where
  targetSide := p.describeType target
  sourceSide := p.describeType source
  matched := forward.matched
  mismatch := forward.mismatch
  misslike := forward.misslike
  missing := forward.missing
  optional := forward.optional
  unchecked := forward.unchecked
  overlap := forward.overlap
  total := max forward.total (reverse.elim 0 PropertyDiff.total)
  surplus := reverse.map fun r => { missing := r.missing, optional := r.optional }

theorem findingFor_eq_unchecked_iff {p : Program} {property : Member} {other? : Option Member}
    {pair : NestedPair} :
    p.findingFor property other? = .unchecked pair ↔
      ∃ other, other? = some other ∧ p.types.propertyMatch property.type other.type = .nested ∧
        pair = ⟨property.type, other.type,
          ⟨p.describeMember property, .node (p.describeMember other)⟩⟩ := by
  cases other? with
  | none =>
    simp only [findingFor]
    split <;> simp
  | some other =>
    simp only [findingFor]
    split
    · simp_all
    · simp_all [eq_comm]
    · split <;> simp_all

/-- The pairs left open are the properties of the first side that have parts there and on the second. -/
theorem mem_nested_diffProperties {p : Program} {first second : TypeId} {pair : NestedPair} :
    pair ∈ (p.diffProperties first second).nested ↔
      ∃ property ∈ p.types.properties first, ∃ other,
        p.types.property? second property.name = some other ∧
        p.types.propertyMatch property.type other.type = .nested ∧
        pair = ⟨property.type, other.type,
          ⟨p.describeMember property, .node (p.describeMember other)⟩⟩ := by
  rw [PropertyDiff.nested, List.mem_filterMap]
  constructor
  · rintro ⟨⟨name, finding⟩, hmem, hfinding⟩
    obtain ⟨property, hproperty, heq⟩ := List.mem_map.mp hmem
    obtain ⟨rfl, rfl⟩ := Prod.mk.inj heq
    split at hfinding
    · rename_i pair' hunchecked
      cases hfinding
      exact ⟨property, hproperty, findingFor_eq_unchecked_iff.mp (congrArg Prod.snd hunchecked)⟩
    · simp at hfinding
  · rintro ⟨property, hproperty, hother⟩
    exact ⟨_, List.mem_map_of_mem hproperty, by simp [findingFor_eq_unchecked_iff.mpr hother]⟩

@[simp] theorem total_diffProperties (p : Program) (first second : TypeId) :
    (p.diffProperties first second).total = (p.types.properties first).length := by
  simp [diffProperties, PropertyDiff.total]

end Program

namespace Types

/-- Which of two property types comes first makes no difference on the surface. -/
theorem propertyMatch_comm (t : Types) (a b : TypeId) :
    t.propertyMatch a b = t.propertyMatch b a := by
  have hs : t.shareSimpleMember a b = t.shareSimpleMember b a := by
    simp only [shareSimpleMember, Bool.and_comm (decide ((t.members a).length < 2))]
    congr 1
    rw [Bool.eq_iff_iff]
    simp only [List.any_eq_true, decide_eq_true_eq]
    exact ⟨fun ⟨x, h, h'⟩ => ⟨x, h', h⟩, fun ⟨x, h, h'⟩ => ⟨x, h', h⟩⟩
  simp only [propertyMatch, hs, eq_comm (a := t.render a), Bool.and_comm (t.isFunction a),
    Bool.and_comm (t.isSimple a), Bool.or_comm (t.isSimple a), Bool.or_comm (t.isNever a),
    Bool.or_comm (decide (a = TypeId.any))]

end Types

end Misfit
