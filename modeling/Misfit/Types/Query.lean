import Misfit.Types.Render

/-!
# Questions about types

What the comparison asks of a type: its shape, its members and properties, and whether it is simple,
that is, judged by its text alone.
-/
namespace Misfit

/-- What a comparison sees of a type. -/
inductive Shape
  /-- Everything that is compared by its text. -/
  | simple (categories : List Category)
  | arrayOf (element : TypeId)
  | union (members : List TypeId)
  | structured (shape : ObjectShape)
  | function (shape : FunctionShape)
  | never
  deriving DecidableEq, Repr

namespace Shape

def isArray : Shape → Bool
  | arrayOf _ => true
  | _ => false

def isUnion : Shape → Bool
  | union _ => true
  | _ => false

/-- Has parts that can be compared one by one. -/
def isStructured : Shape → Bool
  | structured _ | function _ | union _ => true
  | _ => false

end Shape

namespace Types

/-- The shape of a type. -/
def shape (t : Types) (i : TypeId) : Shape :=
  match t.get? i with
  | some (.array element) => .arrayOf element
  | some (.union list) => .union (t.listAt list)
  | some (.object id) => .structured (t.objectAt id)
  | some (.function id) => .function (t.functionAt id)
  | _ => if i = TypeId.never then .never else .simple (t.categories i)

/-- The element type of an array type. -/
def element? (t : Types) (i : TypeId) : Option TypeId :=
  match t.get? i with
  | some (.array element) => some element
  | _ => none

def isArray (t : Types) (i : TypeId) : Bool := (t.element? i).isSome

def isUnion (t : Types) (i : TypeId) : Bool :=
  match t.get? i with
  | some (.union _) => true
  | _ => false

/-- The shape of a function type. -/
def function? (t : Types) (i : TypeId) : Option FunctionShape :=
  match t.get? i with
  | some (.function id) => some (t.functionAt id)
  | _ => none

def isFunction (t : Types) (i : TypeId) : Bool := (t.function? i).isSome

/-- The shape of an object type. -/
def object? (t : Types) (i : TypeId) : Option ObjectShape :=
  match t.get? i with
  | some (.object id) => some (t.objectAt id)
  | _ => none

/-- The properties of an object type; no other type has any. -/
def properties (t : Types) (i : TypeId) : List Member := (t.object? i).elim [] ObjectShape.properties

def property? (t : Types) (i : TypeId) (name : String) : Option Member :=
  (t.object? i).bind (·.property? name)

/-- The index signatures of an object type; no other type has any. -/
def indexes (t : Types) (i : TypeId) : List IndexSignature :=
  (t.object? i).elim [] ObjectShape.indexes

/-- `never`, or an array of `never`. -/
def isNever (t : Types) (i : TypeId) : Bool := (t.element? i).getD i = TypeId.never

/-- Objects, arrays, functions and unions. -/
def isStructured (t : Types) (i : TypeId) : Bool := t.isOneOf i Category.structured

/-- Whether a type inside the unions in `path` is simple, at most `depth` levels deep. A union met
again inside itself adds no member. -/
def isSimpleWithin (t : Types) : Nat → List TypeId → TypeId → Bool
  | 0, _, _ => true
  | depth + 1, path, i =>
    match t.get? i with
    | some (.union list) =>
      i ∈ path || (t.listAt list).all (isSimpleWithin t depth (i :: path))
    | _ => !t.isOneOf i Category.notSimple

/-- A type that is compared by its text alone. A union is simple if all of its members are. -/
def isSimple (t : Types) (i : TypeId) : Bool := t.isSimpleWithin (t.size + 1) [] i

/-- A literal or a member of an enumeration. -/
def isLiteral (t : Types) (i : TypeId) : Bool := t.isOneOf i Category.literals

/-- Both types belong to one family. -/
def areLike (t : Types) (source target : TypeId) : Bool :=
  Category.families.any fun family => t.isOneOf source family && t.isOneOf target family

theorem shape_eq_arrayOf_iff {t : Types} {i e : TypeId} :
    t.shape i = .arrayOf e ↔ t.element? i = some e := by
  unfold shape element?
  cases t.get? i with
  | none => dsimp only; split <;> simp
  | some d => cases d <;> dsimp only <;> (try split) <;> simp

theorem isArray_iff {t : Types} {i : TypeId} : t.isArray i = true ↔ ∃ e, t.element? i = some e :=
  Option.isSome_iff_exists

theorem categories_of_element? {t : Types} {i e : TypeId} (h : t.element? i = some e) :
    t.categories i = [.object] := by
  unfold element? at h
  split at h
  · rename_i element hi
    simp [categories, hi, TypeData.categories]
  · simp at h

/-- A union is not an array. -/
theorem isArray_eq_false_of_isUnion {t : Types} {i : TypeId} (h : t.isUnion i = true) :
    t.isArray i = false := by
  unfold isUnion at h
  split at h
  · rename_i list hi
    simp [isArray, element?, hi]
  · simp at h

theorem isUnion_eq_false_of_isArray {t : Types} {i : TypeId} (h : t.isArray i = true) :
    t.isUnion i = false := by
  cases hu : t.isUnion i with
  | false => rfl
  | true => simp [isArray_eq_false_of_isUnion hu] at h

@[simp] theorem isArray_shape (t : Types) (i : TypeId) : (t.shape i).isArray = t.isArray i := by
  unfold shape isArray element?
  cases t.get? i with
  | none => dsimp only; split <;> rfl
  | some d => cases d <;> dsimp only <;> (try split) <;> rfl

@[simp] theorem isUnion_shape (t : Types) (i : TypeId) : (t.shape i).isUnion = t.isUnion i := by
  unfold shape isUnion
  cases t.get? i with
  | none => dsimp only; split <;> rfl
  | some d => cases d <;> dsimp only <;> (try split) <;> rfl

theorem members_eq_of_not_isUnion {t : Types} {i : TypeId} (h : t.isUnion i = false) :
    t.members i = [i] := by
  unfold members
  split
  · rename_i list hi
    simp [isUnion, hi] at h
  · rfl

theorem eq_of_mem_members {t : Types} {i m : TypeId} (h : t.isUnion i = false)
    (hm : m ∈ t.members i) : m = i := by
  rwa [members_eq_of_not_isUnion h, List.mem_singleton] at hm

theorem exists_list_of_isUnion {t : Types} {i : TypeId} (h : t.isUnion i = true) :
    ∃ list, t.get? i = some (.union list) ∧ t.members i = t.listAt list := by
  unfold isUnion at h
  split at h
  · rename_i list hi
    exact ⟨list, hi, by simp only [members, hi]⟩
  · simp at h

theorem mem_properties_of_property? {t : Types} {i : TypeId} {name : String} {m : Member}
    (h : t.property? i name = some m) : m ∈ t.properties i ∧ m.name = name := by
  obtain ⟨shape, hobject, hfind⟩ := Option.bind_eq_some_iff.mp h
  obtain ⟨hname, hmem⟩ := Member.name_of_property? hfind
  exact ⟨by simpa [properties, hobject] using hmem, hname⟩

/-- Objects, functions and arrays belong to no family of primitive types. -/
theorem areLike_eq_false_of_categories {t : Types} {i : TypeId} (h : t.categories i = [.object])
    (j : TypeId) : t.areLike i j = false := by
  simp [areLike, isOneOf, h, Category.families, Category.stringLike, Category.numberLike,
    Category.booleanLike, Category.bigintLike]

theorem areLike_comm (t : Types) (a b : TypeId) : t.areLike a b = t.areLike b a := by
  simp [areLike, Bool.and_comm]

end Types

end Misfit
