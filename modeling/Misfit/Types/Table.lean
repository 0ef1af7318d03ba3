import Misfit.Types.Basic

/-!
# The table of types

Every type of a program is entered into one table, once: two entries never hold the same data, and a
type keeps its id for good. Beside each pool stands a record of the ids that its items were entered
under, and this record alone decides whether an item is entered or found. A union is brought into normal
form before it is entered. A named object type can be declared before its shape is known, which is how
types that mention themselves are built; the shape is filled in later.
-/
namespace Misfit

/-- The types of a program and the pools behind them, with the ids that are recorded for the items of each
pool. Declaring an object type and filling in its shape leave `objectIds` alone. -/
structure Types where
  data : Array TypeData
  dataIds : List (TypeData × TypeId)
  lists : Array (List TypeId)
  listIds : List (List TypeId × ListId)
  objects : Array ObjectShape
  objectIds : List (ObjectShape × ObjectId)
  functions : Array FunctionShape
  functionIds : List (FunctionShape × FunctionId)
  deriving DecidableEq, Repr

/-- Answers the id that is recorded for an item, or enters the item at the end of its pool and records the
id of that place. -/
def enter {α ι : Type} [BEq α] (id : Nat → ι) (pool : Array α) (ids : List (α × ι)) (x : α) :
    (Array α × List (α × ι)) × ι :=
  match ids.lookup x with
  | some i => ((pool, ids), i)
  | none => ((pool.push x, ids ++ [(x, id pool.size)]), id pool.size)

namespace Types

def size (t : Types) : Nat := t.data.size

/-- What a type is; nothing is known of an id that the table has not handed out. -/
def get? (t : Types) (i : TypeId) : Option TypeData := t.data[i.raw]?

/-- The members behind a list id. -/
def listAt (t : Types) (i : ListId) : List TypeId := t.lists.getD i.raw []

/-- The shape behind an object id. -/
def objectAt (t : Types) (i : ObjectId) : ObjectShape := t.objects.getD i.raw {}

/-- The shape behind a function id. -/
def functionAt (t : Types) (i : FunctionId) : FunctionShape := t.functions.getD i.raw {}

/-- Enters a type, or finds it if it is there already. -/
def intern (t : Types) (d : TypeData) : Types × TypeId :=
  let r := enter TypeId.mk t.data t.dataIds d
  ({ t with data := r.1.1, dataIds := r.1.2 }, r.2)

/-- Enters a list of union members, or finds it. -/
def internList (t : Types) (members : List TypeId) : Types × ListId :=
  let r := enter ListId.mk t.lists t.listIds members
  ({ t with lists := r.1.1, listIds := r.1.2 }, r.2)

/-- Enters an object shape, or finds it. -/
def internObject (t : Types) (shape : ObjectShape) : Types × ObjectId :=
  let r := enter ObjectId.mk t.objects t.objectIds shape
  ({ t with objects := r.1.1, objectIds := r.1.2 }, r.2)

/-- Enters a function shape, or finds it. -/
def internFunction (t : Types) (shape : FunctionShape) : Types × FunctionId :=
  let r := enter FunctionId.mk t.functions t.functionIds shape
  ({ t with functions := r.1.1, functionIds := r.1.2 }, r.2)

/-- The reserved types, in the order of their ids. -/
def reserved : List TypeData :=
  Intrinsic.all.map TypeData.intrinsic ++
    [.literal (.boolean true), .literal (.boolean false), .object ⟨0⟩]

/-- The table of the reserved types. -/
def initial : Types where
  data := reserved.toArray
  dataIds := reserved.zipIdx.map fun entry => (entry.1, ⟨entry.2⟩)
  lists := #[]
  listIds := []
  objects := #[{}]
  objectIds := [({}, ⟨0⟩)]
  functions := #[]
  functionIds := []

instance : Inhabited Types := ⟨initial⟩

/-- The boolean literals are reserved. -/
def booleanLiteral (value : Bool) : TypeId :=
  if value then TypeId.booleanTrue else TypeId.booleanFalse

/-- The type of a literal. -/
def literal (t : Types) : Literal → Types × TypeId
  | .boolean b => (t, booleanLiteral b)
  | v => t.intern (.literal v)

/-- The type of a member of an enumeration. -/
def enumMember (t : Types) (enum member : String) (value : Literal) : Types × TypeId :=
  t.intern (.enumMember enum member value)

/-- The array type of an element type. -/
def array (t : Types) (element : TypeId) : Types × TypeId := t.intern (.array element)

/-- The object type of a shape. -/
def object (t : Types) (shape : ObjectShape) : Types × TypeId :=
  let (t, id) := t.internObject shape
  t.intern (.object id)

/-- The function type of a shape. -/
def function (t : Types) (shape : FunctionShape) : Types × TypeId :=
  let (t, id) := t.internFunction shape
  t.intern (.function id)

/-- A new object type that has a name and, for now, no properties. It is never shared. -/
def declareObject (t : Types) (name : String) : Types × TypeId :=
  let id : ObjectId := ⟨t.objects.size⟩
  ({ t with objects := t.objects.push (ObjectShape.named name) }).intern (.object id)

/-- Gives an object type another shape; nothing happens if the type is not an object type. -/
def defineObject (t : Types) (i : TypeId) (shape : ObjectShape) : Option Types :=
  match t.get? i with
  | some (.object id) =>
    if id.raw < t.objects.size then some { t with objects := t.objects.setIfInBounds id.raw shape }
    else none
  | _ => none

/-- The members of a union; every other type is its only member. -/
def members (t : Types) (i : TypeId) : List TypeId :=
  match t.get? i with
  | some (.union list) => t.listAt list
  | _ => [i]

/-- A list without repetitions, each element where it occurs first. -/
def dedup : List TypeId → List TypeId
  | [] => []
  | x :: xs => x :: (dedup xs).filter (· ≠ x)

/-- The members that a union of these types has: unions among them are replaced by their members,
repetitions and `never` are left out. -/
def flatten (t : Types) (members : List TypeId) : List TypeId :=
  (dedup (members.flatMap t.members)).filter (· ≠ TypeId.never)

/-- The union of some types in normal form: `any` or `unknown` if it is among them, `never` if there
are none, the type itself if there is just one. -/
def union (t : Types) (members : List TypeId) : Types × TypeId :=
  let flat := t.flatten members
  if TypeId.any ∈ flat then (t, TypeId.any)
  else if TypeId.unknown ∈ flat then (t, TypeId.unknown)
  else match flat with
    | [] => (t, TypeId.never)
    | [single] => (t, single)
    | _ =>
      let (t, list) := t.internList flat
      t.intern (.union list)

/-- Takes `undefined` out of a union, and says whether it was there. -/
def withoutUndefined (t : Types) (i : TypeId) : Types × TypeId × Bool :=
  let members := t.members i
  if members.length < 2 ∨ TypeId.undefined ∉ members then (t, i, false)
  else
    let (t, narrowed) := t.union (members.filter (· ≠ TypeId.undefined))
    (t, narrowed, true)

theorem mem_dedup {x : TypeId} {xs : List TypeId} : x ∈ dedup xs ↔ x ∈ xs := by
  induction xs with
  | nil => simp [dedup]
  | cons y ys ih =>
    by_cases h : x = y <;> simp [dedup, h, ih]

theorem nodup_dedup (xs : List TypeId) : (dedup xs).Nodup := by
  induction xs with
  | nil => simp [dedup]
  | cons y ys ih =>
    simp only [dedup, List.nodup_cons]
    exact ⟨by simp, List.Pairwise.filter _ ih⟩

/-- The members of a normalized union. -/
theorem mem_flatten {t : Types} {x : TypeId} {xs : List TypeId} :
    x ∈ t.flatten xs ↔ x ≠ TypeId.never ∧ ∃ y ∈ xs, x ∈ t.members y := by
  simp [flatten, mem_dedup, List.mem_flatMap, and_comm]

theorem get?_eq_none_iff {t : Types} {i : TypeId} : t.get? i = none ↔ t.size ≤ i.raw := by
  simp [get?, size]

end Types

end Misfit
