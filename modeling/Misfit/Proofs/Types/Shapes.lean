import Misfit.Proofs.Types.Operations

/-!
# The shapes of object types

A shape is found through the record of what was entered, and giving a type another shape does not touch
that record. So whoever enters a shape again is answered with the type that it was entered under, whatever
shape this type has by then: the one it was given last, if it was given any, and otherwise the shape that
was entered. As long as only declared types are given shapes, what is entered is what is found. None of
this depends on what else is entered, be it data that refers to shapes which are not there.
-/
namespace Misfit

namespace Types

/-- What can be asked of a table: one of its operations, or to enter data just as it is. -/
inductive Request
  | perform (op : Operation)
  | intern (d : TypeData)
  deriving DecidableEq, Repr

variable (t : Types)

/-- The table after a request. -/
def serve : Request → Types
  | .perform op => (t.perform op).1
  | .intern d => (t.intern d).1

/-- The type that is given another shape by a request, with the shape; nothing if it is not an object
type. -/
def gives : Request → Option (TypeId × ObjectShape)
  | .perform (.defineObject i shape) => (t.defineObject i shape).map fun _ => (i, shape)
  | _ => none

/-- The type that a request declares. -/
def declares : Request → Option TypeId
  | .perform (.declareObject name) => some (t.declareObject name).2
  | _ => none

/-- A table, the shapes that types have been given on the way to it, the latest first, and the types that
have been declared. -/
structure History where
  table : Types
  given : List (TypeId × ObjectShape) := []
  declared : List TypeId := []

namespace History

def start : History := { table := initial }

/-- What one more request leaves. -/
def after (h : History) (r : Request) : History where
  table := h.table.serve r
  given := (h.table.gives r).toList ++ h.given
  declared := (h.table.declares r).toList ++ h.declared

def afterAll (h : History) (rs : List Request) : History := rs.foldl after h

/-- Only declared types have been given shapes. -/
def FillsDeclared (h : History) : Prop := ∀ entry ∈ h.given, entry.1 ∈ h.declared

instance (h : History) : Decidable h.FillsDeclared :=
  inferInstanceAs (Decidable (∀ entry ∈ h.given, entry.1 ∈ h.declared))

end History

/-- An object type whose shape is in the pool at the given place. -/
structure HasShapeAt (i : TypeId) (o : ObjectId) : Prop where
  get? : t.get? i = some (.object o)
  lt : o.raw < t.objects.size

/-! ### What a request does -/

/-- The types and the record of them, in which at most one more type has been entered. -/
inductive DataGrows : Array TypeData → List (TypeData × TypeId) → Prop
  | same : DataGrows t.data t.dataIds
  | entered (d : TypeData) : DataGrows (t.intern d).1.data (t.intern d).1.dataIds

/-- What a request can come to: nothing happens to the shapes; one is put at the end of the pool, on
record or declared; or an object type is given another one. -/
inductive Served (r : Request) : Types → Prop
  | entered {t' : Types} (hdata : t.DataGrows t'.data t'.dataIds) (hobjects : t'.objects = t.objects)
    (hids : t'.objectIds = t.objectIds) (hgives : t.gives r = none) (hdeclares : t.declares r = none) :
    Served r t'
  | recorded {t' : Types} (shape : ObjectShape)
    (hdata : t'.data = (t.intern (.object ⟨t.objects.size⟩)).1.data)
    (hdataIds : t'.dataIds = (t.intern (.object ⟨t.objects.size⟩)).1.dataIds)
    (hobjects : t'.objects = t.objects.push shape)
    (hids : t'.objectIds = t.objectIds ++ [(shape, ⟨t.objects.size⟩)])
    (hgives : t.gives r = none) (hdeclares : t.declares r = none) : Served r t'
  | declared {t' : Types} (shape : ObjectShape)
    (hdata : t'.data = (t.intern (.object ⟨t.objects.size⟩)).1.data)
    (hdataIds : t'.dataIds = (t.intern (.object ⟨t.objects.size⟩)).1.dataIds)
    (hobjects : t'.objects = t.objects.push shape) (hids : t'.objectIds = t.objectIds)
    (hgives : t.gives r = none)
    (hdeclares : t.declares r = some (t.intern (.object ⟨t.objects.size⟩)).2) : Served r t'
  | given {i : TypeId} {o : ObjectId} (shape : ObjectShape) (hi : t.HasShapeAt i o)
    (hgives : t.gives r = some (i, shape)) (hdeclares : t.declares r = none) :
    Served r { t with objects := t.objects.setIfInBounds o.raw shape }

variable {t} {t' : Types} {r : Request} {i : TypeId} {o : ObjectId} {shape : ObjectShape}

theorem served_intern (d : TypeData) (hgives : t.gives r = none) (hdeclares : t.declares r = none) :
    t.Served r (t.intern d).1 :=
  .entered (.entered d) rfl rfl hgives hdeclares

theorem served_union (members : List TypeId) (hgives : t.gives r = none)
    (hdeclares : t.declares r = none) : t.Served r (t.union members).1 := by
  rcases t.union_cases members with ⟨k, -, hk⟩ | ⟨-, hunion⟩
  · rw [hk t rfl]
    exact .entered .same rfl rfl hgives hdeclares
  · rw [hunion t rfl]
    exact .entered (.entered (.union _)) rfl rfl hgives hdeclares

theorem served_object (shape : ObjectShape) :
    t.Served (.perform (.object shape)) (t.object shape).1 := by
  cases hfound : t.objectIds.lookup shape with
  | some o =>
    have hobject : t.object shape = t.intern (.object o) := by
      rw [object, internObject_eq_enter, enter_of_lookup_eq_some hfound]
    rw [hobject]
    exact served_intern _ rfl rfl
  | none =>
    rw [object, internObject_eq_enter, enter_of_lookup_eq_none hfound]
    exact .recorded shape rfl rfl rfl rfl rfl rfl

theorem served_declareObject (name : String) :
    t.Served (.perform (.declareObject name)) (t.declareObject name).1 := by
  exact .declared (ObjectShape.named name) rfl rfl rfl rfl rfl rfl

theorem served_defineObject (i : TypeId) (shape : ObjectShape) :
    t.Served (.perform (.defineObject i shape)) ((t.defineObject i shape).getD t) := by
  by_cases hi : ∃ o, t.HasShapeAt i o
  · obtain ⟨o, ho⟩ := hi
    have hdefine : t.defineObject i shape =
        some { t with objects := t.objects.setIfInBounds o.raw shape } := by
      simp only [defineObject, ho.get?, if_pos ho.lt]
    rw [hdefine, Option.getD_some]
    exact .given shape ho (by simp only [gives, hdefine, Option.map_some]) rfl
  · have hdefine : t.defineObject i shape = none := by
      unfold defineObject
      split
      · rename_i o ho
        exact if_neg fun hlt => hi ⟨o, ho, hlt⟩
      · rfl
    rw [hdefine, Option.getD_none]
    exact .entered .same rfl rfl (by simp only [gives, hdefine, Option.map_none]) rfl

theorem served (t : Types) (r : Request) : t.Served r (t.serve r) := by
  cases r with
  | intern d => exact served_intern d rfl rfl
  | perform op =>
    cases op with
    | intrinsic | internLiteral | enumMember | array => exact served_intern _ rfl rfl
    | literal value =>
      cases value with
      | boolean b => exact .entered .same rfl rfl rfl rfl
      | _ => exact served_intern _ rfl rfl
    | object shape => exact served_object shape
    | function shape => exact .entered (.entered (.function _)) rfl rfl rfl rfl
    | declareObject name => exact served_declareObject name
    | defineObject i shape => exact served_defineObject i shape
    | union members => exact served_union members rfl rfl
    | withoutUndefined i =>
      simp only [serve, perform, withoutUndefined]
      split
      · exact .entered .same rfl rfl rfl rfl
      · exact served_union _ rfl rfl

/-! ### What every request keeps -/

theorem DataGrows.isPrefix {data : Array TypeData} {dataIds : List (TypeData × TypeId)}
    (h : t.DataGrows data dataIds) : t.data.toList <+: data.toList := by
  cases h with
  | same => exact List.prefix_rfl
  | entered => exact prefix_enter _ _ _ _

theorem DataGrows.inStep {data : Array TypeData} {dataIds : List (TypeData × TypeId)}
    (h : t.DataGrows data dataIds) (hs : PoolInStep TypeId.mk t.data t.dataIds) :
    PoolInStep TypeId.mk data dataIds := by
  cases h with
  | same => exact hs
  | entered d => exact hs.enter d

theorem Served.dataGrows (h : t.Served r t') : t.DataGrows t'.data t'.dataIds := by
  cases h with
  | entered hdata => exact hdata
  | recorded _ hdata hdataIds => exact hdata ▸ hdataIds ▸ .entered _
  | declared _ hdata hdataIds => exact hdata ▸ hdataIds ▸ .entered _
  | given => exact .same

theorem Served.size_objects_le (h : t.Served r t') : t.objects.size ≤ t'.objects.size := by
  cases h with
  | entered _ hobjects => exact hobjects ▸ Nat.le_refl _
  | recorded _ _ _ hobjects => simp [hobjects]
  | declared _ _ _ hobjects => simp [hobjects]
  | given => simp

theorem get?_of_grown {d : TypeData} (h : t.data.toList <+: t'.data.toList) (hi : t.get? i = some d) :
    t'.get? i = some d := by
  have hsame := getElem?_of_prefix_of_lt h (knows_of_get? hi)
  exact hsame.trans hi

theorem Served.hasShapeAt (h : t.Served r t') (hi : t.HasShapeAt i o) : t'.HasShapeAt i o where
  get? := get?_of_grown h.dataGrows.isPrefix hi.get?
  lt := hi.lt.trans_le h.size_objects_le

/-- The record of types is in step with them, and there is a type for every place of a shape. -/
structure Paired (t : Types) : Prop where
  inStep : PoolInStep TypeId.mk t.data t.dataIds
  typed : ∀ o : ObjectId, o.raw < t.objects.size → ∃ i, t.HasShapeAt i o

theorem paired_initial : initial.Paired where
  inStep := inStep_initial.data
  typed o ho := by
    obtain ⟨n⟩ := o
    obtain rfl : n = 0 := Nat.lt_one_iff.mp ho
    exact ⟨TypeId.emptyObject, by decide, by decide⟩

/-- No two types have their shapes at one place. -/
theorem Paired.id_inj (h : t.Paired) {j : TypeId} (hi : t.get? i = some (.object o))
    (hj : t.get? j = some (.object o)) : i = j :=
  eq_of_get?_eq_some (h.inStep.nodup fun _ _ => TypeId.mk.inj) hi hj

/-- A type that has its shape at a place of the pool from before was there before. -/
theorem Paired.hasShapeAt_of_served (h : t.Paired) (hserved : t.Served r t')
    (hi : t'.get? i = some (.object o)) (ho : o.raw < t.objects.size) : t.HasShapeAt i o := by
  obtain ⟨j, hj⟩ := h.typed o ho
  have hnodup := (hserved.dataGrows.inStep h.inStep).nodup fun _ _ => TypeId.mk.inj
  obtain rfl := eq_of_get?_eq_some hnodup hi (hserved.hasShapeAt hj).get?
  exact hj

/-- The place that a shape is put at is the next one, and gets a type. -/
theorem Paired.of_push (h : t.Paired) (hserved : t.Served r t')
    (hdata : t'.data = (t.intern (.object ⟨t.objects.size⟩)).1.data)
    (hobjects : t'.objects = t.objects.push shape) : t'.Paired where
  inStep := hserved.dataGrows.inStep h.inStep
  typed o ho := by
    by_cases hold : o.raw < t.objects.size
    · obtain ⟨i, hi⟩ := h.typed o hold
      exact ⟨i, get?_of_grown hserved.dataGrows.isPrefix hi.get?, ho⟩
    · have hsize : o.raw < t.objects.size + 1 := by simpa [hobjects] using ho
      obtain rfl : o = ⟨t.objects.size⟩ := by
        obtain ⟨n⟩ := o
        exact congrArg ObjectId.mk (Nat.le_antisymm (Nat.le_of_lt_succ hsize) (Nat.le_of_not_lt hold))
      exact ⟨_, get?_of_enter h.inStep hdata, ho⟩

theorem Paired.served (h : t.Paired) (hserved : t.Served r t') : t'.Paired := by
  have hall := hserved
  have hstep := hserved.dataGrows.inStep h.inStep
  cases hserved with
  | recorded shape hdata _ hobjects => exact h.of_push hall hdata hobjects
  | declared shape hdata _ hobjects => exact h.of_push hall hdata hobjects
  | entered hdata hobjects =>
    refine ⟨hstep, fun o ho => ?_⟩
    obtain ⟨i, hi⟩ := h.typed o (hobjects ▸ ho)
    exact ⟨i, get?_of_grown hdata.isPrefix hi.get?, ho⟩
  | given shape hi =>
    refine ⟨hstep, fun o ho => ?_⟩
    obtain ⟨j, hj⟩ := h.typed o (by simpa using ho)
    exact ⟨j, hj.get?, ho⟩

/-! ### What has been given -/

namespace History

variable {h : History}

/-- What is on record is in the pool, and is the shape there unless the type has been given another one.
Only object types have been given shapes, and declared types are not those on record. -/
structure Faithful (h : History) : Prop where
  paired : h.table.Paired
  lt : ∀ entry ∈ h.table.objectIds, entry.2.raw < h.table.objects.size
  shape : ∀ entry ∈ h.table.objectIds, ∀ i, h.table.get? i = some (.object entry.2) →
    h.table.objectAt entry.2 = (h.given.lookup i).getD entry.1
  given : ∀ entry ∈ h.given, ∃ o, h.table.HasShapeAt entry.1 o
  declared : ∀ i ∈ h.declared, ∃ o, h.table.HasShapeAt i o ∧ ∀ entry ∈ h.table.objectIds, entry.2 ≠ o

theorem faithful_start : start.Faithful where
  paired := paired_initial
  lt := by decide
  shape entry he i _ := by
    obtain rfl := List.mem_singleton.mp he
    rfl
  given := by simp [start]
  declared := by simp [start]

/-- A type that has not been in the pool has not been given a shape. -/
theorem Faithful.lookup_given_eq_none (hf : h.Faithful) {t' : Types} (hserved : h.table.Served r t')
    (hi : t'.get? i = some (.object ⟨h.table.objects.size⟩)) : h.given.lookup i = none := by
  cases hlookup : h.given.lookup i with
  | none => rfl
  | some shape =>
    obtain ⟨before, later, hgiven, -⟩ := List.lookup_eq_some_iff.mp hlookup
    obtain ⟨o, ho⟩ := hf.given (i, shape) (by simp [hgiven])
    have hsame := (hserved.hasShapeAt ho).get?.symm.trans hi
    obtain rfl := TypeData.object.inj (Option.some.inj hsame)
    exact (Nat.lt_irrefl _ ho.lt).elim

/-- Where the shapes from before are as they were, those on record still are what is in the pool. -/
theorem Faithful.shape_of_served (hf : h.Faithful) {t' : Types} (hserved : h.table.Served r t')
    (hkept : ∀ o : ObjectId, o.raw < h.table.objects.size → t'.objectAt o = h.table.objectAt o)
    {entry : ObjectShape × ObjectId} (he : entry ∈ h.table.objectIds)
    (hi : t'.get? i = some (.object entry.2)) :
    t'.objectAt entry.2 = (h.given.lookup i).getD entry.1 := by
  have hlt := hf.lt entry he
  rw [hkept entry.2 hlt]
  exact hf.shape entry he i (hf.paired.hasShapeAt_of_served hserved hi hlt).get?

/-- What has been given a shape is an object type still. -/
theorem Faithful.given_of_served (hf : h.Faithful) {t' : Types} (hserved : h.table.Served r t') :
    ∀ entry ∈ h.given, ∃ o, t'.HasShapeAt entry.1 o := by
  intro entry he
  obtain ⟨o, ho⟩ := hf.given entry he
  exact ⟨o, hserved.hasShapeAt ho⟩

/-- Where nothing has been put on record, declared types still are not those on record. -/
theorem Faithful.declared_of_served (hf : h.Faithful) {t' : Types} (hserved : h.table.Served r t')
    (hids : t'.objectIds = h.table.objectIds) :
    ∀ i ∈ h.declared, ∃ o, t'.HasShapeAt i o ∧ ∀ entry ∈ t'.objectIds, entry.2 ≠ o := by
  intro i hi
  obtain ⟨o, ho, hne⟩ := hf.declared i hi
  exact ⟨o, hserved.hasShapeAt ho, fun entry he => hne entry (hids ▸ he)⟩

theorem objectAt_push {t t' : Types} {shape : ObjectShape}
    (hobjects : t'.objects = t.objects.push shape) (o : ObjectId) :
    t'.objectAt o = if o.raw = t.objects.size then shape else t.objectAt o := by
  simp only [objectAt, hobjects, Array.getD_eq_getD_getElem?, Array.getElem?_push]
  split <;> simp

theorem objectAt_setIfInBounds {t : Types} (ho : o.raw < t.objects.size) (shape : ObjectShape)
    (o' : ObjectId) :
    objectAt { t with objects := t.objects.setIfInBounds o.raw shape } o' =
      if o' = o then shape else t.objectAt o' := by
  by_cases heq : o' = o
  · simp [objectAt, heq, ho]
  · have hraw : o.raw ≠ o'.raw := fun hraw => heq (by cases o; cases o'; simp_all)
    simp [objectAt, Array.getD_eq_getD_getElem?, Array.getElem?_setIfInBounds_ne hraw, heq]

theorem Faithful.of_entered (hf : h.Faithful) {t' : Types} (hserved : h.table.Served r t')
    (hobjects : t'.objects = h.table.objects) (hids : t'.objectIds = h.table.objectIds) :
    Faithful ⟨t', h.given, h.declared⟩ where
  paired := hf.paired.served hserved
  lt entry he := by
    have hlt := hf.lt entry (hids ▸ he)
    rwa [← hobjects] at hlt
  shape entry he i hi := by
    refine hf.shape_of_served hserved (fun o _ => ?_) (hids ▸ he) hi
    simp only [objectAt, hobjects]
  given := hf.given_of_served hserved
  declared := hf.declared_of_served hserved hids

theorem Faithful.of_recorded (hf : h.Faithful) {t' : Types} (hserved : h.table.Served r t')
    (hobjects : t'.objects = h.table.objects.push shape)
    (hids : t'.objectIds = h.table.objectIds ++ [(shape, ⟨h.table.objects.size⟩)]) :
    Faithful ⟨t', h.given, h.declared⟩ where
  paired := hf.paired.served hserved
  lt entry he := by
    show entry.2.raw < t'.objects.size
    rw [hobjects, Array.size_push]
    rcases List.mem_append.mp (hids ▸ he) with hold | hnew
    · exact Nat.lt_succ_of_lt (hf.lt entry hold)
    · rw [List.mem_singleton.mp hnew]
      exact Nat.lt_succ_self _
  shape entry he i hi := by
    have hpush := objectAt_push hobjects
    rcases List.mem_append.mp (hids ▸ he) with hold | hnew
    · exact hf.shape_of_served hserved (fun o ho => (hpush o).trans (if_neg ho.ne)) hold hi
    · obtain rfl := List.mem_singleton.mp hnew
      have hnone : h.given.lookup i = none := hf.lookup_given_eq_none hserved hi
      show t'.objectAt ⟨h.table.objects.size⟩ = (h.given.lookup i).getD shape
      rw [hnone, hpush, if_pos rfl, Option.getD_none]
  given := hf.given_of_served hserved
  declared i hi := by
    obtain ⟨o, ho, hne⟩ := hf.declared i hi
    refine ⟨o, hserved.hasShapeAt ho, fun entry he => ?_⟩
    rcases List.mem_append.mp (hids ▸ he) with hold | hnew
    · exact hne entry hold
    · rw [List.mem_singleton.mp hnew]
      rintro rfl
      exact Nat.lt_irrefl _ ho.lt

theorem Faithful.of_declared (hf : h.Faithful) {t' : Types} (hserved : h.table.Served r t')
    (hobjects : t'.objects = h.table.objects.push shape) (hids : t'.objectIds = h.table.objectIds)
    (hi : t'.get? i = some (.object ⟨h.table.objects.size⟩)) :
    Faithful ⟨t', h.given, i :: h.declared⟩ where
  paired := hf.paired.served hserved
  lt entry he := by
    show entry.2.raw < t'.objects.size
    rw [hobjects, Array.size_push]
    exact Nat.lt_succ_of_lt (hf.lt entry (hids ▸ he))
  shape entry he j hj :=
    hf.shape_of_served hserved (fun o ho => (objectAt_push hobjects o).trans (if_neg ho.ne)) (hids ▸ he) hj
  given := hf.given_of_served hserved
  declared j hj := by
    rcases List.mem_cons.mp hj with rfl | hj
    · have hlt : h.table.objects.size < t'.objects.size := by simp [hobjects]
      refine ⟨⟨h.table.objects.size⟩, ⟨hi, hlt⟩, fun entry he heq => ?_⟩
      have hold := hf.lt entry (hids ▸ he)
      exact Nat.lt_irrefl _ (heq ▸ hold)
    · exact hf.declared_of_served hserved hids j hj

theorem Faithful.of_given (hf : h.Faithful) (hi : h.table.HasShapeAt i o) (shape : ObjectShape)
    (hserved : h.table.Served r { h.table with objects := h.table.objects.setIfInBounds o.raw shape }) :
    Faithful ⟨{ h.table with objects := h.table.objects.setIfInBounds o.raw shape },
      (i, shape) :: h.given, h.declared⟩ where
  paired := hf.paired.served hserved
  lt entry he := by simpa using hf.lt entry he
  shape entry he j hj := by
    have hkept := hf.shape entry he j hj
    have hj' : h.table.get? j = some (.object entry.2) := hj
    show objectAt { h.table with objects := _ } entry.2 = (List.lookup j ((i, shape) :: h.given)).getD entry.1
    rw [objectAt_setIfInBounds hi.lt, List.lookup_cons]
    by_cases heq : entry.2 = o
    · obtain rfl := hf.paired.id_inj (heq ▸ hj') hi.get?
      simp [heq]
    · have hne : j ≠ i := by
        rintro rfl
        exact heq (TypeData.object.inj (Option.some.inj (hj'.symm.trans hi.get?)))
      simp only [if_neg heq, hkept, beq_false_of_ne hne]
  given entry he := by
    rcases List.mem_cons.mp he with rfl | he
    · exact ⟨o, hserved.hasShapeAt hi⟩
    · exact hf.given_of_served hserved entry he
  declared := hf.declared_of_served hserved rfl

/-- What one request keeps. -/
theorem Faithful.after (hf : h.Faithful) (r : Request) : (h.after r).Faithful := by
  have hserved := h.table.served r
  unfold History.after
  generalize h.table.serve r = t' at hserved
  have hall := hserved
  cases hserved with
  | entered _ hobjects hids hgives hdeclares =>
    rw [hgives, hdeclares]
    exact hf.of_entered hall hobjects hids
  | recorded shape _ _ hobjects hids hgives hdeclares =>
    rw [hgives, hdeclares]
    exact hf.of_recorded hall hobjects hids
  | declared shape hdata _ hobjects hids hgives hdeclares =>
    rw [hgives, hdeclares]
    exact hf.of_declared hall hobjects hids (get?_of_enter hf.paired.inStep hdata)
  | given shape hi hgives hdeclares =>
    rw [hgives, hdeclares]
    exact hf.of_given hi shape hall

/-- What any requests keep, by induction on them. -/
theorem Faithful.afterAll (hf : h.Faithful) (rs : List Request) : (h.afterAll rs).Faithful := by
  induction rs generalizing h with
  | nil => exact hf
  | cons r rs ih => exact ih (hf.after r)

end History

/-- A shape that is entered is on record. -/
theorem mem_objectIds_object (t : Types) (shape : ObjectShape) :
    (shape, (t.internObject shape).2) ∈ (t.object shape).1.objectIds := by
  have hfound : (t.object shape).1.objectIds.lookup shape = some (t.internObject shape).2 :=
    lookup_enter _ _ _ _
  obtain ⟨before, later, hids, -⟩ := List.lookup_eq_some_iff.mp hfound
  simp [hids]

/-- The type that a shape is answered with has its shape where the shape is on record. -/
theorem get?_object (h : PoolInStep TypeId.mk t.data t.dataIds) (shape : ObjectShape) :
    (t.object shape).1.get? (t.object shape).2 = some (.object (t.internObject shape).2) :=
  get?_of_enter (t := (t.internObject shape).1) h rfl

/-- Whatever has been asked of a table, a shape that is entered next is answered with an object type. This
type has the shape it was given last, if it has been given one, and otherwise the shape that is entered.
If only declared types have been given shapes, it has the shape that is entered. -/
theorem object?_of_object (rs : List Request) (shape : ObjectShape) :
    let h := History.start.afterAll rs
    let r := h.table.object shape
    r.1.object? r.2 = some ((h.given.lookup r.2).getD shape) ∧
      (h.FillsDeclared → r.1.object? r.2 = some shape) := by
  intro h r
  have hbefore : h.Faithful := History.faithful_start.afterAll rs
  have hf : (h.after (.perform (.object shape))).Faithful := hbefore.after _
  have hget : r.1.get? r.2 = some (.object (h.table.internObject shape).2) :=
    get?_object hbefore.paired.inStep shape
  have hmem : (shape, (h.table.internObject shape).2) ∈ r.1.objectIds :=
    h.table.mem_objectIds_object shape
  have hshape : r.1.object? r.2 = some ((h.given.lookup r.2).getD shape) := by
    simp only [object?, hget]
    exact congrArg some (hf.shape _ hmem r.2 hget)
  refine ⟨hshape, fun hfills => ?_⟩
  suffices hnone : h.given.lookup r.2 = none by rw [hshape, hnone, Option.getD_none]
  refine List.lookup_eq_none_iff.mpr fun entry he => ?_
  rw [bne_iff_ne]
  intro heq
  obtain ⟨o, ho, hne⟩ := hf.declared r.2 (heq ▸ hfills entry he)
  exact hne _ hmem (TypeData.object.inj (Option.some.inj (hget.symm.trans ho.get?)))

/-- An object type with a single property. -/
def single (name : String) (type : TypeId) : ObjectShape := { properties := [{ name, type }] }

/-- A shape that is entered again is answered with the type it was entered under, though this type has been
given another shape since. -/
theorem object_answersReshaped :
    let h := History.start.afterAll
      [.perform (.object (single "a" .string)), .perform (.defineObject ⟨15⟩ (single "b" .number))]
    let r := h.table.object (single "a" .string)
    r.1.object? r.2 = some (single "b" .number) ∧ single "a" .string ≠ single "b" .number := by
  decide

/-- A declared type that has been given a shape is not the type of that shape, though data that refers to
shapes to come was entered first. -/
theorem object?_of_object_declared :
    let h := History.start.afterAll
      [.intern (.object ⟨2⟩), .perform (.declareObject "Node"),
        .perform (.defineObject ⟨16⟩ (single "next" ⟨16⟩))]
    let r := h.table.object (single "next" ⟨16⟩)
    h.FillsDeclared ∧ r.2 = ⟨15⟩ ∧ r.1.object? r.2 = some (single "next" ⟨16⟩) := by
  intro h r
  have hfills : h.FillsDeclared := by decide
  exact ⟨hfills, by decide, (object?_of_object _ _).2 hfills⟩

end Types

end Misfit
