import Misfit.Proofs.Compare.Growth
import Misfit.Proofs.Types.Operations

/-!
# Entering more types

Whatever is entered in a table later on, what is known of the types before stays as it is. Only filling in
a shape changes a type. The other operations put shapes of objects at the end of their pool, and every
object type has its shape in the pool already, so that none of them gets another one. Nothing is assumed
of what is entered: it may mention ids that nobody has handed out.
-/
namespace Misfit

namespace Types

/-- The operation gives a type another shape. -/
def Operation.fillsIn : Operation → Bool
  | .defineObject _ _ => true
  | _ => false

/-- The shape of every object type is in the pool, and so is every shape that is found again. -/
structure Housed (t : Types) : Prop where
  data : ∀ o, .object o ∈ t.data.toList → o.raw < t.objects.size
  ids : ∀ entry ∈ t.objectIds, entry.2.raw < t.objects.size

variable {t t' : Types} {d : TypeData} {op : Operation}

theorem housed_initial : initial.Housed where
  data := by simp [initial, reserved, Intrinsic.all]
  ids := by simp [initial]

/-- A type is housed if its shape is in the pool. -/
theorem Housed.intern (h : t.Housed) (hd : ∀ o, d = .object o → o.raw < t.objects.size) :
    (t.intern d).1.Housed :=
  ⟨fun o ho => (mem_or_eq_of_mem_enter ho).elim (h.data o) fun heq => hd o heq.symm, h.ids⟩

/-- One more shape at the end of the pool, which may be found again there. -/
theorem Housed.push (h : t.Housed) (shape : ObjectShape) (ids : List (ObjectShape × ObjectId))
    (hids : ∀ entry ∈ ids, entry ∈ t.objectIds ∨ entry.2.raw = t.objects.size) :
    ({ t with objects := t.objects.push shape, objectIds := ids } : Types).Housed := by
  have hsize : (t.objects.push shape).size = t.objects.size + 1 := Array.size_push shape
  constructor
  · intro o ho
    have hlt := h.data o ho
    show o.raw < (t.objects.push shape).size
    omega
  · intro entry he
    show entry.2.raw < (t.objects.push shape).size
    rcases hids entry he with hold | hnew
    · have hlt := h.ids entry hold
      omega
    · omega

theorem Housed.internObject (h : t.Housed) (shape : ObjectShape) :
    (t.internObject shape).1.Housed ∧
      (t.internObject shape).2.raw < (t.internObject shape).1.objects.size := by
  cases hfound : t.objectIds.lookup shape with
  | some id =>
    rw [internObject_eq_enter, enter_of_lookup_eq_some hfound]
    obtain ⟨before, after, heq, -⟩ := List.lookup_eq_some_iff.mp hfound
    exact ⟨h, h.ids (shape, id) (by simp [heq])⟩
  | none =>
    rw [internObject_eq_enter, enter_of_lookup_eq_none hfound]
    refine ⟨h.push shape _ fun entry he => ?_, by simp⟩
    rcases List.mem_append.mp he with hold | hnew
    · exact Or.inl hold
    · exact Or.inr (congrArg (·.2.raw) (List.mem_singleton.mp hnew))

theorem Housed.object (h : t.Housed) (shape : ObjectShape) : (t.object shape).1.Housed := by
  obtain ⟨hpool, hlt⟩ := h.internObject shape
  refine hpool.intern fun o ho => ?_
  obtain rfl := TypeData.object.inj ho
  exact hlt

theorem Housed.declareObject (h : t.Housed) (name : String) : (t.declareObject name).1.Housed := by
  have hpool := h.push (ObjectShape.named name) t.objectIds fun entry he => Or.inl he
  refine hpool.intern fun o ho => ?_
  obtain rfl := TypeData.object.inj ho
  simp

theorem Housed.defineObject (h : t.Housed) {i : TypeId} {shape : ObjectShape}
    (hd : t.defineObject i shape = some t') : t'.Housed := by
  unfold Types.defineObject at hd
  split at hd
  · split at hd
    · obtain rfl := Option.some.inj hd
      exact ⟨by simpa using h.data, by simpa using h.ids⟩
    · simp at hd
  · simp at hd

theorem Housed.union (h : t.Housed) (members : List TypeId) : (t.union members).1.Housed := by
  rcases t.union_cases members with ⟨k, -, hk⟩ | ⟨-, hunion⟩
  · rw [hk t rfl]
    exact h
  · rw [hunion t rfl, enterUnion]
    have hlist : (t.internList (t.flatten members)).1.Housed := ⟨h.data, h.ids⟩
    exact hlist.intern (by simp)

theorem Housed.perform (h : t.Housed) (op : Operation) : (t.perform op).1.Housed := by
  cases op with
  | intrinsic kind => exact h.intern (by simp)
  | internLiteral value => exact h.intern (by simp)
  | literal value =>
    cases value with
    | boolean b => exact h
    | _ => exact h.intern (by simp)
  | enumMember enum member value => exact h.intern (by simp)
  | array element => exact h.intern (by simp)
  | object shape => exact h.object shape
  | function shape =>
    have hpool : (t.internFunction shape).1.Housed := ⟨h.data, h.ids⟩
    exact hpool.intern (by simp)
  | declareObject name => exact h.declareObject name
  | defineObject i shape =>
    simp only [Types.perform]
    cases hd : t.defineObject i shape with
    | none => exact h
    | some t' => exact h.defineObject hd
  | union members => exact h.union members
  | withoutUndefined i =>
    simp only [Types.perform, Types.withoutUndefined]
    split
    · exact h
    · exact h.union _

/-- In every table that is built, the object types have their shapes. -/
theorem Built.housed (h : t.Built) : t.Housed :=
  h.of_perform housed_initial fun _ op ht => ht.perform op

theorem objects_union (t : Types) (members : List TypeId) :
    (t.union members).1.objects = t.objects := by
  rcases t.union_cases members with ⟨k, -, hk⟩ | ⟨-, hunion⟩
  · rw [hk t rfl]
  · rw [hunion t rfl]
    rfl

/-- Unless it fills in a shape, an operation leaves the pool of shapes as it is or puts one at its end. -/
theorem prefix_objects_perform (t : Types) (h : op.fillsIn = false) :
    t.objects.toList <+: (t.perform op).1.objects.toList := by
  cases op with
  | intrinsic | internLiteral | enumMember | array | function => exact List.prefix_rfl
  | literal value => cases value <;> exact List.prefix_rfl
  | object shape => exact prefix_enter _ _ _ _
  | declareObject name =>
    show t.objects.toList <+: (t.objects.push (ObjectShape.named name)).toList
    rw [Array.toList_push]
    exact List.prefix_append _ _
  | defineObject i shape => simp [Operation.fillsIn] at h
  | union members =>
    show t.objects.toList <+: (t.union members).1.objects.toList
    rw [objects_union]
  | withoutUndefined i =>
    simp only [perform, withoutUndefined]
    split
    · exact List.prefix_rfl
    · rw [objects_union]

/-- By induction on the operations. -/
theorem prefix_objects_performAll (t : Types) {ops : List Operation}
    (h : ∀ op ∈ ops, op.fillsIn = false) :
    t.objects.toList <+: (t.performAll ops).objects.toList := by
  induction ops generalizing t with
  | nil => exact List.prefix_rfl
  | cons op ops ih =>
    obtain ⟨hop, hops⟩ := List.forall_mem_cons.mp h
    exact (t.prefix_objects_perform hop).trans (ih _ hops)

/-- A table in which more has been entered has grown. -/
theorem Built.grows_performAll (h : t.Built) (hc : t.Closed) {ops : List Operation}
    (hops : ∀ op ∈ ops, op.fillsIn = false) : t.Grows (t.performAll ops) where
  settled := h.settled hc
  inStep := (h.performAll ops).inStep
  data := (t.extends_performAll ops).data
  lists := (t.extends_performAll ops).lists
  objects o ho := by
    have hlt := h.housed.data o ho
    simp only [objectAt, Array.getD_eq_getD_getElem?,
      getElem?_of_prefix_of_lt (t.prefix_objects_performAll hops) hlt]
  functions f hf := by
    have hlt := h.sound.function_lt f hf
    simp only [functionAt, Array.getD_eq_getD_getElem?,
      getElem?_of_prefix_of_lt (t.extends_performAll ops).functions hlt]

end Types

/-- Entering more types changes nothing about the types known before: not what they are printed as, with
literals widened or not, not their categories, whether they are simple, what properties and index
signatures they have, not how two of them are set against each other as properties, and not what a
comparison of them comes to, in whatever way, at whatever trail and in whatever walk it is made. -/
theorem Program.performAll_keeps {p : Program} (hbuilt : p.types.Built) (hclosed : p.types.Closed)
    {ops : List Types.Operation} (hops : ∀ op ∈ ops, op.fillsIn = false) :
    let t := p.types
    let t' := t.performAll ops
    (∀ i, t.Knows i → t'.Knows i ∧ t'.render i = t.render i ∧ t'.renderWidened i = t.renderWidened i ∧
      t'.categories i = t.categories i ∧ t'.isSimple i = t.isSimple i ∧
      t'.properties i = t.properties i ∧ t'.indexes i = t.indexes i) ∧
    (∀ i j, t.Knows i → t.Knows j → t'.propertyMatch i j = t.propertyMatch i j) ∧
    ∀ (mode : Mode) (target source : TypeId), t.Knows target → t.Knows source →
      (⟨p.withTypes t', mode⟩ : Comparison).compare target source =
        (⟨p, mode⟩ : Comparison).compare target source := by
  intro t t'
  have hgrows : t.Grows t' := hbuilt.grows_performAll hclosed hops
  refine ⟨fun i hi => ?_, fun i j hi hj => hgrows.propertyMatch hi hj, fun mode target source ht hs => ?_⟩
  · have hcategories : t'.categories i = t.categories i := by
      simp only [Types.categories, hgrows.get? hi]
    exact ⟨hgrows.knows hi, hgrows.render hi, hgrows.renderWidened hi, hcategories,
      hgrows.isSimple hi, hgrows.properties hi, hgrows.indexes hi⟩
  · funext trail w
    have hwithin := Comparison.compareWithin_withTypes (c := ⟨p, mode⟩) hgrows
      (w.limits.depth - w.depth) target source ht hs
    exact congrFun (congrFun hwithin trail) w

/-- A named type of nodes with an array of nodes in it, and a type without a name around one. -/
def Types.nodeTypes : Types :=
  initial.performAll
    [.declareObject "Node", .array ⟨15⟩,
      .defineObject ⟨15⟩ { name := some "Node", properties := [{ name := "children", type := ⟨16⟩ }] },
      .object { properties := [{ name := "node", type := ⟨15⟩ }] }]

/-- A union with the nodes, another type of the name and an array of an id that is not handed out change
nothing about them. -/
theorem Program.performAll_keeps_nodeTypes :
    let p : Program := { types := Types.nodeTypes }
    let ops : List Types.Operation :=
      [.union [⟨15⟩, TypeId.undefined], .declareObject "Node", .array ⟨99⟩]
    let t' := p.types.performAll ops
    p.types.Built ∧ p.types.Closed ∧ (∀ op ∈ ops, op.fillsIn = false) ∧ p.types.size < t'.size ∧
      t'.render ⟨17⟩ = p.types.render ⟨17⟩ ∧ t'.properties ⟨15⟩ = p.types.properties ⟨15⟩ ∧
      ((⟨p.withTypes t', {}⟩ : Comparison).compare ⟨15⟩ ⟨17⟩ Trail.empty Walk.start =
        (⟨p, {}⟩ : Comparison).compare ⟨15⟩ ⟨17⟩ Trail.empty Walk.start) ∧
      ((⟨p, {}⟩ : Comparison).compare ⟨15⟩ ⟨17⟩ Trail.empty Walk.start).1.isSome = true := by
  intro p ops t'
  have hbuilt : p.types.Built := Types.Built.initial.performAll _
  have hclosed : p.types.Closed := by decide
  have hops : ∀ op ∈ ops, op.fillsIn = false := by decide
  obtain ⟨hkept, -, hcompare⟩ := performAll_keeps hbuilt hclosed hops
  obtain ⟨-, hrender, -⟩ := hkept ⟨17⟩ (by decide)
  obtain ⟨-, -, -, -, -, hproperties, -⟩ := hkept ⟨15⟩ (by decide)
  have hsame := hcompare {} ⟨15⟩ ⟨17⟩ (by decide) (by decide)
  exact ⟨hbuilt, hclosed, hops, by decide, hrender, hproperties,
    congrFun (congrFun hsame Trail.empty) Walk.start, by decide⟩

end Misfit
