import Misfit.Proofs.Types.Growth

/-!
# Tables after any operations

Each operation on a table enters at most one type, at the end, and answers its id; the lists of union
members and the shapes of functions behind it are entered before it. So whatever operations follow each
other, an id keeps its data, the records of ids are inverse to their pools, what is known is answered with
the one id that it has, and what is new with the next number. Ids are natural numbers here, so that they
do not run out.
-/
namespace Misfit

namespace Types

/-- The operations on a table of types. -/
inductive Operation
  | intrinsic (kind : Intrinsic)
  | internLiteral (value : Literal)
  | literal (value : Literal)
  | enumMember (enum member : String) (value : Literal)
  | array (element : TypeId)
  | object (shape : ObjectShape)
  | function (shape : FunctionShape)
  | declareObject (name : String)
  | defineObject (i : TypeId) (shape : ObjectShape)
  | union (members : List TypeId)
  | withoutUndefined (i : TypeId)
  deriving DecidableEq, Repr

variable (t : Types)

/-- The table after an operation, and the id that the operation answers. -/
def perform : Operation → Types × Option TypeId
  | .intrinsic kind => answer (t.intern (.intrinsic kind))
  | .internLiteral value => answer (t.intern (.literal value))
  | .literal value => answer (t.literal value)
  | .enumMember enum member value => answer (t.enumMember enum member value)
  | .array element => answer (t.array element)
  | .object shape => answer (t.object shape)
  | .function shape => answer (t.function shape)
  | .declareObject name => answer (t.declareObject name)
  | .defineObject i shape => ((t.defineObject i shape).getD t, none)
  | .union members => answer (t.union members)
  | .withoutUndefined i => ((t.withoutUndefined i).1, some (t.withoutUndefined i).2.1)
where
  answer (r : Types × TypeId) : Types × Option TypeId := (r.1, some r.2)

/-- The table after some operations, one after the other. -/
def performAll (ops : List Operation) : Types := ops.foldl (fun t op => (t.perform op).1) t

/-- The types that an operation unites. -/
def united : Operation → List TypeId
  | .union members => members
  | .withoutUndefined i => (t.members i).filter (· ≠ TypeId.undefined)
  | _ => []

@[simp] theorem performAll_cons (op : Operation) (ops : List Operation) :
    t.performAll (op :: ops) = (t.perform op).1.performAll ops := rfl

theorem performAll_append (ops more : List Operation) :
    t.performAll (ops ++ more) = (t.performAll ops).performAll more := List.foldl_append

/-! ### What an operation does -/

/-- A table in which at most shapes have been entered or filled in. -/
inductive Reshaped : Types → Prop
  | objects (objects : Array ObjectShape) (objectIds : List (ObjectShape × ObjectId)) :
    Reshaped (t.withObjects objects objectIds)
  | function (shape : FunctionShape) : Reshaped (t.internFunction shape).1

/-- What an operation can come to: it enters no type, or a type that is not a union, after the shape that
may be behind it, or else the union of what it unites. What is answered where no type is entered is left
open here; `CarriesOut` says it. -/
inductive Performed (op : Operation) : Types × Option TypeId → Prop
  | nothing {u : Types} {i? : Option TypeId} (hu : t.Reshaped u) : Performed op (u, i?)
  | entered {u : Types} {d : TypeData} (hu : t.Reshaped u) (hd : ∀ list, d ≠ .union list) :
    Performed op (perform.answer (u.intern d))
  | union (hany : TypeId.any ∉ t.flatten (t.united op))
    (hunknown : TypeId.unknown ∉ t.flatten (t.united op))
    (hlength : 2 ≤ (t.flatten (t.united op)).length) :
    Performed op (perform.answer (t.enterUnion (t.flatten (t.united op))))

variable {t} {op : Operation}

theorem Reshaped.refl (t : Types) : t.Reshaped t := .objects t.objects t.objectIds

theorem performed_intern {d : TypeData} (hd : ∀ list, d ≠ .union list) :
    t.Performed op (perform.answer (t.intern d)) := .entered (.refl t) hd

theorem union_of_any {members : List TypeId} (h : TypeId.any ∈ t.flatten members) :
    t.union members = (t, TypeId.any) := by simp only [Types.union, if_pos h]

theorem union_of_unknown {members : List TypeId} (hany : TypeId.any ∉ t.flatten members)
    (h : TypeId.unknown ∈ t.flatten members) : t.union members = (t, TypeId.unknown) := by
  simp only [Types.union, if_neg hany, if_pos h]

theorem union_of_nil {members : List TypeId} (h : t.flatten members = []) :
    t.union members = (t, TypeId.never) := by simp [Types.union, h]

theorem union_of_single {members : List TypeId} {single : TypeId} (h : t.flatten members = [single]) :
    t.union members = (t, single) := by
  simp only [Types.union, h, List.mem_singleton]
  split
  · rename_i hany
    rw [hany]
  · split
    · rename_i hunknown
      rw [hunknown]
    · rfl

theorem union_of_two_le {members : List TypeId} (hany : TypeId.any ∉ t.flatten members)
    (hunknown : TypeId.unknown ∉ t.flatten members) (hlength : 2 ≤ (t.flatten members).length) :
    t.union members = t.enterUnion (t.flatten members) := by
  simp only [Types.union, if_neg hany, if_neg hunknown]
  split
  · rename_i hnil
    simp [hnil] at hlength
  · rename_i hsingle
    simp [hsingle] at hlength
  · rfl

/-- Uniting types comes to nothing new or to the union of what they flatten to. -/
theorem performed_union {members : List TypeId} (h : t.united op = members) :
    t.Performed op (perform.answer (t.union members)) := by
  subst h
  by_cases hany : TypeId.any ∈ t.flatten (t.united op)
  · rw [union_of_any hany]
    exact .nothing (.refl t)
  by_cases hunknown : TypeId.unknown ∈ t.flatten (t.united op)
  · rw [union_of_unknown hany hunknown]
    exact .nothing (.refl t)
  by_cases hlength : 2 ≤ (t.flatten (t.united op)).length
  · rw [union_of_two_le hany hunknown hlength]
    exact .union hany hunknown hlength
  · match hflat : t.flatten (t.united op) with
    | [] =>
      rw [union_of_nil hflat]
      exact .nothing (.refl t)
    | [single] =>
      rw [union_of_single hflat]
      exact .nothing (.refl t)
    | _ :: _ :: _ => simp [hflat] at hlength

theorem performed (t : Types) (op : Operation) : t.Performed op (t.perform op) := by
  cases op with
  | intrinsic kind => exact performed_intern (by simp)
  | internLiteral value => exact performed_intern (by simp)
  | literal value =>
    cases value with
    | boolean b => exact .nothing (.refl t)
    | _ => exact performed_intern (by simp)
  | enumMember enum member value => exact performed_intern (by simp)
  | array element => exact performed_intern (by simp)
  | object shape => exact .entered (.objects _ _) (by simp)
  | function shape => exact .entered (.function shape) (by simp)
  | declareObject name => exact .entered (.objects _ _) (by simp)
  | defineObject i shape =>
    cases hd : t.defineObject i shape with
    | none =>
      simp only [perform, hd, Option.getD_none]
      exact .nothing (.refl t)
    | some t' =>
      obtain ⟨objects, rfl⟩ := exists_of_defineObject hd
      simp only [perform, hd, Option.getD_some]
      exact .nothing (.objects _ _)
  | union members => exact performed_union rfl
  | withoutUndefined i =>
    by_cases hskip : (t.members i).length < 2 ∨ TypeId.undefined ∉ t.members i
    · simp only [perform, withoutUndefined, if_pos hskip]
      exact .nothing (.refl t)
    · simp only [perform, withoutUndefined, if_neg hskip]
      have hunited : t.united (.withoutUndefined i) = (t.members i).filter (· ≠ TypeId.undefined) := rfl
      exact performed_union hunited

/-! ### What stays as it is -/

/-- One table has been entered into another one: types, lists of union members and function shapes are
where they were. -/
structure Extends (t t' : Types) : Prop where
  data : t.data.toList <+: t'.data.toList
  lists : t.lists.toList <+: t'.lists.toList
  functions : t.functions.toList <+: t'.functions.toList

variable {t' t'' : Types} {i j : TypeId} {d : TypeData}

theorem Extends.refl (t : Types) : t.Extends t :=
  ⟨List.prefix_rfl, List.prefix_rfl, List.prefix_rfl⟩

theorem Extends.trans (h : t.Extends t') (h' : t'.Extends t'') : t.Extends t'' :=
  ⟨h.data.trans h'.data, h.lists.trans h'.lists, h.functions.trans h'.functions⟩

theorem Extends.get? (h : t.Extends t') (hi : t.Knows i) : t'.get? i = t.get? i :=
  getElem?_of_prefix_of_lt h.data hi

theorem Extends.knows (h : t.Extends t') (hi : t.Knows i) : t'.Knows i :=
  hi.trans_le h.data.length_le

theorem Extends.listAt (h : t.Extends t') {list : ListId} (hlist : list.raw < t.lists.size) :
    t'.listAt list = t.listAt list := by
  simp only [Types.listAt, Array.getD_eq_getD_getElem?, getElem?_of_prefix_of_lt h.lists hlist]

theorem Extends.isUnion (h : t.Extends t') (hi : t.Knows i) : t'.isUnion i = t.isUnion i := by
  simp only [Types.isUnion, h.get? hi]

theorem Extends.members (h : t.Extends t') (hs : t.Sound) (hi : t.Knows i) :
    t'.members i = t.members i := by
  unfold Types.members
  rw [h.get? hi]
  split
  · rename_i list hlist
    exact h.listAt (hs.list_lt list (mem_data_of_get? hlist))
  · rfl

theorem extends_intern (t : Types) (d : TypeData) : t.Extends (t.intern d).1 :=
  ⟨prefix_enter _ _ _ _, List.prefix_rfl, List.prefix_rfl⟩

theorem extends_enterUnion (t : Types) (members : List TypeId) : t.Extends (t.enterUnion members).1 :=
  ⟨prefix_enter _ _ _ _, prefix_enter _ _ _ _, List.prefix_rfl⟩

theorem Reshaped.data_eq {u : Types} (h : t.Reshaped u) : u.data = t.data := by
  cases h <;> rfl

theorem Reshaped.lists_eq {u : Types} (h : t.Reshaped u) : u.lists = t.lists := by
  cases h <;> rfl

theorem Reshaped.extends {u : Types} (h : t.Reshaped u) : t.Extends u := by
  cases h with
  | objects => exact ⟨List.prefix_rfl, List.prefix_rfl, List.prefix_rfl⟩
  | function => exact ⟨List.prefix_rfl, List.prefix_rfl, prefix_enter _ _ _ _⟩

theorem Reshaped.inStep {u : Types} (h : t.Reshaped u) (hs : t.InStep) : u.InStep := by
  cases h with
  | objects => exact hs.withObjects _ _
  | function shape => exact hs.internFunction shape

theorem Performed.extends {r : Types × Option TypeId} (h : t.Performed op r) : t.Extends r.1 := by
  cases h with
  | nothing hu => exact hu.extends
  | entered hu => exact hu.extends.trans (extends_intern _ _)
  | union => exact t.extends_enterUnion _

theorem extends_perform (t : Types) (op : Operation) : t.Extends (t.perform op).1 :=
  (t.performed op).extends

/-- By induction on the operations. -/
theorem extends_performAll (t : Types) (ops : List Operation) : t.Extends (t.performAll ops) := by
  induction ops generalizing t with
  | nil => exact .refl t
  | cons op ops ih => exact (t.extends_perform op).trans (ih _)

theorem InStep.perform (h : t.InStep) (op : Operation) : (t.perform op).1.InStep := by
  have hperformed := t.performed op
  generalize t.perform op = r at hperformed
  cases hperformed with
  | nothing hu => exact hu.inStep h
  | entered hu => exact (hu.inStep h).intern _
  | union => exact (h.internList _).intern _

theorem Built.withoutUndefined (h : t.Built) (i : TypeId) : (t.withoutUndefined i).1.Built := by
  unfold Types.withoutUndefined
  dsimp only
  split
  · exact h
  · exact h.union _

theorem Built.perform (h : t.Built) (op : Operation) : (t.perform op).1.Built := by
  cases op with
  | intrinsic kind => exact h.intrinsic kind
  | internLiteral value => exact h.internLiteral value
  | literal value => exact h.literal value
  | enumMember enum member value => exact h.enumMember enum member value
  | array element => exact h.array element
  | object shape => exact h.object shape
  | function shape => exact h.function shape
  | declareObject name => exact h.declareObject name
  | defineObject i shape =>
    cases hd : t.defineObject i shape with
    | none => simpa only [Types.perform, hd, Option.getD_none] using h
    | some t' => simpa only [Types.perform, hd, Option.getD_some] using h.defineObject hd
  | union members => exact h.union members
  | withoutUndefined i => exact h.withoutUndefined i

theorem Built.performAll (h : t.Built) (ops : List Operation) : (t.performAll ops).Built := by
  induction ops generalizing t with
  | nil => exact h
  | cons op ops ih => exact ih (h.perform op)

/-- What the first table has and every operation keeps, every table has that is built. -/
theorem Built.of_perform {P : Types → Prop} (hinitial : P Types.initial)
    (hperform : ∀ t op, P t → P (t.perform op).1) (h : t.Built) : P t := by
  induction h with
  | initial => exact hinitial
  | intrinsic _ kind ih => exact hperform _ (.intrinsic kind) ih
  | internLiteral _ value ih => exact hperform _ (.internLiteral value) ih
  | literal _ value ih => exact hperform _ (.literal value) ih
  | enumMember _ enum member value ih => exact hperform _ (.enumMember enum member value) ih
  | array _ element ih => exact hperform _ (.array element) ih
  | object _ shape ih => exact hperform _ (.object shape) ih
  | function _ shape ih => exact hperform _ (.function shape) ih
  | declareObject _ name ih => exact hperform _ (.declareObject name) ih
  | @defineObject _ _ i shape _ hd ih =>
    simpa only [Types.perform, hd, Option.getD_some] using hperform _ (.defineObject i shape) ih
  | union _ members ih => exact hperform _ (.union members) ih

/-! ### Ids and what they stand for -/

/-- Two known ids stand for the same only if they are equal. -/
theorem Sound.eq_iff_get? (h : t.Sound) (hi : t.Knows i) : i = j ↔ t.get? i = t.get? j := by
  refine ⟨fun heq => heq ▸ rfl, fun heq => ?_⟩
  have hget : t.get? i = some t.data[i.raw] := Array.getElem?_eq_getElem hi
  exact h.id_inj hget (heq ▸ hget)

/-- The reserved ids and what they stand for. -/
def reservedData : List (TypeId × TypeData) :=
  [(.any, .intrinsic .any), (.unknown, .intrinsic .unknown), (.never, .intrinsic .never),
    (.void, .intrinsic .void), (.undefined, .intrinsic .undefined), (.null, .intrinsic .null),
    (.string, .intrinsic .string), (.number, .intrinsic .number), (.boolean, .intrinsic .boolean),
    (.bigint, .intrinsic .bigint), (.symbol, .intrinsic .symbol), (.object, .intrinsic .object),
    (.booleanTrue, .literal (.boolean true)), (.booleanFalse, .literal (.boolean false)),
    (.emptyObject, .object ⟨0⟩)]

theorem Sound.get?_of_mem_reservedData (h : t.Sound) {entry : TypeId × TypeData}
    (he : entry ∈ reservedData) : t.get? entry.1 = some entry.2 := by
  have hinitial : ∀ entry ∈ reservedData, initial.get? entry.1 = some entry.2 := by decide
  have hget := hinitial entry he
  rw [← hget]
  exact getElem?_of_prefix_of_lt h.reserved (knows_of_get? hget)

theorem Sound.get?_never (h : t.Sound) : t.get? TypeId.never = some (.intrinsic .never) := by
  have hmem : (TypeId.never, TypeData.intrinsic .never) ∈ reservedData := by decide
  exact h.get?_of_mem_reservedData hmem

theorem Sound.get?_any (h : t.Sound) : t.get? TypeId.any = some (.intrinsic .any) := by
  have hmem : (TypeId.any, TypeData.intrinsic .any) ∈ reservedData := by decide
  exact h.get?_of_mem_reservedData hmem

theorem Sound.isUnion_any (h : t.Sound) : t.isUnion TypeId.any = false := by
  simp [isUnion, h.get?_any]

theorem Sound.two_le_length_members (h : t.Sound) (hu : t.isUnion i = true) :
    2 ≤ (t.members i).length := by
  obtain ⟨list, hi, hmembers⟩ := exists_list_of_isUnion hu
  exact hmembers ▸ h.two_le_members hi

/-! ### What an operation answers -/

/-- Data is entered in a table or found there, and the id that stands for it is answered. What is known is
answered with its own id and nothing is entered; what is new is entered at the end. -/
structure Enters (t : Types) (d : TypeData) (r : Types × Option TypeId) : Prop where
  answers : ∃ i, r.2 = some i ∧ r.1.get? i = some d
  known : ∀ i, t.get? i = some d → r.2 = some i ∧ r.1.data = t.data
  new : (∀ i, t.get? i ≠ some d) → r.2 = some ⟨t.size⟩ ∧ r.1.data = t.data.push d

/-- Types that flatten to the given members are united: nothing is entered where the union is one of the
reserved types or the only member, and otherwise a union with exactly these members is. -/
structure Unites (t : Types) (flat : List TypeId) (r : Types × Option TypeId) : Prop where
  any : TypeId.any ∈ flat → r = (t, some TypeId.any)
  unknown : TypeId.any ∉ flat → TypeId.unknown ∈ flat → r = (t, some TypeId.unknown)
  none_left : flat = [] → r = (t, some TypeId.never)
  one_left : ∀ single, flat = [single] → r = (t, some single)
  more_left : TypeId.any ∉ flat → TypeId.unknown ∉ flat → 2 ≤ flat.length →
    ∃ list, r.1.lists[list.raw]? = some flat ∧ t.Enters (.union list) r

/-- An operation on a table does and answers what it is asked to: `r` is the table after it and its
answer. -/
def CarriesOut (t : Types) (r : Types × Option TypeId) : Operation → Prop
  | .intrinsic kind => t.Enters (.intrinsic kind) r
  | .internLiteral value | .literal value => t.Enters (.literal value) r
  | .enumMember enum member value => t.Enters (.enumMember enum member value) r
  | .array element => t.Enters (.array element) r
  | .object shape => ∃ o, r.1.objectIds.lookup shape = some o ∧
      (t.objectIds.lookup shape = some o ∨
        t.objectIds.lookup shape = none ∧ o = ⟨t.objects.size⟩ ∧ r.1.objects = t.objects.push shape) ∧
      t.Enters (.object o) r
  | .function shape => ∃ f, r.1.functions[f.raw]? = some shape ∧ t.Enters (.function f) r
  | .declareObject name =>
    r.1.objects[t.objects.size]? = some (.named name) ∧ t.Enters (.object ⟨t.objects.size⟩) r
  | .defineObject _ _ => r.2 = none ∧ r.1.data = t.data
  | .union members => t.Unites (t.flatten members) r
  | .withoutUndefined i =>
    if (t.members i).length < 2 ∨ TypeId.undefined ∉ t.members i then r = (t, some i)
    else t.Unites (t.flatten ((t.members i).filter (· ≠ TypeId.undefined))) r

/-- Data is entered in a table that has grown in its other pools only. -/
theorem InStep.enters_intern {u : Types} (h : u.InStep) (hdata : u.data = t.data) (d : TypeData) :
    t.Enters d (perform.answer (u.intern d)) where
  answers := ⟨_, rfl, h.get?_intern d⟩
  known i hi := by
    have hfound : u.get? i = some d := by rwa [Types.get?, hdata]
    rw [perform.answer, h.intern_of_get? hfound]
    exact ⟨rfl, hdata⟩
  new hnew := by
    have hnone : u.dataIds.lookup d = none := Option.eq_none_iff_forall_ne_some.mpr fun i hi => by
      obtain ⟨n, rfl, hn⟩ := (h.data d i).mp hi
      exact hnew ⟨n⟩ (by rwa [Types.get?, ← hdata])
    rw [perform.answer, intern_eq_enter, enter_of_lookup_eq_none hnone, hdata]
    exact ⟨rfl, rfl⟩

theorem Reshaped.enters_intern {u : Types} (hu : t.Reshaped u) (h : t.InStep) (d : TypeData) :
    t.Enters d (perform.answer (u.intern d)) :=
  (hu.inStep h).enters_intern hu.data_eq d

/-- Data that is known is answered as it is. -/
theorem Sound.enters_of_get? (h : t.Sound) (hi : t.get? i = some d) : t.Enters d (t, some i) where
  answers := ⟨i, rfl, hi⟩
  known _ hj := ⟨congrArg some (h.id_inj hi hj), rfl⟩
  new hnew := (hnew i hi).elim

theorem InStep.unites_union (h : t.InStep) (members : List TypeId) :
    t.Unites (t.flatten members) (perform.answer (t.union members)) where
  any hany := by rw [union_of_any hany, perform.answer]
  unknown hany hunknown := by rw [union_of_unknown hany hunknown, perform.answer]
  none_left hnil := by rw [union_of_nil hnil, perform.answer]
  one_left single hsingle := by rw [union_of_single hsingle, perform.answer]
  more_left hany hunknown hlength := by
    rw [union_of_two_le hany hunknown hlength]
    have hdata : (t.internList (t.flatten members)).1.data = t.data := rfl
    exact ⟨_, h.getElem?_internList _, (h.internList _).enters_intern hdata _⟩

theorem Sound.enters_literal (h : t.Sound) (hs : t.InStep) (value : Literal) :
    t.Enters (.literal value) (perform.answer (t.literal value)) := by
  cases value with
  | boolean b =>
    have hreserved : (booleanLiteral b, TypeData.literal (.boolean b)) ∈ reservedData := by
      cases b <;> decide
    exact h.enters_of_get? (h.get?_of_mem_reservedData hreserved)
  | _ => exact (Reshaped.refl t).enters_intern hs _

theorem Sound.carriesOut (h : t.Sound) (hs : t.InStep) (op : Operation) :
    t.CarriesOut (t.perform op) op := by
  cases op with
  | intrinsic | internLiteral | enumMember | array => exact (Reshaped.refl t).enters_intern hs _
  | literal value => exact h.enters_literal hs value
  | object shape =>
    refine ⟨(t.internObject shape).2, lookup_enter _ _ _ _, ?_, (Reshaped.objects _ _).enters_intern hs _⟩
    cases hshape : t.objectIds.lookup shape with
    | some o =>
      rw [internObject_eq_enter, enter_of_lookup_eq_some hshape]
      exact .inl rfl
    | none =>
      have hobjects : (t.perform (.object shape)).1.objects = (t.internObject shape).1.objects := rfl
      rw [hobjects, internObject_eq_enter, enter_of_lookup_eq_none hshape]
      exact .inr ⟨rfl, rfl, rfl⟩
  | function shape =>
    exact ⟨_, hs.getElem?_internFunction shape, (Reshaped.function shape).enters_intern hs _⟩
  | declareObject name =>
    exact ⟨Array.getElem?_push_size, (Reshaped.objects _ _).enters_intern hs _⟩
  | defineObject i shape =>
    cases hd : t.defineObject i shape with
    | none =>
      rw [Types.perform, hd]
      exact ⟨rfl, rfl⟩
    | some t' =>
      obtain ⟨objects, rfl⟩ := exists_of_defineObject hd
      rw [Types.perform, hd]
      exact ⟨rfl, rfl⟩
  | union members => exact hs.unites_union members
  | withoutUndefined i =>
    simp only [CarriesOut, perform, Types.withoutUndefined]
    split
    · rfl
    · exact hs.unites_union _

/-- After any operations on the initial table, the records of ids and the pools of types, lists and
function shapes are inverse to each other, so known ids are equal exactly if they stand for the same, and
nothing is in one of these pools twice; and the reserved ids stand for the reserved types. Whatever
operations follow, all ids and all entries of these pools stay as they are. Every operation answers an id
that stands for what it was asked for: the one that this has already, or else the next one. -/
theorem ids_canonical (ops : List Operation) :
    let t := initial.performAll ops
    (∀ d i, t.dataIds.lookup d = some i ↔ t.get? i = some d) ∧
      (∀ members i, t.listIds.lookup members = some i ↔ t.lists[i.raw]? = some members) ∧
      (∀ shape i, t.functionIds.lookup shape = some i ↔ t.functions[i.raw]? = some shape) ∧
      (∀ i j, t.Knows i → t.Knows j → (i = j ↔ t.get? i = t.get? j)) ∧
      (∀ entry ∈ reservedData, t.get? entry.1 = some entry.2) ∧
      t.lists.toList.Nodup ∧ t.functions.toList.Nodup ∧
      (∀ more, t.Extends (initial.performAll (ops ++ more))) ∧
      ∀ op, t.CarriesOut (t.perform op) op := by
  intro t
  have hbuilt : t.Built := Built.initial.performAll ops
  have hsound : t.Sound := hbuilt.sound
  have hstep : t.InStep := hbuilt.inStep
  refine ⟨fun d i => hstep.data.lookup_iff (fun _ => rfl) fun _ => rfl,
    fun members i => hstep.lists.lookup_iff (fun _ => rfl) fun _ => rfl,
    fun shape i => hstep.functions.lookup_iff (fun _ => rfl) fun _ => rfl,
    fun i j hi _ => hsound.eq_iff_get? hi, fun entry he => hsound.get?_of_mem_reservedData he,
    hsound.nodup_lists, hsound.nodup_functions, fun more => ?_, hsound.carriesOut hstep⟩
  rw [performAll_append]
  exact extends_performAll t more

end Types

end Misfit
