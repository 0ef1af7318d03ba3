import Misfit.Types.Table
import Mathlib.Data.List.Infix
import Mathlib.Data.List.Nodup

/-!
# Tables that are built by their operations

A table of types begins with the reserved types, and each of its operations enters something or finds it.
Whether something is found is up to the record of ids beside its pool. The records are in step with their
pools: an id is recorded for an item exactly if the item stands at the place of the id. So no pool holds
anything twice; the reserved types stay where they are, and no type refers to an entry of a pool that is
not there. A pool only grows at its end: what has been entered once is found at the same place in every
pool that grew from that one.
-/
namespace Misfit

section Pool

variable {α ι : Type} {id : Nat → ι} {pool pool' : Array α} {ids ids' : List (α × ι)} {x y : α} {i : ι}

theorem getElem?_of_prefix_of_lt (h : pool.toList <+: pool'.toList) {n : Nat} (hn : n < pool.size) :
    pool'[n]? = pool[n]? := by
  have hlist := List.prefix_iff_getElem?.mp h n (by simpa using hn)
  simpa [hn] using hlist

variable [BEq α]

theorem enter_of_lookup_eq_some (h : ids.lookup x = some i) : enter id pool ids x = ((pool, ids), i) := by
  simp only [enter, h]

theorem enter_of_lookup_eq_none (h : ids.lookup x = none) :
    enter id pool ids x = ((pool.push x, ids ++ [(x, id pool.size)]), id pool.size) := by
  simp only [enter, h]

theorem prefix_enter (id : Nat → ι) (pool : Array α) (ids : List (α × ι)) (x : α) :
    pool.toList <+: (enter id pool ids x).1.1.toList := by
  cases h : ids.lookup x with
  | some i => rw [enter_of_lookup_eq_some h]
  | none =>
    rw [enter_of_lookup_eq_none h, Array.toList_push]
    exact List.prefix_append _ _

theorem mem_or_eq_of_mem_enter (h : y ∈ (enter id pool ids x).1.1.toList) :
    y ∈ pool.toList ∨ y = x := by
  cases hx : ids.lookup x with
  | some i =>
    rw [enter_of_lookup_eq_some hx] at h
    exact Or.inl h
  | none => simpa [enter_of_lookup_eq_none hx] using h

/-- What is entered at a new place is the item that is entered. -/
theorem eq_of_getElem?_enter {n : Nat} (hn : pool.size ≤ n)
    (h : (enter id pool ids x).1.1[n]? = some y) : y = x := by
  cases hx : ids.lookup x with
  | some i => simp [enter_of_lookup_eq_some hx, Array.getElem?_eq_none hn] at h
  | none =>
    rw [enter_of_lookup_eq_none hx, Array.getElem?_push] at h
    split at h
    · exact (Option.some.inj h).symm
    · simp [Array.getElem?_eq_none hn] at h

/-- The record of a pool is in step with it: an id is recorded for an item exactly if it is the id of the
place where the item stands. -/
def PoolInStep (id : Nat → ι) (pool : Array α) (ids : List (α × ι)) : Prop :=
  ∀ x i, ids.lookup x = some i ↔ ∃ n, id n = i ∧ pool[n]? = some x

namespace PoolInStep

/-- What has no id stands nowhere. -/
theorem getElem?_ne_of_lookup_eq_none (h : PoolInStep id pool ids) (hx : ids.lookup x = none) (n : Nat) :
    pool[n]? ≠ some x := fun hn => by
  have hfound := (h x (id n)).mpr ⟨n, rfl, hn⟩
  simp [hx] at hfound

/-- The record and the pool are inverse to each other. -/
theorem lookup_iff (h : PoolInStep id pool ids) {raw : ι → Nat} (hraw : ∀ n, raw (id n) = n)
    (hid : ∀ i, id (raw i) = i) : ids.lookup x = some i ↔ pool[raw i]? = some x := by
  rw [h x i]
  constructor
  · rintro ⟨n, rfl, hn⟩
    rwa [hraw]
  · exact fun hi => ⟨raw i, hid i, hi⟩

/-- An item that stands in the pool is answered with the id of its place. -/
theorem enter_of_getElem? (h : PoolInStep id pool ids) {n : Nat} (hn : pool[n]? = some x) :
    Misfit.enter id pool ids x = ((pool, ids), id n) :=
  enter_of_lookup_eq_some ((h x (id n)).mpr ⟨n, rfl, hn⟩)

/-- An item that stands at two places has two ids recorded for it. -/
theorem nodup (h : PoolInStep id pool ids) (hid : id.Injective) : pool.toList.Nodup := by
  rw [List.nodup_iff_getElem?_ne_getElem?]
  intro m n hmn hn heq
  have hget : pool[n]? = some pool[n] := Array.getElem?_eq_getElem (by simpa using hn)
  have hm := (h _ _).mpr ⟨m, rfl, (by simpa using heq : pool[m]? = pool[n]?).trans hget⟩
  have hn' := (h _ _).mpr ⟨n, rfl, hget⟩
  exact hmn.ne (hid (Option.some.inj (hm.symm.trans hn')))

end PoolInStep

variable [LawfulBEq α]

theorem lookup_concat_self (h : ids.lookup x = none) (i : ι) : (ids ++ [(x, i)]).lookup x = some i := by
  rw [List.lookup_append, h, Option.none_or, List.lookup_cons_self]

theorem lookup_concat_of_ne (h : y ≠ x) (i : ι) : (ids ++ [(x, i)]).lookup y = ids.lookup y := by
  rw [List.lookup_append, List.lookup_cons, beq_eq_false_iff_ne.mpr h, List.lookup_nil, Option.or_none]

/-- The id that is answered is the one that is recorded then. -/
theorem lookup_enter (id : Nat → ι) (pool : Array α) (ids : List (α × ι)) (x : α) :
    (enter id pool ids x).1.2.lookup x = some (enter id pool ids x).2 := by
  cases h : ids.lookup x with
  | some i => rw [enter_of_lookup_eq_some h, h]
  | none => rw [enter_of_lookup_eq_none h, lookup_concat_self h]

namespace PoolInStep

/-- A new item stands at the new place only, and every other item where it stood. -/
theorem concat (h : PoolInStep id pool ids) (hx : ids.lookup x = none) :
    PoolInStep id (pool.push x) (ids ++ [(x, id pool.size)]) := by
  intro y j
  by_cases hy : y = x
  · subst hy
    rw [lookup_concat_self hx]
    constructor
    · rintro ⟨⟩
      exact ⟨pool.size, rfl, Array.getElem?_push_size⟩
    · rintro ⟨n, rfl, hn⟩
      rw [Array.getElem?_push] at hn
      split at hn
      · rename_i heq
        rw [heq]
      · exact (h.getElem?_ne_of_lookup_eq_none hx n hn).elim
  · rw [lookup_concat_of_ne hy, h y j]
    refine exists_congr fun n => and_congr_right fun _ => ?_
    rw [Array.getElem?_push]
    split
    · rename_i heq
      rw [heq, Array.getElem?_eq_none le_rfl]
      simp [Ne.symm hy]
    · exact Iff.rfl

theorem enter (h : PoolInStep id pool ids) (x : α) :
    PoolInStep id (enter id pool ids x).1.1 (enter id pool ids x).1.2 := by
  cases hx : ids.lookup x with
  | some i => rwa [enter_of_lookup_eq_some hx]
  | none =>
    rw [enter_of_lookup_eq_none hx]
    exact h.concat hx

theorem exists_getElem?_enter (h : PoolInStep id pool ids) (x : α) :
    ∃ n, id n = (Misfit.enter id pool ids x).2 ∧ (Misfit.enter id pool ids x).1.1[n]? = some x :=
  (h.enter x x _).mp (lookup_enter id pool ids x)

/-- A pool that has grown from one with an item answers the id of the item there, and stays as it is. -/
theorem enter_again (h : PoolInStep id pool ids) (h' : PoolInStep id pool' ids')
    (hpools : (Misfit.enter id pool ids x).1.1.toList <+: pool'.toList) :
    Misfit.enter id pool' ids' x = ((pool', ids'), (Misfit.enter id pool ids x).2) := by
  obtain ⟨n, hid, hn⟩ := h.exists_getElem?_enter x
  have hlt : n < (Misfit.enter id pool ids x).1.1.size := (Array.getElem?_eq_some_iff.mp hn).1
  rw [← hid]
  exact h'.enter_of_getElem? ((getElem?_of_prefix_of_lt hpools hlt).trans hn)

end PoolInStep

end Pool

namespace Types

theorem intern_eq_enter (t : Types) (d : TypeData) :
    t.intern d =
      ({ t with
          data := (enter TypeId.mk t.data t.dataIds d).1.1
          dataIds := (enter TypeId.mk t.data t.dataIds d).1.2 },
        (enter TypeId.mk t.data t.dataIds d).2) := rfl

theorem internList_eq_enter (t : Types) (members : List TypeId) :
    t.internList members =
      ({ t with
          lists := (enter ListId.mk t.lists t.listIds members).1.1
          listIds := (enter ListId.mk t.lists t.listIds members).1.2 },
        (enter ListId.mk t.lists t.listIds members).2) := rfl

theorem internObject_eq_enter (t : Types) (shape : ObjectShape) :
    t.internObject shape =
      ({ t with
          objects := (enter ObjectId.mk t.objects t.objectIds shape).1.1
          objectIds := (enter ObjectId.mk t.objects t.objectIds shape).1.2 },
        (enter ObjectId.mk t.objects t.objectIds shape).2) := rfl

theorem internFunction_eq_enter (t : Types) (shape : FunctionShape) :
    t.internFunction shape =
      ({ t with
          functions := (enter FunctionId.mk t.functions t.functionIds shape).1.1
          functionIds := (enter FunctionId.mk t.functions t.functionIds shape).1.2 },
        (enter FunctionId.mk t.functions t.functionIds shape).2) := rfl

/-- The tables that the operations build, from the table of the reserved types. -/
inductive Built : Types → Prop
  | initial : Built initial
  | intrinsic {t : Types} (h : Built t) (kind : Intrinsic) : Built (t.intern (.intrinsic kind)).1
  | internLiteral {t : Types} (h : Built t) (value : Literal) : Built (t.intern (.literal value)).1
  | literal {t : Types} (h : Built t) (value : Literal) : Built (t.literal value).1
  | enumMember {t : Types} (h : Built t) (enum member : String) (value : Literal) :
    Built (t.enumMember enum member value).1
  | array {t : Types} (h : Built t) (element : TypeId) : Built (t.array element).1
  | object {t : Types} (h : Built t) (shape : ObjectShape) : Built (t.object shape).1
  | function {t : Types} (h : Built t) (shape : FunctionShape) : Built (t.function shape).1
  | declareObject {t : Types} (h : Built t) (name : String) : Built (t.declareObject name).1
  | defineObject {t t' : Types} {i : TypeId} {shape : ObjectShape} (h : Built t)
    (hd : t.defineObject i shape = some t') : Built t'
  | union {t : Types} (h : Built t) (members : List TypeId) : Built (t.union members).1

/-- What the operations keep: the reserved types come first, the pools have no repetitions, every list of
union members has at least two of them, and types refer to entries that are there. -/
structure Sound (t : Types) : Prop where
  reserved : initial.data.toList <+: t.data.toList
  nodup_data : t.data.toList.Nodup
  nodup_lists : t.lists.toList.Nodup
  nodup_functions : t.functions.toList.Nodup
  two_le_length : ∀ l ∈ t.lists.toList, 2 ≤ l.length
  list_lt : ∀ i, .union i ∈ t.data.toList → i.raw < t.lists.size
  function_lt : ∀ i, .function i ∈ t.data.toList → i.raw < t.functions.size

/-- The records of the pools that hold nothing twice are in step with them. The record of object shapes is
not, since shapes that are declared or filled in are put into their pool without one. -/
structure InStep (t : Types) : Prop where
  data : PoolInStep TypeId.mk t.data t.dataIds
  lists : PoolInStep ListId.mk t.lists t.listIds
  functions : PoolInStep FunctionId.mk t.functions t.functionIds

/-- The table with another pool of object shapes, and another record of it. These have no part in what is
kept. -/
def withObjects (t : Types) (objects : Array ObjectShape) (objectIds : List (ObjectShape × ObjectId)) :
    Types :=
  { t with objects, objectIds }

variable {t : Types}

/-! ### The records keep in step -/

theorem inStep_initial : initial.InStep where
  data d i := by
    have hplaces : ∀ n < reserved.length,
        (reserved[n]?.bind fun d => initial.dataIds.lookup d) = some ⟨n⟩ := by decide
    have hback : ∀ entry ∈ initial.dataIds, initial.data[entry.2.raw]? = some entry.1 := by decide
    constructor
    · intro h
      obtain ⟨before, later, hids, -⟩ := List.lookup_eq_some_iff.mp h
      have hmem : (d, i) ∈ initial.dataIds := hids ▸ List.mem_append_right _ List.mem_cons_self
      exact ⟨i.raw, rfl, hback (d, i) hmem⟩
    · rintro ⟨n, rfl, hn⟩
      have hlt : n < reserved.length := (Array.getElem?_eq_some_iff.mp hn).1
      have hplace := hplaces n hlt
      have hn' : reserved[n]? = some d := by simpa [initial] using hn
      rwa [hn'] at hplace
  lists := by simp [PoolInStep, initial]
  functions := by simp [PoolInStep, initial]

theorem InStep.intern (h : t.InStep) (d : TypeData) : (t.intern d).1.InStep :=
  { h with data := h.data.enter d }

theorem InStep.internList (h : t.InStep) (members : List TypeId) : (t.internList members).1.InStep :=
  { h with lists := h.lists.enter members }

theorem InStep.internFunction (h : t.InStep) (shape : FunctionShape) :
    (t.internFunction shape).1.InStep :=
  { h with functions := h.functions.enter shape }

theorem InStep.withObjects (h : t.InStep) (objects : Array ObjectShape)
    (objectIds : List (ObjectShape × ObjectId)) : (t.withObjects objects objectIds).InStep := { h with }

/-- Filling in a shape changes nothing else. -/
theorem exists_of_defineObject {t' : Types} {i : TypeId} {shape : ObjectShape}
    (h : t.defineObject i shape = some t') : ∃ objects, t' = t.withObjects objects t.objectIds := by
  unfold defineObject at h
  split at h
  · split at h
    · exact ⟨_, (Option.some.inj h).symm⟩
    · simp at h
  · simp at h

theorem InStep.union (h : t.InStep) (members : List TypeId) : (t.union members).1.InStep := by
  unfold Types.union
  dsimp only
  split
  · exact h
  split
  · exact h
  split
  · exact h
  · exact h
  · exact (h.internList _).intern _

/-- In every table that the operations build the records are in step. By induction on the operations. -/
theorem Built.inStep (h : t.Built) : t.InStep := by
  induction h with
  | initial => exact inStep_initial
  | intrinsic _ _ ih | internLiteral _ _ ih | enumMember _ _ _ _ ih | array _ _ ih => exact ih.intern _
  | literal _ value ih =>
    cases value with
    | boolean => exact ih
    | _ => exact ih.intern _
  | object _ shape ih => exact (ih.withObjects _ _).intern _
  | function _ shape ih => exact (ih.internFunction shape).intern _
  | declareObject _ name ih => exact (ih.withObjects _ _).intern _
  | defineObject _ hd ih =>
    obtain ⟨objects, rfl⟩ := exists_of_defineObject hd
    exact ih.withObjects _ _
  | union _ members ih => exact ih.union members

theorem InStep.nodup_data (h : t.InStep) : t.data.toList.Nodup :=
  h.data.nodup fun _ _ => TypeId.mk.inj

theorem InStep.nodup_lists (h : t.InStep) : t.lists.toList.Nodup :=
  h.lists.nodup fun _ _ => ListId.mk.inj

theorem InStep.nodup_functions (h : t.InStep) : t.functions.toList.Nodup :=
  h.functions.nodup fun _ _ => FunctionId.mk.inj

/-- Entering data answers an id that holds it. -/
theorem get?_of_enter {t' : Types} {d : TypeData} (h : PoolInStep TypeId.mk t.data t.dataIds)
    (hdata : t'.data = (enter TypeId.mk t.data t.dataIds d).1.1) :
    t'.get? (enter TypeId.mk t.data t.dataIds d).2 = some d := by
  obtain ⟨n, hid, hn⟩ := h.exists_getElem?_enter d
  rwa [get?, hdata, ← hid]

theorem InStep.get?_intern (h : t.InStep) (d : TypeData) :
    (t.intern d).1.get? (t.intern d).2 = some d :=
  get?_of_enter h.data rfl

/-- Data that stands in the table is answered with the id of its place. -/
theorem InStep.intern_of_get? (h : t.InStep) {i : TypeId} {d : TypeData} (hi : t.get? i = some d) :
    t.intern d = (t, i) := by
  have hi' : t.data[i.raw]? = some d := hi
  rw [intern_eq_enter, h.data.enter_of_getElem? hi']

theorem InStep.getElem?_internList (h : t.InStep) (members : List TypeId) :
    (t.internList members).1.lists[(t.internList members).2.raw]? = some members := by
  obtain ⟨n, hid, hn⟩ := h.lists.exists_getElem?_enter members
  rw [internList_eq_enter, ← hid]
  exact hn

theorem InStep.raw_internList_lt (h : t.InStep) (members : List TypeId) :
    (t.internList members).2.raw < (t.internList members).1.lists.size :=
  (Array.getElem?_eq_some_iff.mp (h.getElem?_internList members)).1

theorem InStep.getElem?_internFunction (h : t.InStep) (shape : FunctionShape) :
    (t.internFunction shape).1.functions[(t.internFunction shape).2.raw]? = some shape := by
  obtain ⟨n, hid, hn⟩ := h.functions.exists_getElem?_enter shape
  rw [internFunction_eq_enter, ← hid]
  exact hn

theorem InStep.raw_internFunction_lt (h : t.InStep) (shape : FunctionShape) :
    (t.internFunction shape).2.raw < (t.internFunction shape).1.functions.size :=
  (Array.getElem?_eq_some_iff.mp (h.getElem?_internFunction shape)).1

/-! ### The tables are sound -/

theorem sound_initial : initial.Sound where
  reserved := List.prefix_rfl
  nodup_data := inStep_initial.nodup_data
  nodup_lists := List.nodup_nil
  nodup_functions := List.nodup_nil
  two_le_length := by simp [initial]
  list_lt := by simp [initial, Types.reserved]
  function_lt := by simp [initial, Types.reserved]

theorem Sound.intern (h : t.Sound) (hs : t.InStep) {d : TypeData}
    (hlist : ∀ i, d = .union i → i.raw < t.lists.size)
    (hfunction : ∀ i, d = .function i → i.raw < t.functions.size) : (t.intern d).1.Sound :=
  { h with
    reserved := h.reserved.trans (prefix_enter _ _ _ _)
    nodup_data := (hs.intern d).nodup_data
    list_lt := fun i hi => (mem_or_eq_of_mem_enter hi).elim (h.list_lt i) fun heq => hlist i heq.symm
    function_lt := fun i hi =>
      (mem_or_eq_of_mem_enter hi).elim (h.function_lt i) fun heq => hfunction i heq.symm }

theorem Sound.internList (h : t.Sound) (hs : t.InStep) {members : List TypeId}
    (hm : 2 ≤ members.length) : (t.internList members).1.Sound :=
  { h with
    nodup_lists := (hs.internList members).nodup_lists
    two_le_length := fun l hl =>
      (mem_or_eq_of_mem_enter hl).elim (h.two_le_length l) fun heq => heq ▸ hm
    list_lt := fun i hi => (h.list_lt i hi).trans_le (prefix_enter _ _ _ _).length_le }

theorem Sound.internFunction (h : t.Sound) (hs : t.InStep) (shape : FunctionShape) :
    (t.internFunction shape).1.Sound :=
  { h with
    nodup_functions := (hs.internFunction shape).nodup_functions
    function_lt := fun i hi => (h.function_lt i hi).trans_le (prefix_enter _ _ _ _).length_le }

theorem Sound.withObjects (h : t.Sound) (objects : Array ObjectShape)
    (objectIds : List (ObjectShape × ObjectId)) : (t.withObjects objects objectIds).Sound := { h with }

theorem Sound.union (h : t.Sound) (hs : t.InStep) (members : List TypeId) :
    (t.union members).1.Sound := by
  unfold Types.union
  dsimp only
  split
  · exact h
  split
  · exact h
  split
  · exact h
  · exact h
  · rename_i hempty hsingle
    have hlength : 2 ≤ (t.flatten members).length := by
      match hflat : t.flatten members with
      | [] => exact (hempty hflat).elim
      | [single] => exact (hsingle single hflat).elim
      | _ :: _ :: _ => simp
    refine (h.internList hs hlength).intern (hs.internList _) (fun i hi => ?_) (by simp)
    obtain rfl := TypeData.union.inj hi
    exact hs.raw_internList_lt _

/-- Every table that the operations build is sound. By induction on the operations. -/
theorem Built.sound (h : t.Built) : t.Sound := by
  induction h with
  | initial => exact sound_initial
  | intrinsic ht _ ih | internLiteral ht _ ih | enumMember ht _ _ _ ih | array ht _ ih =>
    exact ih.intern ht.inStep (by simp) (by simp)
  | literal ht value ih =>
    cases value with
    | boolean => exact ih
    | _ => exact ih.intern ht.inStep (by simp) (by simp)
  | object ht shape ih =>
    exact (ih.withObjects _ _).intern (ht.inStep.withObjects _ _) (by simp) (by simp)
  | function ht shape ih =>
    refine (ih.internFunction ht.inStep shape).intern (ht.inStep.internFunction shape) (by simp)
      fun i hi => ?_
    obtain rfl := TypeData.function.inj hi
    exact ht.inStep.raw_internFunction_lt shape
  | declareObject ht name ih =>
    exact (ih.withObjects _ _).intern (ht.inStep.withObjects _ _) (by simp) (by simp)
  | defineObject _ hd ih =>
    obtain ⟨objects, rfl⟩ := exists_of_defineObject hd
    exact ih.withObjects _ _
  | union ht members ih => exact ih.union ht.inStep members

variable {i j : TypeId} {d : TypeData}

theorem mem_data_of_get? (h : t.get? i = some d) : d ∈ t.data.toList :=
  (Array.mem_of_getElem? h).val

/-- Where no type is entered twice, it is known by one id only. -/
theorem eq_of_get?_eq_some (h : t.data.toList.Nodup) (hi : t.get? i = some d) (hj : t.get? j = some d) :
    i = j := by
  have hlt : i.raw < t.data.toList.length := (Array.getElem?_eq_some_iff.mp hi).1
  have heq : t.data.toList[i.raw]? = t.data.toList[j.raw]? := by
    simpa [get?] using hi.trans hj.symm
  have hraw : i.raw = j.raw := (List.getElem?_inj hlt h).mp heq
  cases i
  exact congrArg TypeId.mk hraw

theorem Sound.id_inj (h : t.Sound) (hi : t.get? i = some d) (hj : t.get? j = some d) : i = j :=
  eq_of_get?_eq_some h.nodup_data hi hj

/-- Two unions with the same members are one type. -/
theorem Sound.union_inj (h : t.Sound) {a b : ListId} (hi : t.get? i = some (.union a))
    (hj : t.get? j = some (.union b)) (heq : t.listAt a = t.listAt b) : i = j := by
  have ha := h.list_lt a (mem_data_of_get? hi)
  have hb := h.list_lt b (mem_data_of_get? hj)
  have hlists : t.lists.toList[a.raw]? = t.lists.toList[b.raw]? := by
    simpa [listAt, Array.getD, ha, hb] using heq
  have hraw : a.raw = b.raw := (List.getElem?_inj ha h.nodup_lists).mp hlists
  cases a
  obtain rfl : _ = b := congrArg ListId.mk hraw
  exact h.id_inj hi hj

/-- Two functions of the same shape are one type. -/
theorem Sound.function_inj (h : t.Sound) {a b : FunctionId} (hi : t.get? i = some (.function a))
    (hj : t.get? j = some (.function b)) (heq : t.functionAt a = t.functionAt b) : i = j := by
  have ha := h.function_lt a (mem_data_of_get? hi)
  have hb := h.function_lt b (mem_data_of_get? hj)
  have hfunctions : t.functions.toList[a.raw]? = t.functions.toList[b.raw]? := by
    simpa [functionAt, Array.getD, ha, hb] using heq
  have hraw : a.raw = b.raw := (List.getElem?_inj ha h.nodup_functions).mp hfunctions
  cases a
  obtain rfl : _ = b := congrArg FunctionId.mk hraw
  exact h.id_inj hi hj

/-- A union has at least two members. -/
theorem Sound.two_le_members (h : t.Sound) {a : ListId} (hi : t.get? i = some (.union a)) :
    2 ≤ (t.listAt a).length := by
  have ha := h.list_lt a (mem_data_of_get? hi)
  refine h.two_le_length _ ?_
  simp [listAt, Array.getD, ha]

theorem Sound.exists_mem_members (h : t.Sound) (i : TypeId) : ∃ k, k ∈ t.members i := by
  unfold members
  split
  · rename_i a hi
    have hlength := h.two_le_members hi
    exact List.exists_mem_of_length_pos (by omega)
  · exact ⟨i, List.mem_singleton_self i⟩

end Types

end Misfit
