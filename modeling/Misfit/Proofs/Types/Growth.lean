import Misfit.Compare.Basic
import Misfit.Proofs.Types.Built
import Misfit.Proofs.Types.Parts

/-!
# A table that grows

A table that has grown answers every question about the types known before as it did before: they are
where they were, with the same parts. For texts this takes an argument, because the depth that is allowed
for a text grows with the table. A union that has been entered is found again, and finding it enters
nothing.
-/
namespace Misfit

namespace Types

/-- The pools and their records are in order, and the parts of every type are known. -/
structure Settled (t : Types) : Prop where
  sound : t.Sound
  inStep : t.InStep
  closed : t.Closed

/-- A settled table has grown into another one whose records are in step: types and lists of union members
were entered, and the shapes of the types before are the same. -/
structure Grows (t t' : Types) : Prop where
  settled : t.Settled
  inStep : t'.InStep
  data : t.data.toList <+: t'.data.toList
  lists : t.lists.toList <+: t'.lists.toList
  objects : ∀ o, .object o ∈ t.data.toList → t'.objectAt o = t.objectAt o
  functions : ∀ f, .function f ∈ t.data.toList → t'.functionAt f = t.functionAt f

variable {t t' t'' : Types} {i j : TypeId}

theorem Built.settled (h : t.Built) (hc : t.Closed) : t.Settled := ⟨h.sound, h.inStep, hc⟩

theorem Settled.grows (h : t.Settled) : t.Grows t :=
  ⟨h, h.inStep, List.prefix_rfl, List.prefix_rfl, fun _ _ => rfl, fun _ _ => rfl⟩

theorem Grows.trans (h : t.Grows t') (h' : t'.Grows t'') : t.Grows t'' where
  settled := h.settled
  inStep := h'.inStep
  data := h.data.trans h'.data
  lists := h.lists.trans h'.lists
  objects o ho := (h'.objects o (h.data.subset ho)).trans (h.objects o ho)
  functions f hf := (h'.functions f (h.data.subset hf)).trans (h.functions f hf)

theorem Sound.knows_of_isReserved (h : t.Sound) (hi : i.isReserved = true) : t.Knows i := by
  have hlength := h.reserved.length_le
  have hraw : i.raw < 15 := of_decide_eq_true hi
  have hinitial : initial.data.toList.length = 15 := by decide
  have hsize : t.data.toList.length = t.size := rfl
  show i.raw < t.size
  omega

theorem Grows.knows (h : t.Grows t') (hi : t.Knows i) : t'.Knows i := hi.trans_le h.data.length_le

theorem Grows.get? (h : t.Grows t') (hi : t.Knows i) : t'.get? i = t.get? i :=
  getElem?_of_prefix_of_lt h.data hi

theorem Grows.listAt (h : t.Grows t') {list : ListId} (hi : t.get? i = some (.union list)) :
    t'.listAt list = t.listAt list := by
  have hlist := h.settled.sound.list_lt list (mem_data_of_get? hi)
  simp only [Types.listAt, Array.getD_eq_getD_getElem?, getElem?_of_prefix_of_lt h.lists hlist]

theorem Grows.objectAt (h : t.Grows t') {o : ObjectId} (hi : t.get? i = some (.object o)) :
    t'.objectAt o = t.objectAt o := h.objects o (mem_data_of_get? hi)

theorem Grows.functionAt (h : t.Grows t') {f : FunctionId} (hi : t.get? i = some (.function f)) :
    t'.functionAt f = t.functionAt f := h.functions f (mem_data_of_get? hi)

/-! ### Members, elements and properties -/

theorem Grows.members (h : t.Grows t') (hi : t.Knows i) : t'.members i = t.members i := by
  unfold Types.members
  rw [h.get? hi]
  split
  · exact h.listAt ‹_›
  · rfl

theorem Grows.element? (h : t.Grows t') (hi : t.Knows i) : t'.element? i = t.element? i := by
  simp only [Types.element?, h.get? hi]

theorem Grows.isUnion (h : t.Grows t') (hi : t.Knows i) : t'.isUnion i = t.isUnion i := by
  simp only [Types.isUnion, h.get? hi]

theorem Grows.isArray (h : t.Grows t') (hi : t.Knows i) : t'.isArray i = t.isArray i := by
  simp only [Types.isArray, h.element? hi]

theorem Grows.function? (h : t.Grows t') (hi : t.Knows i) : t'.function? i = t.function? i := by
  unfold Types.function?
  rw [h.get? hi]
  split
  · exact congrArg some (h.functionAt ‹_›)
  · rfl

theorem Grows.object? (h : t.Grows t') (hi : t.Knows i) : t'.object? i = t.object? i := by
  unfold Types.object?
  rw [h.get? hi]
  split
  · exact congrArg some (h.objectAt ‹_›)
  · rfl

theorem Grows.properties (h : t.Grows t') (hi : t.Knows i) : t'.properties i = t.properties i := by
  simp only [Types.properties, h.object? hi]

theorem Grows.property? (h : t.Grows t') (hi : t.Knows i) (name : String) :
    t'.property? i name = t.property? i name := by
  simp only [Types.property?, h.object? hi]

theorem Grows.indexes (h : t.Grows t') (hi : t.Knows i) : t'.indexes i = t.indexes i := by
  simp only [Types.indexes, h.object? hi]

theorem Grows.isOneOf (h : t.Grows t') (hi : t.Knows i) (cs : List Category) :
    t'.isOneOf i cs = t.isOneOf i cs := by
  simp only [Types.isOneOf, Types.categories, h.get? hi]

theorem Grows.shape (h : t.Grows t') (hi : t.Knows i) : t'.shape i = t.shape i := by
  unfold Types.shape Types.categories
  rw [h.get? hi]
  split
  · rfl
  · exact congrArg Shape.union (h.listAt ‹_›)
  · exact congrArg Shape.structured (h.objectAt ‹_›)
  · exact congrArg Shape.function (h.functionAt ‹_›)
  · rfl

/-! ### What is known of the parts -/

theorem Closed.knows_of_mem_members (h : t.Closed) (hi : t.Knows i) (hj : j ∈ t.members i) :
    t.Knows j := by
  unfold members at hj
  split at hj
  · rename_i list hlist
    exact h i j (by simpa only [parts, hlist] using hj)
  · rwa [List.mem_singleton.mp hj]

theorem Closed.knows_of_element? (h : t.Closed) (hj : t.element? i = some j) : t.Knows j := by
  unfold element? at hj
  split at hj
  · rename_i element hi
    obtain rfl := Option.some.inj hj
    exact h i element (by simp only [parts, hi, List.mem_singleton])
  · simp at hj

theorem Closed.knows_of_mem_properties (h : t.Closed) {m : Member} (hm : m ∈ t.properties i) :
    t.Knows m.type := by
  unfold properties object? at hm
  split at hm
  · rename_i id hi
    refine h i m.type ?_
    simp only [parts, hi, ObjectShape.parts]
    exact List.mem_append_left _ (List.mem_map_of_mem hm)
  · simp at hm

theorem Closed.knows_of_property? (h : t.Closed) {name : String} {m : Member}
    (hm : t.property? i name = some m) : t.Knows m.type :=
  h.knows_of_mem_properties (mem_properties_of_property? hm).1

theorem Closed.knows_of_mem_indexes (h : t.Closed) {signature : IndexSignature}
    (hs : signature ∈ t.indexes i) : t.Knows signature.key := by
  unfold indexes object? at hs
  split at hs
  · rename_i id hi
    refine h i signature.key ?_
    simp only [parts, hi, ObjectShape.parts]
    exact List.mem_append_right _ (List.mem_flatMap.mpr ⟨signature, hs, by simp⟩)
  · simp at hs

theorem Closed.knows_of_function? (h : t.Closed) {shape : FunctionShape}
    (hi : t.function? i = some shape) : ∀ k ∈ shape.parts, t.Knows k := by
  unfold function? at hi
  split at hi
  · rename_i id hid
    obtain rfl := Option.some.inj hi
    exact fun k hk => h i k (by simpa only [parts, hid] using hk)
  · simp at hi

/-! ### Texts and simple types -/

theorem Grows.renderWith (h : t.Grows t') (hi : t.Knows i) (f : TypeId → String) :
    t'.renderWith f i = t.renderWith f i := by
  unfold Types.renderWith
  rw [h.get? hi]
  split
  case h_5 element he =>
    have hknows : t.Knows element := h.settled.closed i element (by simp [parts, he])
    have hparentheses : t'.needsParentheses element = t.needsParentheses element := by
      unfold needsParentheses
      rw [h.get? hknows]
    rw [hparentheses]
  case h_6 list hl => rw [h.listAt hl]
  case h_7 shape ho => rw [h.objectAt ho]
  case h_8 shape hf => rw [h.functionAt hf]
  all_goals rfl

theorem Grows.render (h : t.Grows t') (hi : t.Knows i) : t'.render i = t.render i :=
  renderWithin_congr h.settled.closed.holds_knows (fun _ hk => h.renderWith hk) isPath_nil isPath_nil hi
    (by simp) (Nat.lt_succ_of_le h.data.length_le) fun _ _ => Iff.rfl

theorem Grows.renderWidened (h : t.Grows t') (hi : t.Knows i) :
    t'.renderWidened i = t.renderWidened i := by
  simp only [Types.renderWidened, h.isOneOf hi, h.render hi]

/-- How deep a union is looked into makes no difference, as long as it is deep enough for every path. By
induction on the depth. -/
theorem Grows.isSimpleWithin (h : t.Grows t') {m n : Nat} {path : List TypeId} (hp : t.IsPath path)
    (hi : t.Knows i) (hn : t.size < n + path.length) (hm : t.size < m + path.length) :
    t'.isSimpleWithin m path i = t.isSimpleWithin n path i := by
  induction n generalizing m path i with
  | zero =>
    have := hp.length_le
    omega
  | succ n ih =>
    cases m with
    | zero =>
      have := hp.length_le
      omega
    | succ m =>
      unfold Types.isSimpleWithin
      rw [h.get? hi]
      split
      · rename_i list hlist
        by_cases hpath : i ∈ path
        · simp [hpath]
        · rw [h.listAt hlist]
          congr 1
          rw [Bool.eq_iff_iff, List.all_eq_true, List.all_eq_true]
          refine forall₂_congr fun k hk => ?_
          have hknows : t.Knows k := h.settled.closed i k (by simpa [parts, hlist] using hk)
          rw [ih (hp.cons hi hpath) hknows (by simp only [List.length_cons]; omega)
            (by simp only [List.length_cons]; omega)]
      · rw [h.isOneOf hi]

theorem Grows.isSimple (h : t.Grows t') (hi : t.Knows i) : t'.isSimple i = t.isSimple i :=
  h.isSimpleWithin isPath_nil hi (by simp) (Nat.lt_succ_of_le h.data.length_le)

theorem Grows.areLike (h : t.Grows t') (hi : t.Knows i) (hj : t.Knows j) :
    t'.areLike i j = t.areLike i j := by
  simp only [Types.areLike, h.isOneOf hi, h.isOneOf hj]

/-! ### Setting types against each other -/

theorem Grows.isNever (h : t.Grows t') (hi : t.Knows i) : t'.isNever i = t.isNever i := by
  simp only [Types.isNever, h.element? hi]

theorem Grows.isFunction (h : t.Grows t') (hi : t.Knows i) : t'.isFunction i = t.isFunction i := by
  simp only [Types.isFunction, h.function? hi]

theorem Grows.facts (h : t.Grows t') (hi : t.Knows i) : t'.facts i = t.facts i := by
  simp only [Types.facts, h.isArray hi, h.isNever hi, h.isSimple hi]

theorem Grows.triviallyFits (h : t.Grows t') (hi : t.Knows i) (hj : t.Knows j) :
    t'.triviallyFits i j = t.triviallyFits i j := by
  simp only [Types.triviallyFits, h.render hi, h.render hj]

theorem Grows.shareSimpleMember (h : t.Grows t') (hi : t.Knows i) (hj : t.Knows j) :
    t'.shareSimpleMember i j = t.shareSimpleMember i j := by
  have htexts : ∀ k, t.Knows k → ((t.members k).filter t'.isSimple).map t'.render =
      ((t.members k).filter t.isSimple).map t.render := by
    intro k hk
    have hknows : ∀ m ∈ t.members k, t.Knows m := fun m => h.settled.closed.knows_of_mem_members hk
    have hfilter : (t.members k).filter t'.isSimple = (t.members k).filter t.isSimple :=
      List.filter_congr fun m hm => h.isSimple (hknows m hm)
    rw [hfilter]
    exact List.map_congr_left fun m hm => h.render (hknows m (List.mem_filter.mp hm).1)
  simp only [Types.shareSimpleMember, h.members hi, h.members hj, htexts i hi, htexts j hj]

theorem Grows.propertyMatch (h : t.Grows t') (hi : t.Knows i) (hj : t.Knows j) :
    t'.propertyMatch i j = t.propertyMatch i j := by
  simp only [Types.propertyMatch, h.render hi, h.render hj, h.isFunction hi, h.isFunction hj,
    h.shareSimpleMember hi hj, h.isSimple hi, h.isSimple hj, h.isNever hi, h.isNever hj]

/-! ### Entering a union -/

/-- An operation enters what it needs for good: the table has grown and is settled, and in every table
that has grown from it the operation comes to the same and enters nothing. -/
structure EntersOnce {α : Type} (op : Types → Types × α) (t : Types) : Prop where
  grows : t.Grows (op t).1
  settled : (op t).1.Settled
  again : ∀ t', (op t).1.Grows t' → op t' = (t', (op t).2)

/-- Operations that come to the same in every table that has grown from this one. -/
theorem EntersOnce.congr {α : Type} {op op' : Types → Types × α} (h : EntersOnce op t)
    (heq : ∀ t', t.Grows t' → op' t' = op t') : EntersOnce op' t := by
  have hself : op' t = op t := heq t h.grows.settled.grows
  refine ⟨hself ▸ h.grows, hself ▸ h.settled, fun t' ht' => ?_⟩
  rw [hself] at ht' ⊢
  rw [heq t' (h.grows.trans ht')]
  exact h.again t' ht'

/-- One operation after the other. -/
theorem EntersOnce.bind {α β : Type} {first : Types → Types × α} (h : EntersOnce first t)
    (next : α → Types → Types × β) (hnext : EntersOnce (next (first t).2) (first t).1) :
    EntersOnce (fun t => next (first t).2 (first t).1) t where
  grows := h.grows.trans hnext.grows
  settled := hnext.settled
  again t' ht' := by
    have hfirst : first t' = (t', (first t).2) := h.again t' (hnext.grows.trans ht')
    simp only [hfirst]
    exact hnext.again t' ht'

/-- Nothing is entered. -/
theorem Settled.entersOnce_pure {α : Type} (ht : t.Settled) (a : α) : EntersOnce (fun t => (t, a)) t :=
  ⟨ht.grows, ht, fun _ _ => rfl⟩

theorem Grows.parts (h : t.Grows t') (hi : t.Knows i) : t'.parts i = t.parts i := by
  unfold Types.parts
  rw [h.get? hi]
  split
  · rfl
  · exact h.listAt ‹_›
  · rw [h.objectAt ‹_›]
  · rw [h.functionAt ‹_›]
  · rfl

/-- The parts of what was known before are known. -/
theorem Grows.knows_parts (h : t.Grows t') (hi : t.Knows i) : ∀ j ∈ t'.parts i, t'.Knows j := by
  intro j hj
  rw [h.parts hi] at hj
  exact h.knows (h.settled.closed i j hj)

theorem Settled.entersOnce_internList (ht : t.Settled) {members : List TypeId}
    (hm : 2 ≤ members.length) : EntersOnce (fun t => t.internList members) t := by
  have hstep := ht.inStep.internList members
  have hgrows : t.Grows (t.internList members).1 :=
    ⟨ht, hstep, List.prefix_rfl, prefix_enter _ _ _ _, fun _ _ => rfl, fun _ _ => rfl⟩
  refine ⟨hgrows, ⟨ht.sound.internList ht.inStep hm, hstep, fun i j hj => ?_⟩, fun t' ht' => ?_⟩
  · by_cases hi : t.Knows i
    · exact hgrows.knows_parts hi j hj
    · have hnew : ¬(t.internList members).1.Knows i := by
        rw [internList_eq_enter]
        exact hi
      simp [parts_eq_nil_of_not_knows hnew] at hj
  · rw [internList_eq_enter, ht.inStep.lists.enter_again ht'.inStep.lists ht'.lists]
    rfl

/-- A type whose parts are known is entered once. -/
theorem Settled.entersOnce_intern (ht : t.Settled) {d : TypeData} (hsound : (t.intern d).1.Sound)
    (hparts : ∀ i, (t.intern d).1.get? i = some d → ∀ j ∈ (t.intern d).1.parts i, t.Knows j) :
    EntersOnce (fun t => t.intern d) t := by
  have hstep := ht.inStep.intern d
  have hgrows : t.Grows (t.intern d).1 :=
    ⟨ht, hstep, prefix_enter _ _ _ _, List.prefix_rfl, fun _ _ => rfl, fun _ _ => rfl⟩
  refine ⟨hgrows, ⟨hsound, hstep, fun i j hj => ?_⟩, fun t' ht' => ?_⟩
  · by_cases hi : t.Knows i
    · exact hgrows.knows_parts hi j hj
    · -- The only type that was not known before is the one that is entered.
      cases hget : (t.intern d).1.get? i with
      | none => simp [Types.parts, hget] at hj
      | some e =>
        obtain rfl := eq_of_getElem?_enter (Nat.le_of_not_lt hi) hget
        exact hgrows.knows (hparts i hget j hj)
  · rw [intern_eq_enter, ht.inStep.data.enter_again ht'.inStep.data ht'.data]
    rfl

theorem Settled.entersOnce_internUnion (ht : t.Settled) {list : ListId}
    (hlist : list.raw < t.lists.size) (hknows : ∀ j ∈ t.listAt list, t.Knows j) :
    EntersOnce (fun t => t.intern (.union list)) t := by
  have hsound := ht.sound.intern ht.inStep (fun l hl => TypeData.union.inj hl ▸ hlist) (by simp)
  refine ht.entersOnce_intern hsound fun i hi j hj => hknows j ?_
  have hsame : (t.intern (.union list)).1.listAt list = t.listAt list := rfl
  simpa only [Types.parts, hi, hsame] using hj

theorem Settled.entersOnce_array (ht : t.Settled) {element : TypeId} (he : t.Knows element) :
    EntersOnce (fun t => t.array element) t := by
  refine ht.entersOnce_intern (ht.sound.intern ht.inStep (by simp) (by simp)) fun i hi j hj => ?_
  obtain rfl : j = element := by simpa [Types.parts, hi] using hj
  exact he

/-- Enters the union with the given members. -/
def enterUnion (t : Types) (members : List TypeId) : Types × TypeId :=
  (t.internList members).1.intern (.union (t.internList members).2)

theorem InStep.listAt_internList (h : t.InStep) (members : List TypeId) :
    (t.internList members).1.listAt (t.internList members).2 = members := by
  rw [listAt, Array.getD_eq_getD_getElem?, h.getElem?_internList, Option.getD_some]

theorem Settled.entersOnce_enterUnion (ht : t.Settled) {members : List TypeId}
    (hm : 2 ≤ members.length) (hknows : ∀ m ∈ members, t.Knows m) :
    EntersOnce (fun t => t.enterUnion members) t := by
  have hlist := ht.entersOnce_internList hm
  refine hlist.bind (fun list t => t.intern (.union list)) <|
    hlist.settled.entersOnce_internUnion (ht.inStep.raw_internList_lt members) fun j hj => ?_
  rw [ht.inStep.listAt_internList] at hj
  exact hlist.grows.knows (hknows j hj)

/-- A union is one of its members, or `never`, or else it is entered; which of these it is and what it is
entered as depends on the members alone. -/
theorem union_cases (t : Types) (members : List TypeId) :
    (∃ k, (k = TypeId.never ∨ k ∈ t.flatten members) ∧
        ∀ t' : Types, t'.flatten members = t.flatten members → t'.union members = (t', k)) ∨
      2 ≤ (t.flatten members).length ∧
        ∀ t' : Types, t'.flatten members = t.flatten members →
          t'.union members = t'.enterUnion (t.flatten members) := by
  by_cases hany : TypeId.any ∈ t.flatten members
  · exact Or.inl ⟨_, Or.inr hany, fun t' h => by simp only [union, h, if_pos hany]⟩
  by_cases hunknown : TypeId.unknown ∈ t.flatten members
  · exact Or.inl ⟨_, Or.inr hunknown, fun t' h => by
      simp only [union, h, if_neg hany, if_pos hunknown]⟩
  match hflat : t.flatten members with
  | [] => exact Or.inl ⟨_, Or.inl rfl, fun t' h => by simp [union, h]⟩
  | [single] =>
    rw [hflat] at hany hunknown
    exact Or.inl ⟨single, Or.inr List.mem_cons_self, fun t' h => by
      simp only [union, h, if_neg hany, if_neg hunknown]⟩
  | first :: second :: rest =>
    rw [hflat] at hany hunknown
    exact Or.inr ⟨by simp, fun t' h => by
      simp only [union, h, if_neg hany, if_neg hunknown]
      rfl⟩

theorem Grows.flatten (h : t.Grows t') {members : List TypeId} (hm : ∀ m ∈ members, t.Knows m) :
    t'.flatten members = t.flatten members := by
  have hmembers : members.flatMap t'.members = members.flatMap t.members :=
    List.flatMap_congr fun m hmem => h.members (hm m hmem)
  simp only [Types.flatten, hmembers]

/-- The members of a union of known types are known. -/
theorem Closed.knows_of_mem_flatten (h : t.Closed) {members : List TypeId}
    (hm : ∀ m ∈ members, t.Knows m) (hj : j ∈ t.flatten members) : t.Knows j := by
  obtain ⟨-, m, hmem, hj⟩ := mem_flatten.mp hj
  exact h.knows_of_mem_members (hm m hmem) hj

theorem Settled.entersOnce_union (ht : t.Settled) {members : List TypeId}
    (hknows : ∀ m ∈ members, t.Knows m) : EntersOnce (fun t => t.union members) t := by
  rcases t.union_cases members with ⟨k, -, hk⟩ | ⟨hlength, hunion⟩
  · exact (ht.entersOnce_pure k).congr fun t' h => hk t' (h.flatten hknows)
  · refine (ht.entersOnce_enterUnion hlength fun m hm => ?_).congr fun t' h =>
      hunion t' (h.flatten hknows)
    exact ht.closed.knows_of_mem_flatten hknows hm

/-- An entered type is known. -/
theorem InStep.knows_intern (h : t.InStep) (d : TypeData) : (t.intern d).1.Knows (t.intern d).2 :=
  knows_of_get? (h.get?_intern d)

theorem Settled.knows_union (ht : t.Settled) {members : List TypeId}
    (hknows : ∀ m ∈ members, t.Knows m) : (t.union members).1.Knows (t.union members).2 := by
  rcases t.union_cases members with ⟨k, hmember, hk⟩ | ⟨-, hunion⟩
  · rw [hk t rfl]
    rcases hmember with rfl | hmember
    · show t.Knows TypeId.never
      exact ht.sound.knows_of_isReserved (by decide)
    · exact ht.closed.knows_of_mem_flatten hknows hmember
  · rw [hunion t rfl]
    exact (ht.inStep.internList _).knows_intern _

/-- Taking `undefined` out of a known type enters what is left of it once. -/
theorem Settled.entersOnce_withoutUndefined (ht : t.Settled) (hi : t.Knows i) :
    EntersOnce (fun t => t.withoutUndefined i) t ∧
      (t.withoutUndefined i).1.Knows (t.withoutUndefined i).2.1 := by
  have hmembers : ∀ m ∈ (t.members i).filter (· ≠ TypeId.undefined), t.Knows m := fun m hm =>
    ht.closed.knows_of_mem_members hi (List.mem_filter.mp hm).1
  by_cases hskip : (t.members i).length < 2 ∨ TypeId.undefined ∉ t.members i
  · have hpure : ∀ t', t.Grows t' → t'.withoutUndefined i = (t', i, false) := fun t' h => by
      simp only [withoutUndefined, h.members hi, if_pos hskip]
    refine ⟨(ht.entersOnce_pure (i, false)).congr hpure, ?_⟩
    rw [hpure t ht.grows]
    exact hi
  · have hunion : ∀ t', t.Grows t' → t'.withoutUndefined i =
        ((t'.union ((t.members i).filter (· ≠ TypeId.undefined))).1,
          (t'.union ((t.members i).filter (· ≠ TypeId.undefined))).2, true) := fun t' h => by
      simp only [withoutUndefined, h.members hi, if_neg hskip]
    constructor
    · have hone := ht.entersOnce_union hmembers
      exact (hone.bind (fun k t => (t, k, true))
        (hone.settled.entersOnce_pure (_, true))).congr hunion
    · rw [hunion t ht.grows]
      exact ht.knows_union hmembers

end Types

end Misfit
