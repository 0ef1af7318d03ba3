import Misfit.Proofs.Compare.Entering
import Misfit.Proofs.Types.Requests

/-!
# Declared types

A declared type is known by its name, not by its shape. Its shape is put at a place of the pool that no
type has yet, and is not put on record, so that nothing that is entered later comes upon it. No other type
gets to that place, so only whoever gives the declared type a shape changes the one that is there. All this
asks only that nobody makes up data of object types, which could lay claim to a place in advance.
-/
namespace Misfit

namespace Types

/-- The request does not make up an object type: it enters the data of one just as it is only if there is
such a type already. -/
def IsGenuine (t : Types) : Request → Prop
  | .intern (.object o) => .object o ∈ t.data.toList
  | _ => True

instance decidableIsGenuine (t : Types) : ∀ r, Decidable (t.IsGenuine r)
  | .intern (.object o) => inferInstanceAs (Decidable (.object o ∈ t.data.toList))
  | .perform _ => isTrue trivial
  | .intern (.intrinsic _) => isTrue trivial
  | .intern (.literal _) => isTrue trivial
  | .intern (.enumMember _ _ _) => isTrue trivial
  | .intern (.array _) => isTrue trivial
  | .intern (.union _) => isTrue trivial
  | .intern (.function _) => isTrue trivial

/-- The shape that a request asks to give to a type. -/
def Request.givenTo? (i : TypeId) : Request → Option ObjectShape
  | .perform (.defineObject j shape) => if j = i then some shape else none
  | _ => none

variable {t t' : Types} {i j : TypeId} {o : ObjectId} {r : Request} {shape : ObjectShape}
  {name : String}

/-! ### A place of its own -/

theorem Housed.serve (h : t.Housed) (hr : t.IsGenuine r) : (t.serve r).Housed := by
  cases r with
  | perform op => exact h.perform op
  | intern d =>
    refine h.intern fun o ho => h.data o ?_
    subst ho
    exact hr

theorem Housed.serveAll (h : t.Housed) {rs : List Request} (hrs : EachIs IsGenuine t rs) :
    (t.serveAll rs).Housed :=
  hrs.keeps Housed.serve h

/-- Where every object type has its shape in the pool, the next place is nobody's, so that what is declared
is new. -/
theorem Housed.declareObject_not_knows (h : t.Housed) (hs : t.InStep) (name : String) :
    ¬t.Knows (t.declareObject name).2 := by
  have hnew : .object ⟨t.objects.size⟩ ∉ t.data.toList := fun hmem => Nat.lt_irrefl _ (h.data _ hmem)
  have hnone : t.dataIds.lookup (.object ⟨t.objects.size⟩) = none :=
    Option.eq_none_iff_forall_ne_some.mpr fun i hi => by
      obtain ⟨n, -, hn⟩ := (hs.data _ i).mp hi
      exact hnew (Array.mem_of_getElem? hn).val
  have hid : (t.declareObject name).2 = ⟨t.size⟩ := by
    rw [Types.declareObject, intern_eq_enter, enter_of_lookup_eq_none hnone]
    rfl
  rw [hid]
  exact Nat.lt_irrefl _

namespace History

theorem table_afterAll (h : History) (rs : List Request) :
    (h.afterAll rs).table = h.table.serveAll rs := by
  induction rs generalizing h with
  | nil => rfl
  | cons r rs ih => exact ih (h.after r)

theorem mem_declared_afterAll {h : History} (hi : i ∈ h.declared) (rs : List Request) :
    i ∈ (h.afterAll rs).declared := by
  induction rs generalizing h with
  | nil => exact hi
  | cons r rs ih => exact ih (List.mem_append_right _ hi)

/-- What is entered is on record, and a declared type is not. -/
theorem Faithful.object_ne_declared {h : History} (hf : h.Faithful) (hi : i ∈ h.declared)
    (shape : ObjectShape) : (h.table.object shape).2 ≠ i := by
  rintro rfl
  have hget : (h.table.object shape).1.get? (h.table.object shape).2 =
      some (.object (h.table.internObject shape).2) := get?_object hf.paired.inStep shape
  have hrecord := h.table.mem_objectIds_object shape
  obtain ⟨o, ho, hne⟩ := (hf.after (.perform (.object shape))).declared _
    (List.mem_append_right _ hi)
  refine hne _ hrecord (TypeData.object.inj (Option.some.inj ?_))
  exact hget.symm.trans ho.get?

end History

/-! ### The shape at a place -/

theorem gives_of_hasShapeAt (hi : t.HasShapeAt i o) (shape : ObjectShape) :
    t.gives (.perform (.defineObject i shape)) = some (i, shape) := by
  simp only [gives, defineObject, hi.get?, if_pos hi.lt, Option.map_some]

theorem givenTo?_eq_none_of_gives (hi : t.HasShapeAt i o) (h : t.gives r = none) :
    r.givenTo? i = none := by
  unfold Request.givenTo?
  split
  · rename_i j shape
    refine if_neg ?_
    rintro rfl
    simp [gives_of_hasShapeAt hi] at h
  · rfl

theorem givenTo?_eq_of_gives (h : t.gives r = some (j, shape)) :
    r.givenTo? i = if j = i then some shape else none := by
  unfold gives at h
  split at h
  · obtain ⟨-, -, heq⟩ := Option.map_eq_some_iff.mp h
    obtain ⟨rfl, rfl⟩ := Prod.mk.inj heq
    rfl
  · simp at h

/-- The shape that a type has at its place changes only if a request gives it another one. -/
theorem objectAt_serve (hs : t.InStep) (hi : t.HasShapeAt i o) (r : Request) :
    (t.serve r).objectAt o = (r.givenTo? i).getD (t.objectAt o) := by
  have hserved := t.served r
  generalize t.serve r = t' at hserved
  cases hserved with
  | entered _ hobjects _ hgives =>
    rw [givenTo?_eq_none_of_gives hi hgives, objectAt, hobjects]
    rfl
  | recorded shape _ _ hobjects _ hgives =>
    rw [givenTo?_eq_none_of_gives hi hgives, History.objectAt_push hobjects, if_neg hi.lt.ne]
    rfl
  | declared shape _ _ hobjects _ hgives =>
    rw [givenTo?_eq_none_of_gives hi hgives, History.objectAt_push hobjects, if_neg hi.lt.ne]
    rfl
  | @given j o' shape hj hgives =>
    rw [givenTo?_eq_of_gives hgives, History.objectAt_setIfInBounds hj.lt]
    by_cases heq : o = o'
    · subst heq
      rw [if_pos rfl, if_pos (eq_of_get?_eq_some hs.nodup_data hj.get? hi.get?)]
      rfl
    · have hne : j ≠ i := by
        rintro rfl
        exact heq (TypeData.object.inj (Option.some.inj (hi.get?.symm.trans hj.get?)))
      rw [if_neg heq, if_neg hne]
      rfl

/-- The shape at a place is the one that its type was given last. By induction on the requests. -/
theorem objectAt_serveAll (hs : t.InStep) (hi : t.HasShapeAt i o) (rs : List Request) :
    (t.serveAll rs).objectAt o = (rs.filterMap (Request.givenTo? i)).getLastD (t.objectAt o) := by
  induction rs generalizing t with
  | nil => rfl
  | cons r rs ih =>
    have hrest := ih (hs.serve r) ((t.served r).hasShapeAt hi)
    rw [objectAt_serve hs hi] at hrest
    refine hrest.trans ?_
    cases hgiven : r.givenTo? i with
    | none => rw [List.filterMap_cons_none hgiven, Option.getD_none]
    | some shape => rw [List.filterMap_cons_some hgiven, List.getLastD_cons, Option.getD_some]

/-! ### Declared types -/

theorem objects_declareObject (t : Types) (name : String) :
    (t.declareObject name).1.objects = t.objects.push (ObjectShape.named name) := rfl

/-- A declared type has its shape at the place that was the next one. -/
theorem InStep.hasShapeAt_declareObject (h : t.InStep) (name : String) :
    (t.declareObject name).1.HasShapeAt (t.declareObject name).2 ⟨t.objects.size⟩ where
  get? := get?_of_enter h.data rfl
  lt := by simp [objects_declareObject]

theorem objectAt_declareObject (t : Types) (name : String) :
    (t.declareObject name).1.objectAt ⟨t.objects.size⟩ = ObjectShape.named name := by
  rw [History.objectAt_push (t.objects_declareObject name), if_pos rfl]

/-- Whatever is asked of the table after a type has been declared, the type has the shape that it was given
last. -/
theorem object?_declared (hs : t.InStep) (rs : List Request) :
    ((t.declareObject name).1.serveAll rs).object? (t.declareObject name).2 =
      some ((rs.filterMap (Request.givenTo? (t.declareObject name).2)).getLastD
        (ObjectShape.named name)) := by
  have hplace := hs.hasShapeAt_declareObject name
  have hget := (extends_serveAll _ rs).get? (knows_of_get? hplace.get?)
  rw [object?, hget, hplace.get?, ← objectAt_declareObject t name]
  exact congrArg some (objectAt_serveAll (hs.perform (.declareObject name)) hplace rs)

/-- A declared type is new, nothing that is entered or declared later is answered with it, whatever its
shape, and it has the shape that it was given last, the empty shape of its name as long as it was given
none. This holds whatever is asked of the table before and after, as long as no object type is made up. -/
theorem declared_staysOwn {rs more : List Request}
    (h : EachIs IsGenuine initial (rs ++ .perform (.declareObject name) :: more)) :
    let t := initial.serveAll rs
    let i := (t.declareObject name).2
    let t' := (t.declareObject name).1.serveAll more
    ¬t.Knows i ∧ (∀ shape, (t'.object shape).2 ≠ i) ∧ (∀ other, (t'.declareObject other).2 ≠ i) ∧
      t'.object? i =
        some ((more.filterMap (Request.givenTo? i)).getLastD (ObjectShape.named name)) := by
  intro t i t'
  obtain ⟨hrs, -, hmore⟩ := eachIs_append.mp h
  have hhoused : t.Housed := housed_initial.serveAll hrs
  have hhoused' : t'.Housed := (hhoused.declareObject name).serveAll hmore
  have hs : t.InStep := inStep_initial.serveAll rs
  have hs' : t'.InStep := (hs.perform (.declareObject name)).serveAll more
  let past := (History.start.afterAll rs).after (.perform (.declareObject name))
  have hpast : past.Faithful := (History.faithful_start.afterAll rs).after _
  have htable : past.table = (t.declareObject name).1 :=
    congrArg (serve · (.perform (.declareObject name))) (History.start.table_afterAll rs)
  refine ⟨hhoused.declareObject_not_knows hs name, fun shape => ?_, fun other heq => ?_,
    object?_declared hs more⟩
  · have hi : i ∈ past.declared := by
      refine List.mem_append_left _ ?_
      rw [History.table_afterAll]
      exact List.mem_singleton_self i
    have hne := (hpast.afterAll more).object_ne_declared (History.mem_declared_afterAll hi more) shape
    rwa [History.table_afterAll, htable] at hne
  · have hknows : t'.Knows i :=
      (extends_serveAll _ more).knows (knows_of_get? (hs.hasShapeAt_declareObject name).get?)
    exact hhoused'.declareObject_not_knows hs' other (heq ▸ hknows)

/-- Before and after a type is declared, another one of its name and its first shape are entered; then both
declared types are given shapes, and the shape that the first one was given last is entered once more. -/
def twinDeclarations : List Request × List Request :=
  ([.intern (.array ⟨40⟩), .perform (.object (ObjectShape.named "Node"))],
    [.perform (.declareObject "Node"), .perform (.object (ObjectShape.named "Node")),
      .perform (.defineObject ⟨17⟩ (single "next" ⟨17⟩)),
      .perform (.defineObject ⟨18⟩ (single "last" ⟨18⟩)), .intern (.object ⟨2⟩),
      .perform (.defineObject ⟨17⟩ (single "next" ⟨18⟩)), .perform (.object (single "next" ⟨18⟩))])

theorem declared_staysOwn_twinDeclarations :
    let rs := twinDeclarations.1
    let more := twinDeclarations.2
    let t := initial.serveAll rs
    let t' := (t.declareObject "Node").1.serveAll more
    EachIs IsGenuine initial (rs ++ .perform (.declareObject "Node") :: more) ∧
      (t.declareObject "Node").2 = ⟨17⟩ ∧ ¬t.Knows ⟨17⟩ ∧
      (t'.object (single "next" ⟨18⟩)).2 ≠ ⟨17⟩ ∧ (t'.declareObject "Node").2 ≠ ⟨17⟩ ∧
      t'.object? ⟨17⟩ = some (single "next" ⟨18⟩) := by
  intro rs more t t'
  have hgenuine : EachIs IsGenuine initial (rs ++ .perform (.declareObject "Node") :: more) := by decide
  have hid : (t.declareObject "Node").2 = ⟨17⟩ := by decide
  obtain ⟨hnew, hobject, hdeclare, hshape⟩ := declared_staysOwn hgenuine
  have hlast : (more.filterMap (Request.givenTo? ⟨17⟩)).getLastD (ObjectShape.named "Node") =
      single "next" ⟨18⟩ := by decide
  exact ⟨hgenuine, hid, hid ▸ hnew, hid ▸ hobject _, hid ▸ hdeclare _,
    hlast ▸ hid ▸ hshape⟩

end Types

end Misfit
