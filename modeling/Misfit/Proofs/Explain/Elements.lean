import Misfit.Proofs.Compare.ArrayOfUnion
import Misfit.Proofs.Explain.Growth
import Misfit.Tree.Draft

/-!
# Elements one by one and the array as a whole

An array literal is compared element by element, where a checker compares the array of the union of the
types of its elements with the array that is asked for. Both come to the same where no literal is widened
or the elements are not arrays themselves. In a call with arrays for elements they can differ, either way:
what the elements lead back to has been under comparison on one side only, and is compared again on the
other, without any literal widened.
-/
namespace Misfit

namespace Types

variable (t : Types)

/-- The array of the union of some types and the array of an element type, in a table where all of them
have been entered. -/
structure ArrayPair where
  table : Types
  united : TypeId
  source : TypeId
  target : TypeId

/-- Enters the union of some types, the array of it, and the array of an element type. -/
def enterArrays (element : TypeId) (types : List TypeId) : ArrayPair :=
  let united := t.union types
  let source := united.1.array united.2
  let target := source.1.array element
  ⟨target.1, united.2, source.2, target.2⟩

/-- The table has grown by the arrays. -/
structure EntersArrays (element : TypeId) (types : List TypeId) (a : ArrayPair) : Prop where
  grows : t.Grows a.table
  sound : a.table.Sound
  gathers : a.table.Gathers types a.united
  source_element : a.table.element? a.source = some a.united
  target_element : a.table.element? a.target = some element

/-- No two types of a list have the same text. -/
def PrintsApart (types : List TypeId) : Prop :=
  ∀ i ∈ types, ∀ j ∈ types, t.render i = t.render j → i = j

instance (types : List TypeId) : Decidable (t.PrintsApart types) :=
  inferInstanceAs (Decidable (∀ i ∈ types, ∀ j ∈ types, _))

variable {t} {t' : Types} {i element united : TypeId} {types : List TypeId} {a : ArrayPair}

theorem InStep.element?_of_array (h : t.InStep) (i : TypeId) :
    (t.array i).1.element? (t.array i).2 = some i := by
  have hget : (t.array i).1.get? (t.array i).2 = some (.array i) := h.get?_intern (.array i)
  simp [element?, hget]

theorem Grows.gathers (h : t.Grows t') (hu : t.Knows united) (hk : ∀ i ∈ types, t.Knows i)
    (hg : t.Gathers types united) : t'.Gathers types united := by
  intro m
  rw [h.members hu, hg m]
  exact exists_congr fun i => and_congr_right fun hi => by rw [h.members (hk i hi)]

theorem Built.entersArrays (hb : t.Built) (hc : t.Closed) (he : t.Knows element) (hne : types ≠ [])
    (hk : ∀ i ∈ types, t.Knows i) (hp : ∀ i ∈ types, IsProper i) :
    t.EntersArrays element types (t.enterArrays element types) := by
  have ht : t.Settled := hb.settled hc
  have hunion := ht.entersOnce_union hk
  have hsource := hunion.settled.entersOnce_array (ht.knows_union hk)
  have htarget := hsource.settled.entersOnce_array (hsource.grows.knows (hunion.grows.knows he))
  have hgrows := hsource.grows.trans htarget.grows
  exact
    { grows := hunion.grows.trans hgrows
      sound := htarget.settled.sound
      gathers := hgrows.gathers (ht.knows_union hk) (fun i hi => hunion.grows.knows (hk i hi))
        (hb.gathers_union hc hne hk hp)
      source_element := (htarget.grows.element? (hunion.settled.inStep.knows_intern _)).trans
        (hunion.settled.inStep.element?_of_array _)
      target_element := hsource.settled.inStep.element?_of_array _ }

/-- The members of the union are among those of the types. -/
theorem EntersArrays.mem_of_mem_members (h : t.EntersArrays element types a)
    (hi : i ∈ a.united :: types) {j : TypeId} (hj : j ∈ i :: a.table.members i) :
    j ∈ a.united :: (types ++ types.flatMap a.table.members) := by
  rcases List.mem_cons.mp hj with rfl | hj
  · exact List.mem_append_left (types.flatMap a.table.members) hi
  · have hmember : ∃ k ∈ types, j ∈ a.table.members k := by
      rcases List.mem_cons.mp hi with rfl | hi
      · exact (h.gathers j).mp hj
      · exact ⟨i, hi, hj⟩
    exact List.mem_cons_of_mem _ (List.mem_append_right _ (List.mem_flatMap.mpr hmember))

/-- In the table that they have been entered in, the arrays are set against each other. -/
theorem EntersArrays.arrayOfUnion (h : t.EntersArrays element types a) (he : t.Knows element)
    (hu : t.isUnion element = false) (htexts : a.table.PrintsApart
      (a.target :: a.source :: element :: a.united :: (types ++ types.flatMap a.table.members)))
    (p : Program) (mode : Mode) :
    (⟨p.withTypes a.table, mode⟩ : Comparison).ArrayOfUnion a.target a.source element a.united types where
  target_element := h.target_element
  source_element := h.source_element
  not_union := (h.grows.isUnion he).trans hu
  gathers := h.gathers
  arrays := htexts _ (by simp) _ (by simp)
  elements i hi j hj := by
    have hmem := h.mem_of_mem_members hi hj
    exact htexts _ (by simp) j
      (List.mem_cons_of_mem _ (List.mem_cons_of_mem _ (List.mem_cons_of_mem _ hmem)))

end Types

theorem Recorded.add_ne (r : Recorded) (e : Evidence) : r.add e ≠ r := by
  intro heq
  have hfound := congrArg (fun r => r.found.length) heq
  simp [Recorded.add] at hfound

namespace Site

variable (s : Site)

/-- The type of an element of a literal. -/
def elementType (element : Element) : Option TypeId := (s.elementSource element).map fun found => found.2.1

/-- Compared on its own, an element does not conflict with its target. -/
def ElementFits (mode : Mode) (target : ElementTarget) (element : Element) : Prop :=
  ∀ found ∈ s.elementSource element,
    s.conflict? mode target.element found.2.1 (Trail.empty.push ⟨target.shown, .node found.2.2⟩) = none

/-- The comparison of an element with its target meets no limit. -/
def ElementStaysWithinLimits (mode : Mode) (target : ElementTarget) (element : Element) : Prop :=
  ∀ found ∈ s.elementSource element, Comparison.StaysWithinLimits ⟨s.program, mode⟩ target.element
    found.2.1 (Trail.empty.push ⟨target.shown, .node found.2.2⟩)

instance (mode : Mode) (target : ElementTarget) (element : Element) :
    Decidable (s.ElementStaysWithinLimits mode target element) :=
  inferInstanceAs (Decidable (∀ found ∈ s.elementSource element, _))

/-- The elements of a literal have the given types, and are set against an element type that is not a
union. All types are known, those of the elements are neither `any` nor `unknown` nor `never`, and no two
types print the same. -/
structure ListsTypes (element : TypeId) (elements : List Element) (types : List TypeId) : Prop where
  built : s.types.Built
  closed : s.program.Closed
  knows : s.types.Knows element
  not_union : s.types.isUnion element = false
  ne_nil : types ≠ []
  elementTypes : elements.map s.elementType = types.map some
  isProper : ∀ i ∈ types, Types.IsProper i
  texts : let a := s.types.enterArrays element types
    a.table.PrintsApart
      (a.target :: a.source :: element :: a.united :: (types ++ types.flatMap a.table.members))

variable {s} {mode : Mode} {target : ElementTarget} {r : Recorded} {element : TypeId}
  {elements : List Element} {types : List TypeId} {trail : Trail}

/-! ### Elements one by one -/

/-- What one element comes to. -/
theorem matchElements_cons (mode : Mode) (target : ElementTarget) (known : Circumstances)
    {first : Element} (hfirst : (s.elementType first).isSome = true) (rest : List Element)
    (r : Recorded) :
    (s.ElementFits mode target first ∧ s.matchElements mode target known (first :: rest) r =
        s.matchElements mode target known rest r) ∨
      (¬s.ElementFits mode target first ∧
        ∃ e, s.matchElements mode target known (first :: rest) r = (.ok (), r.add e)) := by
  obtain ⟨found, hfound⟩ := Option.isSome_iff_exists.mp (Option.isSome_map.symm.trans hfirst)
  simp only [matchElements, ElementFits, hfound, Option.mem_some_iff, forall_eq']
  cases s.conflict? mode target.element found.2.1
      (Trail.empty.push ⟨target.shown, .node found.2.2⟩) with
  | none => exact Or.inl ⟨rfl, rfl⟩
  | some conflict => exact Or.inr ⟨by simp, _, rfl⟩

/-- Nothing is recorded of elements whose types are known exactly if each of them fits. By induction on the
elements; the first that does not fit ends the comparison. -/
theorem matchElements_eq_self_iff (mode : Mode) (target : ElementTarget) (known : Circumstances)
    (htypes : ∀ element ∈ elements, (s.elementType element).isSome = true) :
    (s.matchElements mode target known elements r).2 = r ↔
      ∀ element ∈ elements, s.ElementFits mode target element := by
  induction elements with
  | nil => simp [matchElements]
  | cons first rest ih =>
    obtain ⟨hfirst, hrest⟩ := List.forall_mem_cons.mp htypes
    rw [List.forall_mem_cons]
    rcases matchElements_cons mode target known hfirst rest r with ⟨hfits, heq⟩ | ⟨hfits, e, heq⟩
    · rw [heq, ih hrest]
      exact (and_iff_right hfits).symm
    · rw [heq]
      exact iff_of_false (r.add_ne e) fun h => hfits h.1

/-! ### The array as a whole -/

variable (s mode element types) in
/-- The comparison once the arrays have been entered. -/
def arrayComparison : Comparison :=
  (⟨s.program, mode⟩ : Comparison).withTypes (s.types.enterArrays element types).table

namespace ListsTypes

variable (h : s.ListsTypes target.element elements types)
include h

theorem elementType_mem {e : Element} (he : e ∈ elements) : ∃ i ∈ types, s.elementType e = some i := by
  have hmem : s.elementType e ∈ types.map some := h.elementTypes ▸ List.mem_map_of_mem he
  obtain ⟨i, hi, heq⟩ := List.mem_map.mp hmem
  exact ⟨i, hi, heq.symm⟩

theorem exists_element {i : TypeId} (hi : i ∈ types) : ∃ e ∈ elements, s.elementType e = some i := by
  have hmem : some i ∈ elements.map s.elementType := h.elementTypes ▸ List.mem_map_of_mem hi
  simpa using List.mem_map.mp hmem

theorem grows_self : s.Grows s.types :=
  ⟨(h.built.settled h.closed.types).grows, fun _ _ => h.closed.knows_of_typeOf⟩

theorem knows_types {i : TypeId} (hi : i ∈ types) : s.types.Knows i := by
  obtain ⟨e, -, heq⟩ := h.exists_element hi
  obtain ⟨found, hfound, rfl⟩ := Option.map_eq_some_iff.mp heq
  exact knows_of_elementSource h.grows_self hfound

theorem entersArrays :
    s.types.EntersArrays target.element types (s.types.enterArrays target.element types) :=
  h.built.entersArrays h.closed.types h.knows h.ne_nil (fun _ => h.knows_types) h.isProper

theorem arrayOfUnion (mode : Mode) :
    let a := s.types.enterArrays target.element types
    (s.arrayComparison mode target.element types).ArrayOfUnion a.target a.source target.element a.united
      types :=
  h.entersArrays.arrayOfUnion h.knows h.not_union h.texts s.program mode

/-- Elements that fit are accepted by type, in the table with the arrays as well. -/
theorem acceptsAt (hfits : ∀ e ∈ elements, s.ElementFits mode target e)
    (hl : ∀ e ∈ elements, s.ElementStaysWithinLimits mode target e) {i : TypeId} (hi : i ∈ types) :
    (s.arrayComparison mode target.element types).AcceptsAt 1 target.element i := by
  obtain ⟨e, he, heq⟩ := h.exists_element hi
  obtain ⟨found, hfound, rfl⟩ := Option.map_eq_some_iff.mp heq
  refine ⟨Trail.empty.push ⟨target.shown, .node found.2.2⟩, Trail.length_push _ _, ?_, ?_⟩
  · exact (Comparison.staysWithinLimits_withTypes (c := ⟨s.program, mode⟩) h.entersArrays.grows h.knows
      (h.knows_types hi) _).mpr (hl e he found hfound)
  · exact (Comparison.conflict?_withTypes (c := ⟨s.program, mode⟩) h.entersArrays.grows h.knows
      (h.knows_types hi) _).trans (hfits e he found hfound)

/-- Elements fit if their types are accepted one layer deep. -/
theorem elementFits (hnone : ∀ i ∈ types, ∀ trail : Trail, trail.length = 1 →
      (s.arrayComparison mode target.element types).conflict? target.element i trail = none) :
    ∀ e ∈ elements, s.ElementFits mode target e := by
  intro e he found hfound
  obtain ⟨i, hi, heq⟩ := h.elementType_mem he
  obtain rfl : found.2.1 = i := by
    have hfound' : s.elementSource e = some found := hfound
    simpa [elementType, hfound'] using heq
  have hsame := Comparison.conflict?_withTypes (c := ⟨s.program, mode⟩) h.entersArrays.grows h.knows
    (h.knows_types hi) (Trail.empty.push ⟨target.shown, .node found.2.2⟩)
  exact hsame.symm.trans (hnone found.2.1 hi _ (Trail.length_push _ _))

end ListsTypes

/-- A call of a function with a literal of two elements of the given types. -/
def pairArgument (ops : List Types.Operation) (first second : TypeId) : Site :=
  let d : Draft := { name := "a.ts" }
  let (d, callee) := d.identifier "f"
  let (d, one) := d.identifier "a"
  let (d, two) := d.identifier "b"
  let (d, literal) := d.arrayLiteral [one, two]
  let (d, root) := d.call callee [literal]
  let (d, statement) := d.expressionStatement root
  let source := d.finish [statement]
  let nodeTypes := [((⟨0⟩, one), first), ((⟨0⟩, two), second)]
  { program := { types := Types.initial.performAll ops, files := [source], nodeTypes }, options := {}
    file := ⟨0⟩, source, index := Index.build source, flagged := root, root }

/-- The elements of the literal. -/
def pairElements : List Element := [.expr ⟨1⟩, .expr ⟨2⟩]

/-- What the elements are compared with. -/
def pairTarget (element : TypeId) : ElementTarget := { shown := {}, node := none, element }

/-- Arrays of a string and an object type that leads back to them, and arrays of a literal and of such an
object type, with the union of both to lead back to. -/
def returningElements : List Types.Operation :=
  [.declareObject "First", .declareObject "Second", .literal (.string "a"),
    .union [TypeId.string, ⟨15⟩], .array ⟨18⟩, .array ⟨17⟩, .array ⟨16⟩, .union [⟨20⟩, ⟨21⟩],
    .array TypeId.string,
    .defineObject ⟨15⟩ { name := some "First", properties := [{ name := "next", type := ⟨19⟩ }] },
    .defineObject ⟨16⟩ { name := some "Second", properties := [{ name := "next", type := ⟨22⟩ }] }]

/-- All but the way the table was built can be checked. -/
theorem listsTypes_iff (hb : s.types.Built) :
    s.ListsTypes element elements types ↔ s.program.Closed ∧ s.types.Knows element ∧
      s.types.isUnion element = false ∧ types ≠ [] ∧ elements.map s.elementType = types.map some ∧
      (∀ i ∈ types, Types.IsProper i) ∧ (s.types.enterArrays element types).table.PrintsApart
        ((s.types.enterArrays element types).target :: (s.types.enterArrays element types).source ::
          element :: (s.types.enterArrays element types).united ::
            (types ++ types.flatMap (s.types.enterArrays element types).table.members)) :=
  ⟨fun h => ⟨h.closed, h.knows, h.not_union, h.ne_nil, h.elementTypes, h.isProper, h.texts⟩,
    fun ⟨hclosed, hknows, hu, hne, htypes, hproper, htexts⟩ =>
      ⟨hb, hclosed, hknows, hu, hne, htypes, hproper, htexts⟩⟩

variable (s) in
/-- One by one the elements come to something else than the array as a whole, though no two types print the
same and no limit has a part in it. -/
structure MatchesUnevenly (mode : Mode) (target : ElementTarget) (elements : List Element)
    (types : List TypeId) : Prop where
  lists : s.ListsTypes target.element elements types
  texts : let a := s.types.enterArrays target.element types
    ((List.range a.table.size).map fun i => a.table.render ⟨i⟩).Nodup
  array_withinLimits : let a := s.types.enterArrays target.element types
    (s.arrayComparison mode target.element types).StaysWithinLimits a.target a.source Comparison.oneLayer
  elements_withinLimits : ∀ e ∈ elements, s.ElementStaysWithinLimits mode target e
  uneven : let a := s.types.enterArrays target.element types
    ¬((s.matchElements mode target {} elements {}).2 = {} ↔
      (s.arrayComparison mode target.element types).conflict? a.target a.source Comparison.oneLayer = none)

theorem built_pairArgument (ops : List Types.Operation) (first second : TypeId) :
    (pairArgument ops first second).types.Built := Types.Built.initial.performAll ops

/-- In a call an array can fit though one of its elements does not: what that element leads back to is taken
for granted there. And it can fail though they all do. -/
theorem elements_matchUnevenly :
    (pairArgument returningElements ⟨20⟩ ⟨21⟩).MatchesUnevenly Mode.call (pairTarget ⟨19⟩) pairElements
        [⟨20⟩, ⟨21⟩] ∧
      (pairArgument returningElements ⟨22⟩ ⟨23⟩).MatchesUnevenly Mode.call (pairTarget ⟨19⟩) pairElements
        [⟨22⟩, ⟨23⟩] := by
  have hbuilt := built_pairArgument returningElements
  constructor
  · exact ⟨(listsTypes_iff (hbuilt _ _)).mpr (by decide), by decide, by decide, by decide, by decide⟩
  · exact ⟨(listsTypes_iff (hbuilt _ _)).mpr (by decide), by decide, by decide, by decide, by decide⟩

/-- Matching the elements of a literal one by one records nothing exactly if the array of all their types
is accepted as a whole, if no literal is widened or the elements are not arrays. Otherwise the array is
accepted if the elements are and those types that are unions stand alone, and the elements are accepted if
the array is and the union of the types stands alone. -/
theorem matchElements_iff_array (h : s.ListsTypes target.element elements types) (mode : Mode)
    (known : Circumstances) (r : Recorded) (htrail : trail.length = 1) :
    let a := s.types.enterArrays target.element types
    let c := s.arrayComparison mode target.element types
    let recordsNothing := (s.matchElements mode target known elements r).2 = r
    let accepts := c.conflict? a.target a.source trail = none
    c.StaysWithinLimits a.target a.source trail →
    (recordsNothing → ∀ e ∈ elements, s.ElementStaysWithinLimits mode target e) →
    (mode.callArgument = false ∨ s.types.isArray target.element = false → (recordsNothing ↔ accepts)) ∧
      ((∀ i ∈ types, i = a.united ∨ s.types.isUnion i = false ∨ c.StandsAlone target.element i) →
        recordsNothing → accepts) ∧
      ((∀ i ∈ types, i = a.united) ∨ c.StandsAlone target.element a.united →
        accepts → recordsNothing) := by
  intro a c recordsNothing accepts hl hlimits
  have harray := h.arrayOfUnion mode
  have hs : c.program.types.Sound := h.entersArrays.sound
  have hfits : recordsNothing ↔ ∀ e ∈ elements, s.ElementFits mode target e := by
    refine matchElements_eq_self_iff mode target known fun e he => ?_
    obtain ⟨i, -, heq⟩ := h.elementType_mem he
    simp [heq]
  have hlength : trail.length ≠ 0 := by omega
  have haccepts : recordsNothing → ∀ i ∈ types, c.AcceptsAt trail.length target.element i :=
    fun hr i hi => htrail ▸ h.acceptsAt (hfits.mp hr) (hlimits hr) hi
  have hwhole : (∀ i ∈ types, i = a.united ∨ s.types.isUnion i = false ∨
      c.StandsAlone target.element i) → recordsNothing → accepts := by
    intro halone hr
    refine harray.conflict?_eq_none hs hlength (fun i hi => ?_) (haccepts hr)
    refine (halone i hi).imp_right (Or.imp_left fun hu => ?_)
    exact (h.entersArrays.grows.isUnion (h.knows_types hi)).trans hu
  have helements : (∀ i ∈ types, i = a.united) ∨ c.StandsAlone target.element a.united →
      accepts → recordsNothing := by
    intro halone hnone
    refine hfits.mpr (h.elementFits fun i hi trail' htrail' => ?_)
    exact harray.conflict?_element_eq_none hs hl hnone hi (halone.imp_left fun hall => hall i hi)
      (htrail'.trans htrail.symm)
  refine ⟨fun hcall => ?_, hwhole, helements⟩
  have hcall' : c.mode.callArgument = false ∨ c.program.types.isArray target.element = false :=
    hcall.imp_right (h.entersArrays.grows.isArray h.knows).trans
  refine ⟨fun hr => hwhole (fun i hi => ?_) hr, fun hnone => helements ?_ hnone⟩
  · exact Or.inr (Or.inr ((haccepts hr i hi).standsAlone harray.not_union hcall' hlength))
  · exact Or.inr (harray.standsAlone hs hlength hcall' hl hnone)

/-- Elsewhere than in a call the array of both arrays fails as its elements do. In a call a literal beside a
string fits arrays of strings. So does, one level deeper, an array of a literal, alone or beside an array of
strings, because no union is among the types or it is the union of all of them. -/
theorem matchElements_returningElements :
    let s := pairArgument returningElements
    let accepts (mode : Mode) (element first second : TypeId) : Prop :=
      let a := (s first second).types.enterArrays element [first, second]
      ((s first second).arrayComparison mode element [first, second]).conflict? a.target a.source
        Comparison.oneLayer = none
    let recordsNothing (mode : Mode) (element first second : TypeId) : Prop :=
      ((s first second).matchElements mode (pairTarget element) {} pairElements {}).2 = {}
    ¬accepts {} ⟨19⟩ ⟨20⟩ ⟨21⟩ ∧ accepts Mode.call TypeId.string ⟨17⟩ TypeId.string ∧
      accepts Mode.call ⟨23⟩ ⟨20⟩ ⟨23⟩ ∧ recordsNothing Mode.call ⟨23⟩ ⟨20⟩ ⟨20⟩ := by
  intro s accepts recordsNothing
  have hbuilt := built_pairArgument returningElements
  have hreturning : (s ⟨20⟩ ⟨21⟩).ListsTypes (pairTarget ⟨19⟩).element pairElements [⟨20⟩, ⟨21⟩] :=
    (listsTypes_iff (hbuilt _ _)).mpr (by decide)
  have hliteral : (s ⟨17⟩ TypeId.string).ListsTypes (pairTarget TypeId.string).element pairElements
      [⟨17⟩, TypeId.string] := (listsTypes_iff (hbuilt _ _)).mpr (by decide)
  have harrays : (s ⟨20⟩ ⟨23⟩).ListsTypes (pairTarget ⟨23⟩).element pairElements [⟨20⟩, ⟨23⟩] :=
    (listsTypes_iff (hbuilt _ _)).mpr (by decide)
  have htwice : (s ⟨20⟩ ⟨20⟩).ListsTypes (pairTarget ⟨23⟩).element pairElements [⟨20⟩, ⟨20⟩] :=
    (listsTypes_iff (hbuilt _ _)).mpr (by decide)
  have hlength : Comparison.oneLayer.length = 1 := by decide
  refine ⟨fun haccepts => ?_, ?_, ?_, ?_⟩
  · have h := matchElements_iff_array hreturning {} {} {} hlength (by decide) (by decide)
    exact absurd ((h.1 (Or.inl rfl)).mpr haccepts) (by decide)
  · have h := matchElements_iff_array hliteral Mode.call {} {} hlength (by decide) (by decide)
    exact (h.1 (Or.inr (by decide))).mp (by decide)
  · have h := matchElements_iff_array harrays Mode.call {} {} hlength (by decide) (by decide)
    have hunions : ∀ i ∈ ([⟨20⟩, ⟨23⟩] : List TypeId), (s ⟨20⟩ ⟨23⟩).types.isUnion i = false := by decide
    exact h.2.1 (fun i hi => Or.inr (Or.inl (hunions i hi))) (by decide)
  · have h := matchElements_iff_array htwice Mode.call {} {} hlength (by decide) (by decide)
    exact h.2.2 (Or.inl (by decide)) (by decide)

end Site

end Misfit
