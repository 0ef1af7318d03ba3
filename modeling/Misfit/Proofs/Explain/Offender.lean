import Misfit.Proofs.Explain.Arity
import Misfit.Proofs.Explain.Elements
import Misfit.Proofs.Explain.Recording

/-!
# The first that does not fit

The arguments of a call are walked beside its parameters, and an argument that is an array literal is walked
by its elements. Either walk passes over what fits, and ends at the first position that does not, whatever
comes after it. What is recorded there counts what remains of the walk that ended: the arguments, or the
elements of the one literal.
-/
namespace Misfit

section Lists

variable {α : Type} {P : α → Prop} {l : List α} {i : Nat} {x : α}

/-- Position and entry at which the property fails for the first time in a list. -/
structure FirstFailure (P : α → Prop) (l : List α) (i : Nat) (x : α) : Prop where
  entry : l[i]? = some x
  fails : ¬P x
  before : ∀ y ∈ l.take i, P y

theorem drop_of_getElem?_eq_some (h : l[i]? = some x) : l.drop i = x :: l.drop (i + 1) := by
  obtain ⟨hi, rfl⟩ := List.getElem?_eq_some_iff.mp h
  exact List.drop_eq_getElem_cons hi

namespace FirstFailure

theorem drop_eq (h : FirstFailure P l i x) : l.drop i = x :: l.drop (i + 1) :=
  drop_of_getElem?_eq_some h.entry

theorem cons (h : FirstFailure P l i x) {y : α} (hy : P y) : FirstFailure P (y :: l) (i + 1) x where
  entry := h.entry
  fails := h.fails
  before := List.forall_mem_cons.mpr ⟨hy, h.before⟩

/-- What comes after the failure has no part in it. -/
theorem of_take_eq (h : FirstFailure P l i x) {l' : List α} (htake : l'.take (i + 1) = l.take (i + 1)) :
    FirstFailure P l' i x where
  entry := by
    have hentry : (l'.take (i + 1))[i]? = l[i]? := by
      rw [htake, List.getElem?_take_of_lt (Nat.lt_succ_self i)]
    rwa [List.getElem?_take_of_lt (Nat.lt_succ_self i), h.entry] at hentry
  fails := h.fails
  before := by
    have hbefore : l'.take i = l.take i := by
      simpa [List.take_take] using congrArg (List.take i) htake
    exact hbefore ▸ h.before

end FirstFailure

/-- What fails somewhere fails for a first time. -/
theorem exists_firstFailure (h : ¬∀ x ∈ l, P x) : ∃ i x, FirstFailure P l i x := by
  induction l with
  | nil => simp at h
  | cons y l ih =>
    by_cases hy : P y
    · have hrest : ¬∀ x ∈ l, P x := fun hall => h (List.forall_mem_cons.mpr ⟨hy, hall⟩)
      obtain ⟨i, x, hfirst⟩ := ih hrest
      exact ⟨i + 1, x, hfirst.cons hy⟩
    · exact ⟨0, y, rfl, hy, by simp⟩

end Lists

/-- The node of an element, if it has one. -/
def Element.node? : Element → Option NodeId
  | .expr node => some node
  | .emptyShape => none

theorem untilRecorded_of_same {first next : Explaining} {r : Recorded} (h : first r = (.ok (), r)) :
    untilRecorded first next r = next r := by
  simp [untilRecorded, h]

theorem untilRecorded_of_error {first next : Explaining} {r r' : Recorded} {reason : Reason}
    (h : first r = (.error reason, r')) : untilRecorded first next r = (.error reason, r') := by
  simp [untilRecorded, h]

theorem untilRecorded_of_add {first next : Explaining} {r : Recorded} {e : Evidence}
    (h : first r = (.ok (), r.add e)) : untilRecorded first next r = (.ok (), r.add e) := by
  simp [untilRecorded, h, Recorded.add]

namespace Site

variable (s : Site)

/-! ### Elements -/

/-- The walk over elements goes on behind this one: its type is known, and it fits. -/
def ElementPasses (mode : Mode) (target : ElementTarget) (element : Element) : Prop :=
  (s.elementType element).isSome = true ∧ s.ElementFits mode target element

/-- The conflict of an element of a known type with its target, if there is one. -/
def elementConflict? (mode : Mode) (target : ElementTarget) (element : Element) : Option Conflict :=
  (s.elementSource element).bind fun found => s.conflict? mode target.element found.2.1
    (Trail.empty.push ⟨target.shown, .node found.2.2⟩)

variable {s} {mode : Mode} {target : ElementTarget} {elements : List Element}

theorem elementFits_iff {element : Element} :
    s.ElementFits mode target element ↔ s.elementConflict? mode target element = none := by
  simp [ElementFits, elementConflict?, Option.bind_eq_none_iff]

instance (element : Element) : Decidable (s.ElementPasses mode target element) :=
  decidable_of_iff ((s.elementType element).isSome = true ∧ s.elementConflict? mode target element = none)
    (and_congr_right fun _ => elementFits_iff.symm)

theorem node_of_elementSource {element : Element} {found : Option NodeId × TypeId × Description}
    (h : s.elementSource element = some found) : found.1 = element.node? := by
  cases element with
  | emptyShape =>
    rw [← Option.some.inj h]
    rfl
  | expr node =>
    obtain ⟨type, -, rfl⟩ := Option.map_eq_some_iff.mp h
    rfl

/-- The walk passes over elements that pass. By induction on the elements. -/
theorem matchElements_drop (known : Circumstances) (r : Recorded) {i : Nat}
    (h : ∀ element ∈ elements.take i, s.ElementPasses mode target element) :
    s.matchElements mode target known elements r =
      s.matchElements mode target known (elements.drop i) r := by
  induction elements generalizing i with
  | nil => simp
  | cons first rest ih =>
    cases i with
    | zero => rfl
    | succ i =>
      obtain ⟨⟨htyped, hfits⟩, hrest⟩ := List.forall_mem_cons.mp h
      rcases matchElements_cons mode target known htyped rest r with ⟨-, heq⟩ | ⟨hunfit, -⟩
      · exact heq.trans (ih hrest)
      · exact absurd hfits hunfit

/-- Nothing is recorded of elements that all fit. -/
theorem matchElements_of_forall (known : Circumstances) (r : Recorded)
    (h : ∀ element ∈ elements, s.ElementPasses mode target element) :
    s.matchElements mode target known elements r = (.ok (), r) := by
  have hall : ∀ element ∈ elements.take elements.length, s.ElementPasses mode target element := by
    rwa [List.take_length]
  rw [matchElements_drop known r hall, List.drop_length]
  rfl

/-- The walk over elements ends at the first one whose type is not known, or that does not fit. -/
theorem matchElements_of_firstFailure (known : Circumstances) (r : Recorded) {i : Nat} {element : Element}
    (h : FirstFailure (s.ElementPasses mode target) elements i element) :
    (s.elementType element = none ∧
      s.matchElements mode target known elements r = (.error .missingType, r)) ∨
    ∃ conflict, s.elementConflict? mode target element = some conflict ∧
      s.matchElements mode target known elements r = (.ok (), r.add
        { conflict, source := element.node?, target := target.node, call := known.call
          missingKey := known.missingKey, remaining := elements.length - i - 1 }) := by
  have hremaining : (elements.drop (i + 1)).length = elements.length - i - 1 := by
    rw [List.length_drop, Nat.sub_sub]
  rw [matchElements_drop known r h.before, h.drop_eq, ← hremaining]
  cases hsource : s.elementSource element with
  | none => exact Or.inl ⟨by simp [elementType, hsource], by simp only [matchElements, hsource]⟩
  | some found =>
    have htyped : (s.elementType element).isSome = true := by simp [elementType, hsource]
    have hfails : s.elementConflict? mode target element ≠ none :=
      fun hnone => h.fails ⟨htyped, elementFits_iff.mpr hnone⟩
    obtain ⟨conflict, hconflict⟩ := Option.ne_none_iff_exists'.mp hfails
    refine Or.inr ⟨conflict, hconflict, ?_⟩
    rw [elementConflict?, hsource, Option.bind_some] at hconflict
    rw [← node_of_elementSource hsource]
    simp only [matchElements, hsource, hconflict]

/-- Of what comes after the first element that does not pass, only the number is looked at. -/
theorem matchElements_eq_of_take_eq (known : Circumstances) (r : Recorded) {i : Nat} {element : Element}
    (h : FirstFailure (s.ElementPasses mode target) elements i element) {others : List Element}
    (hlength : others.length = elements.length) (htake : others.take (i + 1) = elements.take (i + 1)) :
    s.matchElements mode target known others r = s.matchElements mode target known elements r := by
  rcases matchElements_of_firstFailure known r h with ⟨htype, heq⟩ | ⟨conflict, hconflict, heq⟩ <;>
    rcases matchElements_of_firstFailure known r (h.of_take_eq htake) with
      ⟨htype', heq'⟩ | ⟨conflict', hconflict', heq'⟩
  · rw [heq, heq']
  · simp [elementConflict?, Option.map_eq_none_iff.mp htype] at hconflict'
  · simp [elementConflict?, Option.map_eq_none_iff.mp htype'] at hconflict
  · obtain rfl := Option.some.inj (hconflict.symm.trans hconflict')
    rw [heq, heq', hlength]

/-- The elements of a literal come to nothing if all of them pass. Otherwise the first one that does not
decides: if its type is not known, the walk ends with that reason, and nothing is recorded; if it is, then
its conflict is recorded and nothing else, with the number of elements behind it. What these elements are
makes no difference. -/
theorem matchElements_endsAt (s : Site) (mode : Mode) (target : ElementTarget) (known : Circumstances)
    (elements : List Element) (r : Recorded) :
    let passes := s.ElementPasses mode target
    let walk := s.matchElements mode target known
    ((∀ element ∈ elements, passes element) ∧ walk elements r = (.ok (), r)) ∨
    ∃ p element, FirstFailure passes elements p element ∧
      ((s.elementType element = none ∧ walk elements r = (.error .missingType, r)) ∨
        ∃ conflict, s.elementConflict? mode target element = some conflict ∧
          walk elements r = (.ok (), r.add
            { conflict, source := element.node?, target := target.node, call := known.call
              missingKey := known.missingKey, remaining := elements.length - p - 1 })) ∧
      ∀ others : List Element, others.length = elements.length →
        others.take (p + 1) = elements.take (p + 1) → walk others r = walk elements r := by
  intro passes walk
  by_cases hall : ∀ element ∈ elements, passes element
  · exact Or.inl ⟨hall, matchElements_of_forall known r hall⟩
  · obtain ⟨p, element, hfirst⟩ := exists_firstFailure hall
    exact Or.inr ⟨p, element, hfirst, matchElements_of_firstFailure known r hfirst,
      fun _ => matchElements_eq_of_take_eq known r hfirst⟩

/-- Behind an element that does not fit, one of unknown type is only counted. -/
example :
    let s := pairArgument [] TypeId.string TypeId.number
    let ended := s.matchElements {} (pairTarget TypeId.string) {} [.expr ⟨1⟩, .expr ⟨2⟩, .expr ⟨9⟩] {}
    s.elementType (.expr ⟨9⟩) = none ∧
      ended.2.found.map (fun (e, _) => (e.source, e.remaining)) = [(some ⟨2⟩, 1)] := by
  decide

/-! ### Arguments -/

variable (s) in
/-- What the elements of an argument are compared with: the parameter, shown with the type of its
elements. -/
def elementTarget (callee : NodeId) (parameter : Parameter) (element : TypeId) : ElementTarget where
  shown := { parameter.shown with typeText := s.types.render element, type := some element }
  node := some callee
  element := element

variable (s) in
/-- An argument compared as a whole. -/
def wholeConflict? (parameter : Parameter) (argument : Argument) : Option Conflict :=
  s.conflict? Mode.call parameter.type argument.type
    (Trail.empty.push ⟨parameter.shown, .node argument.shown⟩)

variable (s) in
/-- The walk over arguments goes on behind this one: all its elements pass, or it fits as a whole. -/
def ArgumentPasses (callee : NodeId) (parameter : Parameter) (argument : Argument) : Prop :=
  match s.elementsOf? parameter argument with
  | some (type, elements) =>
    ∀ element ∈ elements, s.ElementPasses Mode.call (s.elementTarget callee parameter type) element
  | none => s.wholeConflict? parameter argument = none

variable (s) in
/-- How the walk over arguments ends at one that does not pass, with so many arguments behind it. -/
inductive EndsAt (callee : NodeId) (o : CallOutline) (remaining : Nat) (parameter : Parameter)
    (argument : Argument) (r : Recorded) : Except Reason Unit × Recorded → Prop
  | untyped {type : TypeId} {elements : List Element} {i : Nat} {element : Element}
    (helements : s.elementsOf? parameter argument = some (type, elements))
    (hfirst : FirstFailure (s.ElementPasses Mode.call (s.elementTarget callee parameter type)) elements i
      element)
    (htype : s.elementType element = none) :
    EndsAt callee o remaining parameter argument r (.error .missingType, r)
  | element {type : TypeId} {elements : List Element} {i : Nat} {element : Element} {conflict : Conflict}
    (helements : s.elementsOf? parameter argument = some (type, elements))
    (hfirst : FirstFailure (s.ElementPasses Mode.call (s.elementTarget callee parameter type)) elements i
      element)
    (hconflict :
      s.elementConflict? Mode.call (s.elementTarget callee parameter type) element = some conflict) :
    EndsAt callee o remaining parameter argument r (.ok (), r.add
      { conflict, source := element.node?, target := some callee, call := some o
        remaining := elements.length - i - 1 })
  | whole {conflict : Conflict} (helements : s.elementsOf? parameter argument = none)
    (hconflict : s.wholeConflict? parameter argument = some conflict) :
    EndsAt callee o remaining parameter argument r (.ok (), r.add
      { conflict, source := some argument.node, target := some callee, call := some o, remaining })

instance (callee : NodeId) (parameter : Parameter) (argument : Argument) :
    Decidable (s.ArgumentPasses callee parameter argument) :=
  match h : s.elementsOf? parameter argument with
  | some (type, elements) =>
    decidable_of_iff
      (∀ element ∈ elements, s.ElementPasses Mode.call (s.elementTarget callee parameter type) element)
      (by simp only [ArgumentPasses, h])
  | none => decidable_of_iff (s.wholeConflict? parameter argument = none) (by simp only [ArgumentPasses, h])

variable {callee : NodeId} {o : CallOutline} {parameter : Parameter} {argument : Argument}
  {parameters : List Parameter} {arguments : List Argument} {r : Recorded}

theorem matchArguments_of_elements {type : TypeId}
    (h : s.elementsOf? parameter argument = some (type, elements)) :
    s.matchArguments callee o (parameter :: parameters) (argument :: arguments) =
      untilRecorded
        (s.matchElements Mode.call (s.elementTarget callee parameter type) { call := some o } elements)
        (s.matchArguments callee o parameters arguments) := by
  funext r
  rw [matchArguments, h]
  rfl

theorem matchArguments_of_whole (h : s.elementsOf? parameter argument = none) :
    s.matchArguments callee o (parameter :: parameters) (argument :: arguments) r =
      match s.wholeConflict? parameter argument with
      | none => s.matchArguments callee o parameters arguments r
      | some conflict => (.ok (), r.add
          { conflict, source := some argument.node, target := some callee, call := some o
            remaining := arguments.length }) := by
  rw [matchArguments, h]
  rfl

theorem matchArguments_cons_of_passes (h : s.ArgumentPasses callee parameter argument) :
    s.matchArguments callee o (parameter :: parameters) (argument :: arguments) r =
      s.matchArguments callee o parameters arguments r := by
  unfold ArgumentPasses at h
  split at h
  · rename_i helements
    rw [matchArguments_of_elements helements]
    exact untilRecorded_of_same (matchElements_of_forall _ r h)
  · rename_i helements
    rw [matchArguments_of_whole helements, h]

/-- An argument that does not pass ends the walk, whatever comes after it. -/
theorem endsAt_matchArguments_cons (h : ¬s.ArgumentPasses callee parameter argument) :
    s.EndsAt callee o arguments.length parameter argument r
      (s.matchArguments callee o (parameter :: parameters) (argument :: arguments) r) := by
  unfold ArgumentPasses at h
  split at h
  · rename_i helements
    obtain ⟨i, element, hfirst⟩ := exists_firstFailure h
    rw [matchArguments_of_elements helements]
    rcases matchElements_of_firstFailure { call := some o } r hfirst with
      ⟨htype, heq⟩ | ⟨conflict, hconflict, heq⟩
    · rw [untilRecorded_of_error heq]
      exact .untyped helements hfirst htype
    · rw [untilRecorded_of_add heq]
      exact .element helements hfirst hconflict
  · rename_i helements
    obtain ⟨conflict, hconflict⟩ := Option.ne_none_iff_exists'.mp h
    rw [matchArguments_of_whole helements, hconflict]
    exact .whole helements hconflict

theorem matchArguments_nil_left : s.matchArguments callee o [] arguments r = (.ok (), r) := by
  cases arguments <;> rfl

/-- The walk passes over arguments that pass. By induction on how many they are, since both lists are taken
apart. -/
theorem matchArguments_drop {i : Nat}
    (h : ∀ pair ∈ (parameters.zip arguments).take i, s.ArgumentPasses callee pair.1 pair.2) :
    s.matchArguments callee o parameters arguments r =
      s.matchArguments callee o (parameters.drop i) (arguments.drop i) r := by
  induction i generalizing parameters arguments with
  | zero => rfl
  | succ i ih =>
    cases parameters with
    | nil => rw [List.drop_nil, matchArguments_nil_left, matchArguments_nil_left]
    | cons parameter parameters =>
      cases arguments with
      | nil => cases (parameter :: parameters).drop (i + 1) <;> rfl
      | cons argument arguments =>
        obtain ⟨hfirst, hrest⟩ := List.forall_mem_cons.mp h
        exact (matchArguments_cons_of_passes hfirst).trans (ih hrest)

/-- Nothing is recorded of arguments that all fit. -/
theorem matchArguments_of_forall
    (h : ∀ pair ∈ parameters.zip arguments, s.ArgumentPasses callee pair.1 pair.2) :
    s.matchArguments callee o parameters arguments r = (.ok (), r) := by
  have htake : ∀ pair ∈ (parameters.zip arguments).take parameters.length,
      s.ArgumentPasses callee pair.1 pair.2 := fun pair hpair => h pair (List.mem_of_mem_take hpair)
  rw [matchArguments_drop htake, List.drop_length, matchArguments_nil_left]

/-- The walk over arguments ends at the first one that does not pass. -/
theorem endsAt_matchArguments {i : Nat}
    (h : FirstFailure (fun pair => s.ArgumentPasses callee pair.1 pair.2) (parameters.zip arguments) i
      (parameter, argument)) :
    s.EndsAt callee o (arguments.length - i - 1) parameter argument r
      (s.matchArguments callee o parameters arguments r) := by
  obtain ⟨hparameter, hargument⟩ := List.getElem?_zip_eq_some.mp h.entry
  have hremaining : (arguments.drop (i + 1)).length = arguments.length - i - 1 := by
    rw [List.length_drop, Nat.sub_sub]
  rw [matchArguments_drop h.before, drop_of_getElem?_eq_some hparameter,
    drop_of_getElem?_eq_some hargument, ← hremaining]
  exact endsAt_matchArguments_cons h.fails

variable (s) in
/-- The arguments of the call at the root, if the types of all of them are known. -/
def callArguments : List Argument := (s.typedArguments? (s.argumentNodes s.root)).getD []

theorem typedArguments?_of_forall
    (h : ∀ node ∈ s.argumentNodes s.root, (s.typeOf node).isSome = true) :
    s.typedArguments? (s.argumentNodes s.root) = some s.callArguments ∧
      s.callArguments.map Argument.node = s.argumentNodes s.root := by
  obtain ⟨arguments, harguments, hnodes⟩ := exists_typedArguments? h
  have heq : s.callArguments = arguments := by
    rw [callArguments, harguments, Option.getD_some]
  exact ⟨heq ▸ harguments, heq ▸ hnodes⟩

/-- A call with the right number of arguments, all of known types, is explained by the first of them that
does not fit: as a whole, or by the first of its elements that does not. Nothing is recorded if they all
fit, or if an element of unknown type comes before. -/
theorem explainCall_endsAt {shape : FunctionShape} (hsignature : s.signature? = some shape)
    (htyped : ∀ node ∈ s.argumentNodes s.root, (s.typeOf node).isSome = true)
    (hmany : (s.argumentNodes s.root).length ≤ shape.parameters.length)
    (hfew : ∀ i, (s.argumentNodes s.root).length ≤ i →
      isRequired (s.program.narrowIn shape.parameters s.program.types).2 i = false)
    (r : Recorded) :
    let callee := s.source.child s.root 0
    let narrowed := s.program.narrowIn shape.parameters s.program.types
    let site := s.withTypes narrowed.1
    let arguments := site.callArguments
    let o := site.outline arguments narrowed.2
    let passes (pair : Parameter × Argument) := site.ArgumentPasses callee pair.1 pair.2
    (arguments.map Argument.node = s.argumentNodes s.root ∧ o.Fits) ∧
    ((∀ pair ∈ narrowed.2.zip arguments, passes pair) → (s.explainCall r).2 = (.ok (), r)) ∧
    ∀ i parameter argument, FirstFailure passes (narrowed.2.zip arguments) i (parameter, argument) →
      site.EndsAt callee o (arguments.length - i - 1) parameter argument r (s.explainCall r).2 := by
  intro callee narrowed site arguments o passes
  obtain ⟨harguments, hnodes⟩ := typedArguments?_of_forall (s := site) htyped
  -- Narrowing changes the table only, so the nodes are those from before.
  replace hnodes : arguments.map Argument.node = s.argumentNodes s.root := hnodes
  have hlength : arguments.length = (s.argumentNodes s.root).length := by
    rw [← hnodes, List.length_map]
  have hright : ∀ position, ¬WrongAt arguments.length narrowed.2.length (isRequired narrowed.2) position := by
    rw [← not_exists, exists_wrongAt_iff, hlength, Program.length_narrowIn, not_or]
    exact ⟨Nat.not_lt_of_le hmany, fun ⟨i, hi, hirequired⟩ => by simp [narrowed, hfew i hi] at hirequired⟩
  have hfits : o.Fits := by
    rw [← site.offending?_outline_eq_none_iff, Option.eq_none_iff_forall_ne_some]
    exact fun position hposition => hright position (site.offending?_outline_eq_some_iff.mp hposition)
  have hcall : (s.explainCall r).2 = site.matchArguments callee o narrowed.2 arguments r := by
    rw [explainCall_of_signature? hsignature]
    rcases explainArguments_of_typedArguments? harguments narrowed.2 r with
      ⟨position, hwrong, -⟩ | ⟨-, hexplained⟩
    · exact absurd hwrong (hright position)
    · exact hexplained
  refine ⟨⟨hnodes, hfits⟩, fun hall => ?_, fun i parameter argument hfirst => ?_⟩
  · exact hcall.trans (matchArguments_of_forall hall)
  · rw [hcall]
    exact endsAt_matchArguments hfirst

/-- The signature of a function that takes an array of numbers, a string that may be left out, and an array
of booleans. -/
def mixedSignature : FunctionShape where
  parameters := [⟨"sizes", ⟨15⟩, false, none⟩, ⟨"name", ⟨17⟩, false, none⟩, ⟨"flags", ⟨16⟩, false, none⟩]
  result := .void

/-- The call `f([1], name, [true, label, 2])` of a function with that signature. -/
def mixedCall : Site :=
  let (t, numbers) := Types.initial.array TypeId.number
  let (t, booleans) := t.array TypeId.boolean
  let (t, _) := t.union [TypeId.string, TypeId.undefined]
  let (t, callee) := t.function mixedSignature
  let d : Draft := { name := "a.ts" }
  let (d, f) := d.identifier "f"
  let (d, one) := d.numericLiteral "1"
  let (d, sizes) := d.arrayLiteral [one]
  let (d, named) := d.identifier "name"
  let (d, yes) := d.booleanLiteral true
  let (d, label) := d.identifier "label"
  let (d, two) := d.numericLiteral "2"
  let (d, flags) := d.arrayLiteral [yes, label, two]
  let (d, call) := d.call f [sizes, named, flags]
  let (d, statement) := d.expressionStatement call
  let source := d.finish [statement]
  let file : FileId := ⟨0⟩
  let nodeTypes := [((file, f), callee), ((file, one), TypeId.number), ((file, sizes), numbers),
    ((file, named), TypeId.string), ((file, yes), .booleanTrue), ((file, label), TypeId.string),
    ((file, two), TypeId.number), ((file, flags), booleans)]
  { program := { types := t, files := [source], nodeTypes }, options := {}, file, source
    index := Index.build source, flagged := call, root := call }

/-- The last parameter of the call, and the argument for it. -/
def flagsPair : Parameter × Argument :=
  (⟨{ shown := "flags", typeText := "boolean[]", label := "flags: boolean[]", type := some ⟨16⟩ }, ⟨16⟩,
      false⟩,
    ⟨⟨7⟩, ⟨16⟩,
      { shown := "[true, label, 2]", typeText := "boolean[]"
        label := "[true, label, 2]: boolean[]", link := "a.ts:1", type := some ⟨16⟩ }⟩)

/-- The first argument fits by its element and the second one as a whole. The third one does not fit. -/
theorem firstFailure_mixedCall :
    let narrowed := mixedCall.program.narrowIn mixedSignature.parameters mixedCall.program.types
    let site := mixedCall.withTypes narrowed.1
    FirstFailure (fun pair => site.ArgumentPasses (mixedCall.source.child mixedCall.root 0) pair.1 pair.2)
      (narrowed.2.zip site.callArguments) 2 flagsPair :=
  ⟨by decide +kernel, by decide +kernel, by decide +kernel⟩

/-- So the walk ends at it, with no argument behind it. -/
theorem explainCall_mixedCall :
    let s := mixedCall
    let narrowed := s.program.narrowIn mixedSignature.parameters s.program.types
    let site := s.withTypes narrowed.1
    let o := site.outline site.callArguments narrowed.2
    s.signature? = some mixedSignature ∧
      (∀ node ∈ s.argumentNodes s.root, (s.typeOf node).isSome = true) ∧
      (s.argumentNodes s.root).length ≤ mixedSignature.parameters.length ∧
      (∀ i, (s.argumentNodes s.root).length ≤ i → isRequired narrowed.2 i = false) ∧
      site.EndsAt (s.source.child s.root 0) o 0 flagsPair.1 flagsPair.2 {} (s.explainCall {}).2 := by
  intro s narrowed site o
  have hsignature : s.signature? = some mixedSignature := by decide +kernel
  have htyped : ∀ node ∈ s.argumentNodes s.root, (s.typeOf node).isSome = true := by decide +kernel
  have hcount : (s.argumentNodes s.root).length = narrowed.2.length := by decide +kernel
  have hmany : (s.argumentNodes s.root).length ≤ mixedSignature.parameters.length := by decide +kernel
  have hbehind : site.callArguments.length - 2 - 1 = 0 := by decide +kernel
  have hfew : ∀ i, (s.argumentNodes s.root).length ≤ i → isRequired narrowed.2 i = false := by
    intro i hi
    rw [← Bool.not_eq_true]
    exact fun hrequired => absurd (lt_of_isRequired hrequired) (Nat.not_lt_of_le (hcount ▸ hi))
  have hends := (explainCall_endsAt hsignature htyped hmany hfew {}).2.2 2 flagsPair.1 flagsPair.2
    firstFailure_mixedCall
  rw [hbehind] at hends
  exact ⟨hsignature, htyped, hmany, hfew, hends⟩

/-- It is recorded by its second element, with one element behind that. -/
example : (mixedCall.explainCall {}).2.2.found.map (fun (e, _) => (e.source, e.remaining)) =
    [(some ⟨5⟩, 1)] := by
  decide +kernel

end Site

end Misfit
