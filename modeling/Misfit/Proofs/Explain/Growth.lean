import Misfit.Explain.Root
import Misfit.Proofs.Compare.Growth
import Mathlib.Data.List.Find

/-!
# Explaining a site again

A site reads the types of its nodes off the program, and gets from them to the types inside them. So it
only ever looks at types that were known when the program was checked, and it is explained in the same
way once the table has grown. The parameters of a call are the exception: narrowing them may enter unions.
These are found again by whoever narrows the same parameters later.
-/
namespace Misfit

/-- The parts of every type and the types of all nodes are known. -/
structure Program.Closed (p : Program) : Prop where
  types : p.types.Closed
  nodes : ∀ entry ∈ p.nodeTypes, p.types.Knows entry.2

instance (p : Program) : Decidable p.Closed :=
  decidable_of_iff (p.types.Closed ∧ ∀ entry ∈ p.nodeTypes, p.types.Knows entry.2)
    ⟨fun h => ⟨h.1, h.2⟩, fun h => ⟨h.types, h.nodes⟩⟩

theorem Program.Closed.knows_of_typeOf {p : Program} (h : p.Closed) {file : FileId} {node : NodeId}
    {i : TypeId} (hi : p.typeOf file node = some i) : p.types.Knows i := by
  obtain ⟨before, after, hentries, -⟩ := List.lookup_eq_some_iff.mp hi
  exact h.nodes ((file, node), i) (by simp [hentries])

namespace Site

/-- The site in a program with another table of types. -/
def withTypes (s : Site) (types : Types) : Site := { s with program := s.program.withTypes types }

/-- The table has grown since the types of the nodes were recorded. -/
structure Grows (s : Site) (t' : Types) : Prop where
  types : s.program.types.Grows t'
  nodes : ∀ node i, s.typeOf node = some i → s.program.types.Knows i

variable {s : Site} {t' : Types} {i j : TypeId} {r : Recorded}

@[simp] theorem types_withTypes (s : Site) (types : Types) : (s.withTypes types).types = types := rfl

@[simp] theorem typeOf_withTypes (s : Site) (types : Types) :
    (s.withTypes types).typeOf = s.typeOf := rfl

@[simp] theorem source_withTypes (s : Site) (types : Types) :
    (s.withTypes types).source = s.source := rfl

@[simp] theorem index_withTypes (s : Site) (types : Types) : (s.withTypes types).index = s.index := rfl

@[simp] theorem root_withTypes (s : Site) (types : Types) : (s.withTypes types).root = s.root := rfl

@[simp] theorem returnMode_withTypes (s : Site) (types : Types) :
    (s.withTypes types).returnMode = s.returnMode := rfl

theorem Grows.closed (h : s.Grows t') : s.program.types.Closed := h.types.settled.closed

theorem describe_withTypes (h : s.Grows t') (hi : s.program.types.Knows i) (node : NodeId) :
    (s.withTypes t').describe node i = s.describe node i :=
  Program.describeNode_withTypes h.types hi s.source node

theorem conflict?_withTypes (h : s.Grows t') (mode : Mode) (hi : s.program.types.Knows i)
    (hj : s.program.types.Knows j) (trail : Trail) :
    (s.withTypes t').conflict? mode i j trail = s.conflict? mode i j trail :=
  Comparison.conflict?_withTypes (c := ⟨s.program, mode⟩) h.types hi hj trail

theorem compareValue_withTypes (h : s.Grows t') (mode : Mode) (targetNode : NodeId)
    (shown : Description) (hi : s.program.types.Knows i) (sourceNode : NodeId)
    (hj : s.program.types.Knows j) :
    (s.withTypes t').compareValue mode targetNode shown i sourceNode j r =
      s.compareValue mode targetNode shown i sourceNode j r := by
  simp only [compareValue, describe_withTypes h hj, conflict?_withTypes h mode hi hj]

/-! ### Elements -/

theorem elementSource_withTypes (h : s.Grows t') (element : Element) :
    (s.withTypes t').elementSource element = s.elementSource element := by
  cases element with
  | emptyShape => rfl
  | expr node =>
    refine Option.map_congr fun type htype => ?_
    rw [describe_withTypes h (h.nodes node type htype)]

theorem knows_of_elementSource (h : s.Grows t') {element : Element} {node : Option NodeId}
    {shown : Description} (he : s.elementSource element = some (node, i, shown)) :
    s.program.types.Knows i := by
  cases element with
  | emptyShape =>
    obtain ⟨-, rfl, -⟩ : none = node ∧ TypeId.emptyObject = i ∧ emptyShapeDescription = shown := by
      simpa [elementSource] using he
    exact h.types.settled.sound.knows_of_isReserved (by decide)
  | expr node' =>
    obtain ⟨i', hnode, heq⟩ := Option.map_eq_some_iff.mp he
    obtain ⟨-, rfl, -⟩ : some node' = node ∧ i' = i ∧ s.describe node' i' = shown := by
      simpa using heq
    exact h.nodes node' i' hnode

theorem matchElements_withTypes (h : s.Grows t') (mode : Mode) {target : ElementTarget}
    (ht : s.program.types.Knows target.element) (known : Circumstances) (elements : List Element) :
    (s.withTypes t').matchElements mode target known elements r =
      s.matchElements mode target known elements r := by
  induction elements generalizing r with
  | nil => rfl
  | cons element rest ih =>
    simp only [matchElements, elementSource_withTypes h]
    split
    · rfl
    · rename_i node type shown hsource
      rw [conflict?_withTypes h mode ht (knows_of_elementSource h hsource)]
      split
      · exact ih
      · rfl

theorem elementsFor_withTypes (h : s.Grows t') (hi : s.program.types.Knows i) (site : NodeId) :
    (s.withTypes t').elementsFor i site = s.elementsFor i site := by
  have helement : t'.element? i = s.types.element? i := h.types.element? hi
  simp only [elementsFor, types_withTypes, index_withTypes, helement]

theorem knows_of_elementsFor (h : s.Grows t') {site : NodeId} {elements : List Element}
    (he : s.elementsFor i site = some (j, elements)) : s.program.types.Knows j := by
  unfold elementsFor at he
  split at he
  · rename_i element found helement _
    obtain ⟨rfl, -⟩ : element = j ∧ found = elements := by simpa using he
    exact h.closed.knows_of_element? helement
  · simp at he

/-! ### Returned values -/

theorem declaredResult_withTypes (h : s.Grows t') (function : NodeId) :
    (s.withTypes t').declaredResult function = s.declaredResult function := by
  simp only [declaredResult, typeOf_withTypes, types_withTypes]
  cases hnode : s.typeOf function with
  | none => rfl
  | some i =>
    have hfunction : t'.function? i = s.types.function? i := h.types.function? (h.nodes function i hnode)
    simp only [Option.bind_some, hfunction]

theorem knows_of_function? (h : s.Grows t') {shape : FunctionShape}
    (hi : s.types.function? i = some shape) : s.program.types.Knows shape.result :=
  h.closed.knows_of_function? hi shape.result (by simp [FunctionShape.parts])

theorem knows_of_declaredResult (h : s.Grows t') {function : NodeId}
    (hi : s.declaredResult function = some i) : s.program.types.Knows i := by
  obtain ⟨shape, hshape, rfl⟩ := Option.map_eq_some_iff.mp hi
  obtain ⟨k, -, hk⟩ := Option.bind_eq_some_iff.mp hshape
  exact knows_of_function? h hk

theorem describeResult_withTypes (h : s.Grows t') (hi : s.program.types.Knows i) (function : NodeId) :
    (s.withTypes t').describeResult function i = s.describeResult function i := by
  have hrender : t'.render i = s.types.render i := h.types.render hi
  simp only [describeResult, types_withTypes, source_withTypes, hrender]

theorem explainReturn_withTypes (h : s.Grows t') :
    (s.withTypes t').explainReturn r = s.explainReturn r := by
  simp only [explainReturn, index_withTypes, source_withTypes, root_withTypes, returnMode_withTypes,
    typeOf_withTypes, declaredResult_withTypes h]
  split
  · rfl
  split
  · rfl
  rename_i result hresult
  have hknows := knows_of_declaredResult h hresult
  rw [elementsFor_withTypes h hknows]
  by_cases hempty : s.source.child s.root 0 = NodeId.none
  · simp only [hempty, if_true]
  simp only [hempty, if_false]
  split
  · rename_i element elements helements
    have helement := knows_of_elementsFor h helements
    rw [describeResult_withTypes h helement, matchElements_withTypes h _ helement]
  · split
    · rfl
    · rename_i type htype
      rw [describeResult_withTypes h hknows,
        compareValue_withTypes h _ _ _ hknows _ (h.nodes _ _ htype)]

theorem callResult_withTypes (h : s.Grows t') (call : NodeId) :
    (s.withTypes t').callResult call = s.callResult call := by
  simp only [callResult, source_withTypes, typeOf_withTypes, declaredResult_withTypes h]

theorem knows_of_callResult (h : s.Grows t') {call : NodeId} (hi : s.callResult call = some i) :
    s.program.types.Knows i := by
  rcases Option.or_eq_some_iff.mp hi with hdeclared | ⟨-, htype⟩
  · exact knows_of_declaredResult h hdeclared
  · exact h.nodes call i htype

theorem matchReturns_withTypes (h : s.Grows t') (target : NodeId) (hi : s.program.types.Knows i)
    (statements : List NodeId) :
    (s.withTypes t').matchReturns target i statements r = s.matchReturns target i statements r := by
  induction statements generalizing r with
  | nil => rfl
  | cons statement rest ih =>
    have ih' : (s.withTypes t').matchReturns target i rest = s.matchReturns target i rest :=
      funext fun _ => ih
    simp only [matchReturns, source_withTypes, typeOf_withTypes, returnMode_withTypes,
      elementsFor_withTypes h hi, ih']
    by_cases hempty : s.source.child statement 0 = NodeId.none
    · simp only [if_pos hempty]
    simp only [if_neg hempty]
    split
    · rename_i element elements helements
      have helement := knows_of_elementsFor h helements
      have helements' : (s.withTypes t').matchElements s.returnMode
            ⟨s.describe target element, some target, element⟩ {} elements =
          s.matchElements s.returnMode ⟨s.describe target element, some target, element⟩ {} elements :=
        funext fun _ => matchElements_withTypes h _ helement _ _
      rw [describe_withTypes h helement, helements']
    · split
      · rfl
      · rename_i type htype
        rw [describe_withTypes h hi, compareValue_withTypes h _ _ _ hi _ (h.nodes _ _ htype)]

theorem matchBody_withTypes (h : s.Grows t') (target : NodeId) (hi : s.program.types.Knows i)
    (function : NodeId) :
    (s.withTypes t').matchBody target i function r = s.matchBody target i function r := by
  simp only [matchBody, source_withTypes, typeOf_withTypes, returnMode_withTypes,
    callResult_withTypes h]
  split
  · rfl
  · rfl
  · rename_i type htype
    have hknows : s.program.types.Knows type := by
      split at htype
      · simp at htype
      · simp at htype
      · exact knows_of_callResult h (Option.some.inj htype)
      · exact h.nodes _ _ (Option.some.inj htype)
    rw [describe_withTypes h hi, compareValue_withTypes h _ _ _ hi _ hknows]

theorem explainFunction_withTypes (h : s.Grows t') (target : NodeId) (hi : s.program.types.Knows i)
    (function : NodeId) :
    (s.withTypes t').explainFunction target i function r = s.explainFunction target i function r := by
  simp only [explainFunction, index_withTypes]
  cases s.index.returnsOf function with
  | nil => exact matchBody_withTypes h target hi function
  | cons first rest => exact matchReturns_withTypes h target hi (first :: rest)

/-! ### Dotted accesses -/

/-- The types along an access are known. -/
theorem knows_declaringMember (h : s.Grows t') (hi : s.program.types.Knows i) (key : String) :
    s.program.types.Knows (s.program.types.declaringMember i key) := by
  unfold Types.declaringMember
  dsimp only
  split
  · exact hi
  · cases hfind : (s.program.types.members i).find? fun m =>
      (s.program.types.property? m key).isSome with
    | none => exact hi
    | some m => exact h.closed.knows_of_mem_members hi (List.mem_of_find?_eq_some hfind)

theorem declaringMember_withTypes (h : s.Grows t') (hi : s.program.types.Knows i) (key : String) :
    t'.declaringMember i key = s.program.types.declaringMember i key := by
  have hfind : (s.program.types.members i).find? (fun m => (t'.property? m key).isSome) =
      (s.program.types.members i).find? fun m => (s.program.types.property? m key).isSome := by
    refine List.find?_congr fun m hm => ?_
    rw [h.types.property? (h.closed.knows_of_mem_members hi hm)]
  simp only [Types.declaringMember, h.types.members hi, hfind]

theorem resolve_withTypes (h : s.Grows t') {before : Option Segment}
    (hb : ∀ b ∈ before, s.program.types.Knows b.type) (node : NodeId) :
    (s.withTypes t').resolve before node = s.resolve before node := by
  cases before with
  | none => rfl
  | some b =>
    have hproperty : t'.property? b.type b.key = s.types.property? b.type b.key :=
      h.types.property? (hb b rfl) b.key
    simp only [resolve, typeOf_withTypes, types_withTypes, Option.bind_some, hproperty]

theorem knows_of_resolve (h : s.Grows t') {before : Option Segment} {node : NodeId}
    (hi : s.resolve before node = some i) : s.program.types.Knows i := by
  rcases Option.or_eq_some_iff.mp hi with htype | ⟨-, hproperty⟩
  · exact h.nodes node i htype
  · obtain ⟨b, -, hmember⟩ := Option.bind_eq_some_iff.mp hproperty
    obtain ⟨m, hm, rfl⟩ := Option.map_eq_some_iff.mp hmember
    exact h.closed.knows_of_property? hm

/-- The segments are the same, and their types are known. -/
theorem segments_withTypes (h : s.Grows t') {before : Option Segment}
    (hb : ∀ b ∈ before, s.program.types.Knows b.type) (hops : List (NodeId × String)) :
    (s.withTypes t').segments before hops = s.segments before hops ∧
      ∀ segment ∈ s.segments before hops, s.program.types.Knows segment.type := by
  induction hops generalizing before with
  | nil => simp [segments]
  | cons hop rest ih =>
    obtain ⟨node, key⟩ := hop
    simp only [segments, resolve_withTypes h hb]
    cases hnode : s.resolve before node with
    | none => simp
    | some type =>
      have htype := knows_of_resolve h hnode
      have hsegment := knows_declaringMember h htype key
      simp only [types_withTypes, declaringMember_withTypes h htype]
      have hnext : ∀ b ∈ some (⟨node, s.types.declaringMember type key, key⟩ : Segment),
          s.program.types.Knows b.type := fun b hb => Option.some.inj hb ▸ hsegment
      obtain ⟨hsame, hknows⟩ := ih hnext
      exact ⟨congrArg _ hsame, List.forall_mem_cons.mpr ⟨hsegment, hknows⟩⟩

theorem accessPath_withTypes (h : s.Grows t') (access : NodeId) :
    (s.withTypes t').accessPath access = s.accessPath access :=
  (segments_withTypes h (by simp) _).1

theorem knows_of_mem_accessPath (h : s.Grows t') {access : NodeId} {segment : Segment}
    (hs : segment ∈ s.accessPath access) : s.program.types.Knows segment.type :=
  (segments_withTypes h (by simp) _).2 segment hs

theorem breadcrumbs_withTypes (h : s.Grows t') {path : List Segment}
    (hp : ∀ segment ∈ path, s.program.types.Knows segment.type) :
    (s.withTypes t').breadcrumbs path = s.breadcrumbs path := by
  have hlayers : path.map (s.withTypes t').breadcrumb = path.map s.breadcrumb :=
    List.map_congr_left fun segment hsegment => by
      simp only [breadcrumb, describe_withTypes h (hp segment hsegment)]
  simp only [breadcrumbs, hlayers]

theorem placeholderConflict_withTypes (h : s.Grows t') (hi : s.program.types.Knows i) (base : Trail)
    (node : NodeId) (placeholder : Description) (key : String) :
    (s.withTypes t').placeholderConflict base node i placeholder key =
      s.placeholderConflict base node i placeholder key := by
  have hproperties : t'.properties i = s.types.properties i := h.types.properties hi
  have hshown : (s.withTypes t').program.describeType i = s.program.describeType i :=
    Program.describeType_withTypes h.types hi
  simp only [placeholderConflict, types_withTypes, hproperties, hshown, describe_withTypes h hi]

/-! ### Keys that an object does not have -/

theorem acceptsKey_withTypes (h : s.Grows t') (hi : s.program.types.Knows i)
    (hj : s.program.types.Knows j) : t'.acceptsKey i j = s.types.acceptsKey i j := by
  simp only [Types.acceptsKey, h.types.render hi, h.types.renderWidened hj, h.types.isOneOf hj]
  rfl

theorem writtenValue?_withTypes (access : NodeId) :
    (s.withTypes t').writtenValue? access = s.writtenValue? access := rfl

theorem explainWrite_withTypes (h : s.Grows t') :
    (s.withTypes t').explainWrite r = s.explainWrite r := by
  simp only [explainWrite, root_withTypes, source_withTypes, typeOf_withTypes, types_withTypes,
    writtenValue?_withTypes, accessPath_withTypes h]
  split
  · rfl
  split
  · rfl
  rename_i type htype
  split
  · rfl
  rename_i object hobject
  have hpath : ∀ segment ∈ (s.accessPath s.root).dropLast, s.program.types.Knows segment.type :=
    fun segment hsegment => knows_of_mem_accessPath h (List.dropLast_subset _ hsegment)
  have hknows := knows_of_mem_accessPath h (List.mem_of_getLast? hobject)
  have hindexes : t'.indexes object.type = s.types.indexes object.type := h.types.indexes hknows
  have hwidened : t'.renderWidened type = s.types.renderWidened type :=
    h.types.renderWidened (h.nodes _ _ htype)
  simp only [breadcrumbs_withTypes h hpath, placeholderConflict_withTypes h hknows, hindexes, hwidened]

theorem rejectedKey?_withTypes (h : s.Grows t') (access : NodeId) :
    (s.withTypes t').rejectedKey? access = s.rejectedKey? access := by
  simp only [rejectedKey?, source_withTypes, typeOf_withTypes, types_withTypes]
  split
  · rename_i objectType keyType hobject hkey
    have hobject' := h.nodes _ _ hobject
    have hkey' := h.nodes _ _ hkey
    have hindexes : t'.indexes objectType = s.types.indexes objectType := h.types.indexes hobject'
    have haccepts : ((s.types.indexes objectType).any fun signature =>
          t'.acceptsKey signature.key keyType) =
        (s.types.indexes objectType).any fun signature => s.types.acceptsKey signature.key keyType := by
      rw [Bool.eq_iff_iff, List.any_eq_true, List.any_eq_true]
      refine exists_congr fun signature => and_congr_right fun hsignature => ?_
      rw [acceptsKey_withTypes h (h.closed.knows_of_mem_indexes hsignature) hkey']
    have hwidened : t'.renderWidened keyType = s.types.renderWidened keyType :=
      h.types.renderWidened hkey'
    simp only [hindexes, haccepts, hwidened, placeholderConflict_withTypes h hobject']
  · rfl

/-! ### Assignments -/

theorem trailTo_withTypes (h : s.Grows t') (target : NodeId) :
    (s.withTypes t').trailTo target = s.trailTo target := by
  simp only [trailTo, source_withTypes, accessPath_withTypes h,
    breadcrumbs_withTypes h fun _ => knows_of_mem_accessPath h]

theorem compareAssigned_withTypes (h : s.Grows t') (target : NodeId) (hi : s.program.types.Knows i)
    (value : NodeId) :
    (s.withTypes t').compareAssigned target i value r = s.compareAssigned target i value r := by
  simp only [compareAssigned, typeOf_withTypes, trailTo_withTypes h, describe_withTypes h hi]
  split
  · rfl
  · rename_i type htype
    have hknows := h.nodes _ _ htype
    simp only [describe_withTypes h hknows, conflict?_withTypes h _ hi hknows]

theorem resultFor?_withTypes (h : s.Grows t') (hi : s.program.types.Knows i) (value : NodeId) :
    (s.withTypes t').resultFor? i value = s.resultFor? i value := by
  have hfunction : t'.function? i = s.types.function? i := h.types.function? hi
  simp only [resultFor?, source_withTypes, types_withTypes, hfunction]

theorem knows_of_resultFor? (h : s.Grows t') {value : NodeId} (hj : s.resultFor? i value = some j) :
    s.program.types.Knows j := by
  unfold resultFor? at hj
  split at hj
  · obtain ⟨shape, hshape, rfl⟩ := Option.map_eq_some_iff.mp hj
    exact knows_of_function? h hshape
  · simp at hj

theorem explainAssigned_withTypes (h : s.Grows t') (site target : NodeId)
    (hi : s.program.types.Knows i) (value : NodeId) :
    (s.withTypes t').explainAssigned site target i value r =
      s.explainAssigned site target i value r := by
  have hrejected : (s.withTypes t').rejectedRead? value = s.rejectedRead? value := by
    simp only [rejectedRead?, source_withTypes, rejectedKey?_withTypes h]
  simp only [explainAssigned, elementsFor_withTypes h hi, resultFor?_withTypes h hi, hrejected,
    compareAssigned_withTypes h target hi]
  split
  · rename_i element elements helements
    have helement := knows_of_elementsFor h helements
    rw [describe_withTypes h helement, matchElements_withTypes h _ helement]
  · split
    · rename_i result hresult
      exact explainFunction_withTypes h target (knows_of_resultFor? h hresult) value
    · rfl

theorem explainDeclaration_withTypes (h : s.Grows t') :
    (s.withTypes t').explainDeclaration r = s.explainDeclaration r := by
  have hknows : ∀ i, (s.typeOf (s.source.child s.root 0)).or (s.typeOf s.root) = some i →
      s.program.types.Knows i := by
    intro i hi
    rcases Option.or_eq_some_iff.mp hi with htype | ⟨-, htype⟩
    · exact h.nodes _ i htype
    · exact h.nodes _ i htype
  simp only [explainDeclaration, source_withTypes, root_withTypes, typeOf_withTypes]
  cases htype : (s.typeOf (s.source.child s.root 0)).or (s.typeOf s.root) with
  | none => rfl
  | some type => simp only [explainAssigned_withTypes h _ _ (hknows type htype)]

theorem explainStatement_withTypes (h : s.Grows t') :
    (s.withTypes t').explainStatement r = s.explainStatement r := by
  simp only [explainStatement, source_withTypes, root_withTypes, typeOf_withTypes]
  split
  · rfl
  · rename_i n _
    cases htype : s.typeOf (n.child 0) with
    | none => rfl
    | some type => simp only [explainAssigned_withTypes h _ _ (h.nodes _ type htype)]

/-! ### Calls -/

theorem typedArguments?_withTypes (h : s.Grows t') (nodes : List NodeId) :
    (s.withTypes t').typedArguments? nodes = s.typedArguments? nodes := by
  have hargument : (fun node => (s.typeOf node).map fun type =>
        (⟨node, type, (s.withTypes t').program.describeWidened s.source node type⟩ : Argument)) =
      fun node => (s.typeOf node).map fun type =>
        ⟨node, type, s.program.describeWidened s.source node type⟩ := by
    funext node
    refine Option.map_congr fun type htype => ?_
    have hshown : (s.withTypes t').program.describeWidened s.source node type =
        s.program.describeWidened s.source node type :=
      Program.describeWidened_withTypes h.types (h.nodes node type htype) s.source node
    rw [hshown]
  simp only [typedArguments?, typeOf_withTypes, source_withTypes, hargument]

theorem knows_of_typedArguments? (h : s.Grows t') {nodes : List NodeId} {arguments : List Argument}
    (ha : s.typedArguments? nodes = some arguments) :
    ∀ a ∈ arguments, s.program.types.Knows a.type := by
  induction nodes generalizing arguments with
  | nil =>
    obtain rfl : [] = arguments := by simpa [typedArguments?] using ha
    simp
  | cons node rest ih =>
    simp only [typedArguments?, List.mapM_cons, Option.bind_eq_bind, Option.bind_eq_some_iff,
      Option.map_eq_some_iff] at ha
    obtain ⟨first, ⟨type, htype, rfl⟩, more, hmore, heq⟩ := ha
    obtain rfl := Option.some.inj heq
    exact List.forall_mem_cons.mpr ⟨h.nodes node type htype, ih hmore⟩

theorem elementsOf?_withTypes (h : s.Grows t') {parameter : Parameter}
    (hp : s.program.types.Knows parameter.type) (argument : Argument) :
    (s.withTypes t').elementsOf? parameter argument = s.elementsOf? parameter argument := by
  have helement : t'.element? parameter.type = s.types.element? parameter.type := h.types.element? hp
  simp only [elementsOf?, source_withTypes, index_withTypes, types_withTypes, helement]
  rfl

theorem knows_of_elementsOf? (h : s.Grows t') {parameter : Parameter} {argument : Argument}
    {elements : List Element} (he : s.elementsOf? parameter argument = some (i, elements)) :
    s.program.types.Knows i := by
  unfold elementsOf? at he
  dsimp only at he
  split at he
  · rename_i found element _ helement
    obtain ⟨rfl, -⟩ : element = i ∧ found = elements := by simpa using he
    exact h.closed.knows_of_element? helement
  · simp at he

theorem matchArguments_withTypes (h : s.Grows t') (callee : NodeId) (o : CallOutline)
    {parameters : List Parameter} (hp : ∀ p ∈ parameters, s.program.types.Knows p.type)
    {arguments : List Argument} (ha : ∀ a ∈ arguments, s.program.types.Knows a.type) :
    (s.withTypes t').matchArguments callee o parameters arguments r =
      s.matchArguments callee o parameters arguments r := by
  induction parameters generalizing arguments r with
  | nil => cases arguments <;> rfl
  | cons parameter parameters ih =>
    cases arguments with
    | nil => rfl
    | cons argument arguments =>
      obtain ⟨hparameter, hparameters⟩ := List.forall_mem_cons.mp hp
      obtain ⟨hargument, harguments⟩ := List.forall_mem_cons.mp ha
      have hrest : (s.withTypes t').matchArguments callee o parameters arguments =
          s.matchArguments callee o parameters arguments :=
        funext fun _ => ih hparameters harguments
      simp only [matchArguments, elementsOf?_withTypes h hparameter, types_withTypes, hrest,
        conflict?_withTypes h _ hparameter hargument]
      split
      · rename_i element elements helements
        have helement := knows_of_elementsOf? h helements
        have hrender : t'.render element = s.types.render element := h.types.render helement
        have hmatch : ∀ shown : Description,
            (s.withTypes t').matchElements Mode.call ⟨shown, some callee, element⟩ { call := some o }
              elements =
            s.matchElements Mode.call ⟨shown, some callee, element⟩ { call := some o } elements :=
          fun shown => funext fun _ => matchElements_withTypes h _ helement _ _
        rw [hrender, hmatch]
      · rfl

theorem explainArguments_withTypes (h : s.Grows t') {parameters : List Parameter}
    (hp : ∀ p ∈ parameters, s.program.types.Knows p.type) :
    (s.withTypes t').explainArguments parameters r = s.explainArguments parameters r := by
  have hnodes : (s.withTypes t').argumentNodes = s.argumentNodes := rfl
  have houtline : (s.withTypes t').outline = s.outline := rfl
  simp only [explainArguments, root_withTypes, source_withTypes, hnodes, houtline,
    typedArguments?_withTypes h]
  split
  · rfl
  · rename_i arguments harguments
    simp only [matchArguments_withTypes h _ _ hp (knows_of_typedArguments? h harguments)]

theorem signature?_withTypes (h : s.Grows t') : (s.withTypes t').signature? = s.signature? := by
  simp only [signature?, source_withTypes, root_withTypes, typeOf_withTypes, types_withTypes]
  cases htype : s.typeOf (s.source.child s.root 0) with
  | none => rfl
  | some i => exact h.types.function? (h.nodes _ i htype)

end Site

/-! ### Narrowing parameters -/

namespace Program

variable {p : Program}

/-- The parameter that is left of a member, in a table where `undefined` has been taken out of its
type. -/
def narrowed (p : Program) (m : Member) (type : TypeId) (optional : Bool) (t : Types) : Parameter :=
  let typeText := t.render type
  { shown :=
      { shown := m.name, typeText
        label := labelOf (m.name ++ (if m.optional || optional then "?" else "")) typeText
        link := m.declaration.elim "" p.declarationLink, type := some type }
    type, optional := m.optional || optional }

/-- Narrows parameters with a table of types; answers the table with the types entered. -/
def narrowIn (p : Program) : List Member → Types → Types × List Parameter
  | [], t => (t, [])
  | m :: rest, t =>
    let n := t.withoutUndefined m.type
    let more := narrowIn p rest n.1
    (more.1, p.narrowed m n.2.1 n.2.2 n.1 :: more.2)

/-- Narrowing changes nothing about a program but its types. -/
theorem narrowParameters_eq (ms : List Member) (t : Types) :
    (p.withTypes t).narrowParameters ms = (p.withTypes (p.narrowIn ms t).1, (p.narrowIn ms t).2) := by
  induction ms generalizing t with
  | nil => rfl
  | cons m rest ih =>
    have hfirst : (p.withTypes t).narrowParameter m = (p.withTypes (t.withoutUndefined m.type).1,
        p.narrowed m (t.withoutUndefined m.type).2.1 (t.withoutUndefined m.type).2.2
          (t.withoutUndefined m.type).1) := by
      simp only [narrowParameter, types_withTypes]
      rfl
    simp only [narrowParameters, hfirst, ih, narrowIn]

theorem narrowed_of_grows {t t' : Types} (h : t.Grows t') {type : TypeId} (ht : t.Knows type)
    (m : Member) (optional : Bool) : p.narrowed m type optional t' = p.narrowed m type optional t := by
  simp only [narrowed, h.render ht]

/-- Parameters of known types are narrowed once, to known types. By induction on the parameters. -/
theorem entersOnce_narrowIn (ms : List Member) {t : Types} (ht : t.Settled)
    (hm : ∀ m ∈ ms, t.Knows m.type) :
    Types.EntersOnce (p.narrowIn ms) t ∧
      ∀ k ∈ (p.narrowIn ms t).2, (p.narrowIn ms t).1.Knows k.type := by
  induction ms generalizing t with
  | nil => exact ⟨ht.entersOnce_pure [], by simp [narrowIn]⟩
  | cons m rest ih =>
    obtain ⟨hmember, hmembers⟩ := List.forall_mem_cons.mp hm
    obtain ⟨hnarrow, hknows⟩ := ht.entersOnce_withoutUndefined hmember
    obtain ⟨hrest, hparameters⟩ := ih hnarrow.settled fun k hk => hnarrow.grows.knows (hmembers k hk)
    constructor
    · refine hnarrow.bind
        (fun n t => ((p.narrowIn rest t).1, p.narrowed m n.1 n.2 t :: (p.narrowIn rest t).2))
        ⟨hrest.grows, hrest.settled, fun t' ht' => ?_⟩
      simp only [hrest.again t' ht', narrowed_of_grows (hrest.grows.trans ht') hknows]
    · exact List.forall_mem_cons.mpr ⟨hrest.grows.knows hknows, hparameters⟩

end Program

namespace Site

variable {s : Site} {r : Recorded}

/-- Explains a site with another table of types; answers the table with the types entered. -/
def explainIn (s : Site) (r : Recorded) (t : Types) : Types × Except Reason Unit × Recorded :=
  (((s.withTypes t).explain r).1.types, ((s.withTypes t).explain r).2)

/-- The parameters of what a call calls have known types. -/
theorem knows_of_signature? (hc : s.program.types.Closed) {shape : FunctionShape}
    (hs : s.signature? = some shape) : ∀ m ∈ shape.parameters, s.program.types.Knows m.type := by
  intro m hm
  obtain ⟨k, -, hk⟩ := Option.bind_eq_some_iff.mp hs
  have hpart : m.type ∈ shape.parts := List.mem_append_left _ (List.mem_map_of_mem hm)
  exact hc.knows_of_function? hk m.type hpart

/-- Nothing is entered for a site that is not a call. -/
theorem explainIn_of_not_call {t' : Types} (h : s.Grows t')
    (hroot : s.source.kind? s.root ≠ some .callExpression) :
    s.explainIn r t' = (t', (s.explain r).2) := by
  simp only [explainIn, explain, source_withTypes, root_withTypes]
  split
  · rw [explainDeclaration_withTypes h]
    rfl
  · rw [explainStatement_withTypes h]
    rfl
  · rw [explainReturn_withTypes h]
    rfl
  · rename_i hcall
    exact (hroot hcall).elim
  · rw [explainWrite_withTypes h]
    rfl
  · rfl

/-- A call narrows its parameters once, and compares its arguments with them in the table from then. -/
theorem explainIn_of_call {t' : Types} (h : s.Grows t') {shape : FunctionShape}
    (hcall : s.source.kind? s.root = some .callExpression) (hs : s.signature? = some shape) :
    s.explainIn r t' = ((s.program.narrowIn shape.parameters t').1,
      (s.withTypes (s.program.narrowIn shape.parameters t').1).explainArguments
        (s.program.narrowIn shape.parameters t').2 r) := by
  simp only [explainIn, explain, source_withTypes, root_withTypes, hcall, explainCall,
    signature?_withTypes h, hs]
  rw [show (s.withTypes t').program = s.program.withTypes t' from rfl, Program.narrowParameters_eq]
  rfl

theorem explainIn_of_no_signature {t' : Types} (h : s.Grows t')
    (hcall : s.source.kind? s.root = some .callExpression) (hs : s.signature? = none) :
    s.explainIn r t' = (t', .error .missingSignature, r) := by
  simp only [explainIn, explain, source_withTypes, root_withTypes, hcall, explainCall,
    signature?_withTypes h, hs]
  rfl

/-- A site whose nodes have known types is explained once: what is found stays the same, and nothing is
entered again. -/
theorem entersOnce_explainIn (r : Recorded) (ht : s.program.types.Settled)
    (hn : ∀ node i, s.typeOf node = some i → s.program.types.Knows i) :
    Types.EntersOnce (s.explainIn r) s.program.types := by
  have hgrows : ∀ t', s.program.types.Grows t' → s.Grows t' := fun t' h => ⟨h, hn⟩
  by_cases hcall : s.source.kind? s.root = some .callExpression
  · cases hsignature : s.signature? with
    | none =>
      exact (ht.entersOnce_pure (.error .missingSignature, r)).congr fun t' h =>
        explainIn_of_no_signature (hgrows t' h) hcall hsignature
    | some shape =>
      obtain ⟨hnarrow, hparameters⟩ := s.program.entersOnce_narrowIn shape.parameters ht
        (knows_of_signature? ht.closed hsignature)
      have hafter : Types.EntersOnce (fun t => (t, (s.withTypes t).explainArguments
          (s.program.narrowIn shape.parameters s.program.types).2 r))
          (s.program.narrowIn shape.parameters s.program.types).1 := by
        refine ⟨hnarrow.settled.grows, hnarrow.settled, fun t' ht' => ?_⟩
        have hsite : (s.withTypes (s.program.narrowIn shape.parameters s.program.types).1).Grows t' :=
          ⟨ht', fun node i hi => hnarrow.grows.knows (hn node i hi)⟩
        exact congrArg (t', ·) (explainArguments_withTypes hsite hparameters)
      have hboth := hnarrow.bind
        (fun parameters t => (t, (s.withTypes t).explainArguments parameters r)) hafter
      exact hboth.congr fun t' h => explainIn_of_call (hgrows t' h) hcall hsignature
  · exact (ht.entersOnce_pure (s.explain r).2).congr fun t' h =>
      explainIn_of_not_call (hgrows t' h) hcall

end Site

end Misfit
