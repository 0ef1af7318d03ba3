import Misfit.Proofs.Explain.Coherent
import Misfit.Proofs.Explain.Growth
import Misfit.Proofs.Types.Operations
import Misfit.Tree.Draft
import Mathlib.Data.Nat.Find

/-!
# The number of arguments

A call is explained by the number of its arguments alone if that is wrong: there are more of them than
parameters, or a parameter that has to be given has none. Which parameters have to be given is told by
their marks and by their types, and those that may be left out need not come last. So the position that
is shown, the pair at it and the arguments that remain are given here by the numbers and by the required
positions, whatever their order.
-/
namespace Misfit

namespace Types

variable {t t' : Types} {i : TypeId}

/-- The type is a union with `undefined` among its members. -/
def admitsUndefined (t : Types) (i : TypeId) : Bool :=
  t.isUnion i && decide (TypeId.undefined ∈ t.members i)

/-- The types that `undefined` is taken out of are the unions that have it. -/
theorem Sound.removed_withoutUndefined (h : t.Sound) (i : TypeId) :
    (t.withoutUndefined i).2.2 = t.admitsUndefined i := by
  unfold withoutUndefined admitsUndefined
  cases hu : t.isUnion i with
  | false =>
    have hshort : (t.members i).length < 2 := by simp [members_eq_of_not_isUnion hu]
    simp [hshort]
  | true =>
    have hlong : ¬(t.members i).length < 2 := Nat.not_lt_of_le (h.two_le_length_members hu)
    by_cases hmem : TypeId.undefined ∈ t.members i
    · simp [hlong, hmem]
    · simp [hmem]

theorem Extends.admitsUndefined (h : t.Extends t') (hs : t.Sound) (hi : t.Knows i) :
    t'.admitsUndefined i = t.admitsUndefined i := by
  rw [Types.admitsUndefined, Types.admitsUndefined, h.isUnion hi, h.members hs hi]

end Types

namespace Program

variable {p : Program} {t : Types}

/-- The table when the parameter at a position is looked at: `undefined` has been taken out of the types
of those before it. -/
def tableAt (p : Program) (ms : List Member) (i : Nat) : Types := (p.narrowIn (ms.take i) p.types).1

/-- There is a parameter at the position that may not be left out: it has no mark, and its type is not a
union with `undefined`. -/
def requires (p : Program) (ms : List Member) (i : Nat) : Bool :=
  ms[i]?.any fun m => !m.optional && !(p.tableAt ms i).admitsUndefined m.type

theorem lt_of_requires {ms : List Member} {i : Nat} (h : p.requires ms i = true) : i < ms.length := by
  by_contra hi
  simp [requires, List.getElem?_eq_none (Nat.le_of_not_lt hi)] at h

theorem built_narrowIn (h : t.Built) (ms : List Member) : (p.narrowIn ms t).1.Built := by
  induction ms generalizing t with
  | nil => exact h
  | cons m rest ih => exact ih (h.withoutUndefined m.type)

theorem extends_narrowIn (t : Types) (ms : List Member) : t.Extends (p.narrowIn ms t).1 := by
  induction ms generalizing t with
  | nil => exact .refl t
  | cons m rest ih => exact (t.extends_perform (.withoutUndefined m.type)).trans (ih _)

theorem length_narrowIn (t : Types) (ms : List Member) : (p.narrowIn ms t).2.length = ms.length := by
  induction ms generalizing t with
  | nil => rfl
  | cons m rest ih => exact congrArg Nat.succ (ih _)

/-- A parameter may be left out if it has a mark, or if `undefined` was taken out of its type. -/
theorem optional_narrowIn (t : Types) (ms : List Member) (i : Nat) :
    (p.narrowIn ms t).2[i]?.map Parameter.optional =
      ms[i]?.map fun m =>
        m.optional || ((p.narrowIn (ms.take i) t).1.withoutUndefined m.type).2.2 := by
  induction ms generalizing t i with
  | nil => simp [narrowIn]
  | cons m rest ih =>
    cases i with
    | zero => rfl
    | succ i => exact ih (t.withoutUndefined m.type).1 i

/-- Required are the parameters that may not be left out once they are narrowed. -/
theorem requires_eq (h : p.types.Built) (ms : List Member) (i : Nat) :
    p.requires ms i = (p.narrowIn ms p.types).2[i]?.any (!·.optional) := by
  have hoptional := p.optional_narrowIn p.types ms i
  have hsound : (p.tableAt ms i).Sound := (built_narrowIn h _).sound
  have hany : (p.narrowIn ms p.types).2[i]?.any (!·.optional) =
      ((p.narrowIn ms p.types).2[i]?.map Parameter.optional).any (!·) := by
    rw [Option.any_map]
  rw [hany, hoptional, Option.any_map, requires]
  congr 1
  funext m
  rw [← hsound.removed_withoutUndefined, ← Bool.not_or]
  rfl

/-- For a parameter of a known type it makes no difference that others have been narrowed before. -/
theorem requires_of_knows (h : p.types.Built) {ms : List Member} {i : Nat} {m : Member}
    (hm : ms[i]? = some m) (hk : p.types.Knows m.type) :
    p.requires ms i = true ↔ m.optional = false ∧ p.types.admitsUndefined m.type = false := by
  have hsame : (p.tableAt ms i).admitsUndefined m.type = p.types.admitsUndefined m.type :=
    (p.extends_narrowIn p.types (ms.take i)).admitsUndefined h.sound hk
  simp [requires, hm, hsame]

end Program

/-! ### Arguments beside parameters -/

/-- Where the number of arguments goes wrong: behind the last parameter, if there are more arguments, and
otherwise at the first required position without one. -/
inductive WrongAt (arguments parameters : Nat) (required : Nat → Bool) : Nat → Prop
  | tooMany (h : parameters < arguments) : WrongAt arguments parameters required parameters
  | tooFew {position : Nat} (h : arguments ≤ parameters) (hposition : arguments ≤ position)
    (hrequired : required position = true)
    (hleast : ∀ i, arguments ≤ i → required i = true → position ≤ i) :
    WrongAt arguments parameters required position

/-- The number goes wrong somewhere if there are too many arguments, or if a required parameter is without
one; of several such parameters one is the first. -/
theorem exists_wrongAt_iff {arguments parameters : Nat} {required : Nat → Bool} :
    (∃ position, WrongAt arguments parameters required position) ↔
      parameters < arguments ∨ ∃ i, arguments ≤ i ∧ required i = true := by
  constructor
  · rintro ⟨position, hwrong⟩
    cases hwrong with
    | tooMany h => exact Or.inl h
    | tooFew _ hposition hrequired => exact Or.inr ⟨position, hposition, hrequired⟩
  · rintro (hmany | hunmet)
    · exact ⟨parameters, .tooMany hmany⟩
    · by_cases hmany : parameters < arguments
      · exact ⟨parameters, .tooMany hmany⟩
      · obtain ⟨hposition, hrequired⟩ := Nat.find_spec hunmet
        exact ⟨Nat.find hunmet, .tooFew (Nat.le_of_not_lt hmany) hposition hrequired
          fun i hi hirequired => Nat.find_min' hunmet ⟨hi, hirequired⟩⟩

/-- The outline has so many arguments beside so many parameters, and they are too many or too few. -/
structure CallOutline.Counts (o : CallOutline) (arguments parameters : Nat) : Prop where
  length : o.pairs.length = max arguments parameters
  source : ∀ i, (o.pairs[i]?.bind ArgumentPair.source).isSome = true ↔ i < arguments
  target : ∀ i, (o.pairs[i]?.bind ArgumentPair.target).isSome = true ↔ i < parameters
  tooMany : o.tooMany = decide (parameters < arguments)
  tooFew : o.tooFew = decide (arguments ≤ parameters)

section Pairs

variable {arguments : List Argument} {parameters : List Parameter}

/-- The parameter at a position has to be given. -/
def isRequired (parameters : List Parameter) (i : Nat) : Bool := parameters[i]?.any (!·.optional)

theorem lt_of_isRequired {i : Nat} (h : isRequired parameters i = true) : i < parameters.length := by
  by_contra hi
  simp [isRequired, List.getElem?_eq_none (Nat.le_of_not_lt hi)] at h

theorem length_pairUp :
    (pairUp arguments parameters).length = max arguments.length parameters.length := by
  simp [pairUp]

theorem getElem?_pairUp {i : Nat} (h : i < max arguments.length parameters.length) :
    (pairUp arguments parameters)[i]? = some
      { source := arguments[i]?.map Argument.shown
        target := parameters[i]?.map Parameter.shown
        optional := parameters[i]?.any Parameter.optional } := by
  simp [pairUp, List.getElem?_range h]

theorem isSome_source_pairUp (i : Nat) :
    ((pairUp arguments parameters)[i]?.bind ArgumentPair.source).isSome = true ↔
      i < arguments.length := by
  by_cases h : i < max arguments.length parameters.length
  · simp [getElem?_pairUp h]
  · have hnone : (pairUp arguments parameters)[i]? = none :=
      List.getElem?_eq_none (by rw [length_pairUp]; omega)
    rw [hnone]
    simp
    omega

theorem isSome_target_pairUp (i : Nat) :
    ((pairUp arguments parameters)[i]?.bind ArgumentPair.target).isSome = true ↔
      i < parameters.length := by
  by_cases h : i < max arguments.length parameters.length
  · simp [getElem?_pairUp h]
  · have hnone : (pairUp arguments parameters)[i]? = none :=
      List.getElem?_eq_none (by rw [length_pairUp]; omega)
    rw [hnone]
    simp
    omega

/-- A pair is unmet if there is no argument at its position and the parameter has to be given. -/
theorem isUnmet_getElem {i : Nat} (h : i < (pairUp arguments parameters).length) :
    (pairUp arguments parameters)[i].isUnmet = true ↔
      arguments.length ≤ i ∧ isRequired parameters i = true := by
  have hpair := getElem?_pairUp (length_pairUp ▸ h)
  rw [List.getElem?_eq_getElem h] at hpair
  rw [Option.some.inj hpair, isRequired]
  cases hparameter : parameters[i]? with
  | none => simp [ArgumentPair.isUnmet]
  | some parameter => simp [ArgumentPair.isUnmet]

/-- The first unmet pair is at the least required position without an argument. -/
theorem findIdx?_isUnmet_eq_some_iff {i : Nat} :
    (pairUp arguments parameters).findIdx? ArgumentPair.isUnmet = some i ↔
      arguments.length ≤ i ∧ isRequired parameters i = true ∧
        ∀ j, arguments.length ≤ j → isRequired parameters j = true → i ≤ j := by
  rw [List.findIdx?_eq_some_iff_getElem]
  constructor
  · rintro ⟨hi, hunmet, hbefore⟩
    obtain ⟨hle, hrequired⟩ := (isUnmet_getElem hi).mp hunmet
    refine ⟨hle, hrequired, fun j hj hjrequired => ?_⟩
    by_contra hlt
    have hji : j < i := Nat.lt_of_not_le hlt
    exact hbefore j hji ((isUnmet_getElem (hji.trans hi)).mpr ⟨hj, hjrequired⟩)
  · rintro ⟨hle, hrequired, hleast⟩
    have hi : i < (pairUp arguments parameters).length := by
      have hlt := lt_of_isRequired hrequired
      rw [length_pairUp]
      omega
    refine ⟨hi, (isUnmet_getElem hi).mpr ⟨hle, hrequired⟩, fun j hji hunmet => ?_⟩
    obtain ⟨hj, hjrequired⟩ := (isUnmet_getElem (hji.trans hi)).mp hunmet
    exact Nat.not_lt_of_le (hleast j hj hjrequired) hji

theorem any_isUnmet_iff :
    (pairUp arguments parameters).any ArgumentPair.isUnmet = true ↔
      ∃ i, arguments.length ≤ i ∧ isRequired parameters i = true := by
  rw [List.any_eq_true]
  constructor
  · rintro ⟨pair, hmem, hunmet⟩
    obtain ⟨i, hi, rfl⟩ := List.mem_iff_getElem.mp hmem
    exact ⟨i, (isUnmet_getElem hi).mp hunmet⟩
  · rintro ⟨i, hle, hrequired⟩
    have hi : i < (pairUp arguments parameters).length := by
      have hlt := lt_of_isRequired hrequired
      rw [length_pairUp]
      omega
    exact ⟨_, List.getElem_mem hi, (isUnmet_getElem hi).mpr ⟨hle, hrequired⟩⟩

variable (s : Site)

/-- A call offends where the number of its arguments goes wrong. -/
theorem Site.offending?_outline_eq_some_iff {position : Nat} :
    (s.outline arguments parameters).offending? parameters.length = some position ↔
      WrongAt arguments.length parameters.length (isRequired parameters) position := by
  by_cases hmany : parameters.length < arguments.length
  · have hoffending : (s.outline arguments parameters).offending? parameters.length =
        some parameters.length := by
      simp [CallOutline.offending?, outline, hmany]
    rw [hoffending]
    constructor
    · rintro ⟨⟩
      exact .tooMany hmany
    · intro h
      cases h with
      | tooMany => rfl
      | tooFew hle => exact absurd hmany (Nat.not_lt_of_le hle)
  · have hoffending : (s.outline arguments parameters).offending? parameters.length =
        (pairUp arguments parameters).findIdx? ArgumentPair.isUnmet := by
      simp [CallOutline.offending?, outline, hmany]
    rw [hoffending, findIdx?_isUnmet_eq_some_iff]
    constructor
    · rintro ⟨hle, hrequired, hleast⟩
      exact .tooFew (Nat.le_of_not_lt hmany) hle hrequired hleast
    · intro h
      cases h with
      | tooMany hlt => exact absurd hlt hmany
      | tooFew _ hle hrequired hleast => exact ⟨hle, hrequired, hleast⟩

/-- Where the number of arguments goes wrong, the outline counts them, and just one flag says how. -/
theorem Site.counts_outline {position : Nat}
    (h : WrongAt arguments.length parameters.length (isRequired parameters) position) :
    (s.outline arguments parameters).Counts arguments.length parameters.length where
  length := length_pairUp
  source := isSome_source_pairUp
  target := isSome_target_pairUp
  tooMany := rfl
  tooFew := by
    show (pairUp arguments parameters).any ArgumentPair.isUnmet = _
    cases h with
    | tooMany hlt =>
      rw [decide_eq_false (Nat.not_le_of_lt hlt), ← Bool.not_eq_true, any_isUnmet_iff]
      rintro ⟨i, hle, hrequired⟩
      have hi := lt_of_isRequired hrequired
      omega
    | tooFew hle hposition hrequired =>
      rw [decide_eq_true hle, any_isUnmet_iff]
      exact ⟨position, hposition, hrequired⟩

end Pairs

/-- The explanation leaves what is recorded as it was, or adds one entry with the property. -/
def AddsOnly (P : Evidence × ConflictKind → Prop) (explaining : Explaining) : Prop :=
  ∀ r, (explaining r).2.found = r.found ∨
    ∃ entry, (explaining r).2.found = r.found ++ [entry] ∧ P entry

theorem AddsOnly.mono {P Q : Evidence × ConflictKind → Prop} {explaining : Explaining}
    (h : AddsOnly P explaining) (hPQ : ∀ entry, P entry → Q entry) : AddsOnly Q explaining := by
  intro r
  refine (h r).imp_right ?_
  rintro ⟨entry, hfound, hentry⟩
  exact ⟨entry, hfound, hPQ entry hentry⟩

theorem addsOnly_untilRecorded {P : Evidence × ConflictKind → Prop} {first next : Explaining}
    (hfirst : AddsOnly P first) (hnext : AddsOnly P next) : AddsOnly P (untilRecorded first next) := by
  intro r
  have hr := hfirst r
  unfold untilRecorded
  cases hx : first r with
  | mk ended r' =>
    rw [hx] at hr
    cases ended with
    | error reason => exact hr
    | ok _ =>
      dsimp only
      rcases hr with hsame | ⟨entry, hadded, hentry⟩
      · replace hsame : r'.found = r.found := hsame
        have hnone : ¬r.found.length < r'.found.length := by simp [hsame]
        rw [if_neg hnone, ← hsame]
        exact hnext r'
      · replace hadded : r'.found = r.found ++ [entry] := hadded
        have hone : r.found.length < r'.found.length := by simp [hadded]
        rw [if_pos hone]
        exact Or.inr ⟨entry, hadded, hentry⟩

/-- The entry of a wrong number of arguments: what is shown is the pair at the position, with nothing in
place of the side that is absent. -/
structure CountedAt (callee : NodeId) (nodes : List NodeId) (parameters position : Nat)
    (entry : Evidence × ConflictKind) : Prop where
  position_lt : position < max nodes.length parameters
  kind : entry.2 = if parameters < nodes.length then .tooManyArgs else .tooFewArgs
  clash : entry.1.conflict.clash = .arity
  outline : ∃ o, entry.1.call = some o ∧ o.Counts nodes.length parameters ∧
    ∃ pair, o.pairs[position]? = some pair ∧ entry.1.conflict.trail.layers =
      [⟨pair.target.getD {}, .node (pair.source.getD {})⟩]
  source : entry.1.source = nodes[position]?
  target : entry.1.target = some callee
  remaining : entry.1.remaining + position + 1 = max nodes.length parameters

/-- The evidence is of an argument and a parameter at one position, or of an element of the argument
there. -/
def ComparedAt (index : Index) (nodes : List NodeId) (parameters : Nat) (e : Evidence) : Prop :=
  ∃ position node, nodes[position]? = some node ∧ position < parameters ∧
    (e.source = some node ∧ e.remaining + position + 1 = nodes.length ∨
      ∃ elements k, index.elementsAt node = some elements ∧ k < elements.length ∧
        e.remaining + k + 1 = elements.length)

theorem ComparedAt.cons {index : Index} {nodes : List NodeId} {parameters : Nat} {e : Evidence}
    (h : ComparedAt index nodes parameters e) (first : NodeId) :
    ComparedAt index (first :: nodes) (parameters + 1) e := by
  obtain ⟨position, node, hnode, hlt, hat⟩ := h
  refine ⟨position + 1, node, hnode, Nat.succ_lt_succ hlt, hat.imp_left fun ⟨hsource, hremaining⟩ => ?_⟩
  refine ⟨hsource, ?_⟩
  rw [List.length_cons]
  omega

namespace Site

variable {s : Site}

/-- An entry of an element tells how many come after it. By induction on the elements. -/
theorem addsOnly_matchElements (mode : Mode) (target : ElementTarget) (known : Circumstances)
    (elements : List Element) :
    AddsOnly (fun entry => entry.1.conflict.clash ≠ .arity ∧
      ∃ k < elements.length, entry.1.remaining + k + 1 = elements.length)
      (s.matchElements mode target known elements) := by
  intro r
  induction elements with
  | nil => exact Or.inl rfl
  | cons element rest ih =>
    rw [matchElements]
    split
    · exact Or.inl rfl
    · split
      · refine ih.imp_right ?_
        rintro ⟨entry, hfound, hclash, k, hk, hremaining⟩
        refine ⟨entry, hfound, hclash, k + 1, Nat.succ_lt_succ hk, ?_⟩
        rw [List.length_cons]
        omega
      · rename_i conflict hconflict
        refine Or.inr ⟨_, rfl, (Comparison.isCompared_of_conflict? hconflict).counted, 0, ?_, ?_⟩
        · exact Nat.succ_pos rest.length
        · exact (List.length_cons ..).symm

/-- An argument is walked by its elements if it is a literal whose elements are known, and its parameter
is an array. -/
theorem elementsOf?_eq_some_iff {parameter : Parameter} {argument : Argument} {element : TypeId}
    {elements : List Element} :
    s.elementsOf? parameter argument = some (element, elements) ↔
      s.source.kind? argument.node = some .arrayLiteralExpression ∧
        s.index.elementsAt argument.node = some elements ∧
        s.types.element? parameter.type = some element := by
  unfold elementsOf?
  by_cases hkind : s.source.kind? argument.node = some .arrayLiteralExpression
  · cases s.index.elementsAt argument.node <;> cases s.types.element? parameter.type <;>
      simp [hkind, and_comm]
  · simp [hkind]

/-- An entry of an argument tells how many come after it. By induction on the arguments that have a
parameter. -/
theorem addsOnly_matchArguments (callee : NodeId) (o : CallOutline) (parameters : List Parameter)
    (arguments : List Argument) :
    AddsOnly (fun entry => entry.1.conflict.clash ≠ .arity ∧
      ComparedAt s.index (arguments.map Argument.node) parameters.length entry.1)
      (s.matchArguments callee o parameters arguments) := by
  induction parameters generalizing arguments with
  | nil =>
    intro r
    cases arguments with
    | nil => exact Or.inl rfl
    | cons argument arguments => exact Or.inl rfl
  | cons parameter parameters ih =>
    intro r
    cases arguments with
    | nil => exact Or.inl rfl
    | cons argument arguments =>
      have hrest := (ih arguments).mono fun entry h => And.imp_right (·.cons argument.node) h
      rw [matchArguments]
      split
      · rename_i element elements helements
        obtain ⟨-, hat, -⟩ := elementsOf?_eq_some_iff.mp helements
        refine addsOnly_untilRecorded (AddsOnly.mono (s.addsOnly_matchElements _ _ _ elements) ?_) hrest r
        rintro entry ⟨hclash, k, hk, hremaining⟩
        exact ⟨hclash, 0, argument.node, rfl, Nat.succ_pos _, Or.inr ⟨elements, k, hat, hk, hremaining⟩⟩
      · split
        · exact hrest r
        · rename_i conflict hconflict
          refine Or.inr ⟨_, rfl, (Comparison.isCompared_of_conflict? hconflict).counted, 0,
            argument.node, rfl, Nat.succ_pos _, Or.inl ⟨rfl, ?_⟩⟩
          simp

/-- A call whose arguments are all of known types has them in the order of their nodes. -/
theorem exists_typedArguments? {nodes : List NodeId}
    (h : ∀ node ∈ nodes, (s.typeOf node).isSome = true) :
    ∃ arguments, s.typedArguments? nodes = some arguments ∧ arguments.map Argument.node = nodes := by
  induction nodes with
  | nil => exact ⟨[], rfl, rfl⟩
  | cons node rest ih =>
    obtain ⟨hnode, hrest⟩ := List.forall_mem_cons.mp h
    obtain ⟨type, htype⟩ := Option.isSome_iff_exists.mp hnode
    obtain ⟨arguments, harguments, hnodes⟩ := ih hrest
    refine ⟨⟨node, type, s.program.describeWidened s.source node type⟩ :: arguments, ?_, ?_⟩
    · rw [typedArguments?] at harguments
      simp [typedArguments?, htype, harguments]
    · rw [List.map_cons, hnodes]

/-- A call narrows its parameters and goes on in the program that is left. -/
theorem explainCall_of_signature? {shape : FunctionShape} (h : s.signature? = some shape)
    (r : Recorded) :
    (s.explainCall r).2 =
      (s.withTypes (s.program.narrowIn shape.parameters s.program.types).1).explainArguments
        (s.program.narrowIn shape.parameters s.program.types).2 r := by
  have hnarrow := Program.narrowParameters_eq (p := s.program) shape.parameters s.program.types
  have hself : s.program.withTypes s.program.types = s.program := rfl
  rw [hself] at hnarrow
  simp only [explainCall, h, hnarrow]
  rfl

/-- The evidence of a wrong number of arguments. -/
theorem countedAt_arityEvidence {arguments : List Argument} {parameters : List Parameter}
    {position : Nat}
    (h : WrongAt arguments.length parameters.length (isRequired parameters) position) (indexed : Bool) :
    CountedAt (s.source.child s.root 0) (arguments.map Argument.node) parameters.length position
      ((s.outline arguments parameters).arityEvidence (s.source.child s.root 0) arguments position,
        ((s.outline arguments parameters).arityEvidence (s.source.child s.root 0) arguments
          position).kind indexed) := by
  have hcounts := s.counts_outline h
  have hlt : position < max arguments.length parameters.length := by
    cases h with
    | tooMany hlt => omega
    | tooFew _ _ hrequired =>
      have hposition := lt_of_isRequired hrequired
      omega
  have hnodes : (arguments.map Argument.node).length = arguments.length := List.length_map ..
  have hpair : (s.outline arguments parameters).pairs[position]? = some _ := getElem?_pairUp hlt
  constructor
  · rw [hnodes]
    exact hlt
  · rw [hnodes]
    simp only [Evidence.kind, CallOutline.arityEvidence, Clash.classify, Option.any_some,
      hcounts.tooMany, hcounts.tooFew]
    cases h with
    | tooMany hmany => simp [hmany]
    | tooFew hle => simp [hle, Nat.not_lt_of_le hle]
  · rfl
  · rw [hnodes]
    refine ⟨_, rfl, hcounts, _, hpair, ?_⟩
    simp only [CallOutline.arityEvidence, hpair, Option.getD_some, Trail.layers_push, Trail.layers_empty,
      List.nil_append]
  · rw [List.getElem?_map]
    rfl
  · rfl
  · rw [hnodes]
    show (s.outline arguments parameters).pairs.length - position - 1 + position + 1 = _
    rw [hcounts.length]
    omega

/-- A call whose arguments have known types is explained by their number where that is wrong, and by the
arguments one after the other where it is right. -/
theorem explainArguments_of_typedArguments? {arguments : List Argument}
    (h : s.typedArguments? (s.argumentNodes s.root) = some arguments) (parameters : List Parameter)
    (r : Recorded) :
    (∃ position,
      WrongAt arguments.length parameters.length (isRequired parameters) position ∧
        s.explainArguments parameters r = (.ok (), r.add ((s.outline arguments parameters).arityEvidence
          (s.source.child s.root 0) arguments position))) ∨
      (∀ position, ¬WrongAt arguments.length parameters.length (isRequired parameters) position) ∧
        s.explainArguments parameters r = s.matchArguments (s.source.child s.root 0)
          (s.outline arguments parameters) parameters arguments r := by
  simp only [explainArguments, h]
  cases hoffending : (s.outline arguments parameters).offending? parameters.length with
  | some position => exact Or.inl ⟨position, s.offending?_outline_eq_some_iff.mp hoffending, rfl⟩
  | none =>
    refine Or.inr ⟨fun position hwrong => ?_, rfl⟩
    simp [s.offending?_outline_eq_some_iff.mpr hwrong] at hoffending

/-- What is recorded of a call whose parameters have been narrowed. -/
theorem explainArguments_counts (htyped : ∀ node ∈ s.argumentNodes s.root, (s.typeOf node).isSome = true)
    (parameters : List Parameter) :
    let nodes := s.argumentNodes s.root
    let found := (s.explainArguments parameters {}).2.found
    ((∃ entry ∈ found, entry.1.conflict.clash = .arity) ↔
      ∃ position, WrongAt nodes.length parameters.length (isRequired parameters) position) ∧
    (∀ entry ∈ found, entry.1.conflict.clash = .arity → found = [entry] ∧
      ∃ position, WrongAt nodes.length parameters.length (isRequired parameters) position ∧
        CountedAt (s.source.child s.root 0) nodes parameters.length position entry) ∧
    ∀ entry ∈ found, entry.1.conflict.clash ≠ .arity →
      found = [entry] ∧ ComparedAt s.index nodes parameters.length entry.1 := by
  intro nodes found
  obtain ⟨arguments, harguments, hnodes⟩ := exists_typedArguments? htyped
  have hlength : nodes.length = arguments.length := by
    show (s.argumentNodes s.root).length = arguments.length
    rw [← hnodes, List.length_map]
  rw [hlength]
  rcases explainArguments_of_typedArguments? harguments parameters {} with
    ⟨position, hwrong, hexplained⟩ | ⟨hright, hexplained⟩
  · have hfound : found = [_] := congrArg (·.2.found) hexplained
    have hcounted := countedAt_arityEvidence (s := s) hwrong false
    rw [hnodes] at hcounted
    refine ⟨⟨fun _ => ⟨position, hwrong⟩, fun _ => ⟨_, ?_, hcounted.clash⟩⟩, ?_, ?_⟩
    · rw [hfound]
      exact List.mem_singleton_self _
    · intro entry hentry _
      rw [hfound] at hentry ⊢
      rw [List.mem_singleton.mp hentry]
      exact ⟨rfl, position, hwrong, hcounted⟩
    · intro entry hentry hclash
      rw [hfound, List.mem_singleton] at hentry
      exact (hclash (hentry ▸ hcounted.clash)).elim
  · have hfound := s.addsOnly_matchArguments (s.source.child s.root 0)
      (s.outline arguments parameters) parameters arguments {}
    rw [← hexplained, hnodes] at hfound
    rcases hfound with hnone | ⟨entry, hone, hclash, hat⟩
    · replace hnone : found = [] := hnone
      refine ⟨⟨?_, fun ⟨position, hwrong⟩ => (hright position hwrong).elim⟩, ?_, ?_⟩
      · simp [hnone]
      · simp [hnone]
      · simp [hnone]
    · replace hone : found = [entry] := hone
      refine ⟨⟨?_, fun ⟨position, hwrong⟩ => (hright position hwrong).elim⟩, ?_, ?_⟩
      · simp [hone, hclash]
      · simp [hone, hclash]
      · rw [hone]
        intro other hother _
        rw [List.mem_singleton.mp hother]
        exact ⟨rfl, hat⟩

/-- The number of arguments of a call is explained if it is wrong, and only then: there are more of them
than parameters, or a required parameter has none. The entry is then the only one, and is made at the
position where the number goes wrong. Any other entry is of a position where there are both. If the type
of a parameter was known before the call, whether it is required can be read off the table from before. -/
theorem explainCall_counts {shape : FunctionShape} (hbuilt : s.program.types.Built)
    (hsignature : s.signature? = some shape)
    (htyped : ∀ node ∈ s.argumentNodes s.root, (s.typeOf node).isSome = true) :
    let nodes := s.argumentNodes s.root
    let parameters := shape.parameters
    let required := s.program.requires parameters
    let found := (s.explainCall {}).2.2.found
    ((∃ entry ∈ found, entry.1.conflict.clash = .arity) ↔
      parameters.length < nodes.length ∨
        ∃ i, nodes.length ≤ i ∧ i < parameters.length ∧ required i = true) ∧
    (∀ entry ∈ found, entry.1.conflict.clash = .arity → found = [entry] ∧
      ∃ position, WrongAt nodes.length parameters.length required position ∧
        CountedAt (s.source.child s.root 0) nodes parameters.length position entry) ∧
    (∀ entry ∈ found, entry.1.conflict.clash ≠ .arity →
      found = [entry] ∧ ComparedAt s.index nodes parameters.length entry.1) ∧
    ∀ i m, parameters[i]? = some m → s.program.types.Knows m.type →
      (required i = true ↔ m.optional = false ∧ s.program.types.admitsUndefined m.type = false) := by
  intro nodes parameters required found
  have hrequired : isRequired (s.program.narrowIn shape.parameters s.program.types).2 = required :=
    funext fun i => (Program.requires_eq hbuilt shape.parameters i).symm
  have hlength : (s.program.narrowIn shape.parameters s.program.types).2.length = parameters.length :=
    Program.length_narrowIn _ _
  have hcounts := explainArguments_counts
    (s := s.withTypes (s.program.narrowIn shape.parameters s.program.types).1) htyped
    (s.program.narrowIn shape.parameters s.program.types).2
  rw [← explainCall_of_signature? hsignature, hrequired, hlength] at hcounts
  obtain ⟨hiff, hcounted, hcompared⟩ := hcounts
  refine ⟨?_, hcounted, hcompared, fun i m hm hk => Program.requires_of_knows hbuilt hm hk⟩
  rw [exists_wrongAt_iff] at hiff
  refine hiff.trans (or_congr_right (exists_congr fun i => and_congr_right fun _ => ?_))
  exact (and_iff_right_of_imp Program.lt_of_requires).symm

/-- The call `f(true)` of a function with three parameters. The second one may be `undefined`. -/
def sparseCall : Site :=
  let (t, maybe) := Types.initial.union [.number, .undefined]
  let (t, callee) := t.function
    { parameters := [⟨"a", .boolean, false, none⟩, ⟨"b", maybe, false, none⟩, ⟨"c", .string, false, none⟩]
      result := .void }
  let d : Draft := { name := "a.ts" }
  let (d, f) := d.identifier "f"
  let (d, argument) := d.booleanLiteral true
  let (d, call) := d.call f [argument]
  let (d, statement) := d.expressionStatement call
  let source := d.finish [statement]
  let nodeTypes := [((⟨0⟩, f), callee), ((⟨0⟩, argument), TypeId.boolean)]
  { program := { types := t, files := [source], nodeTypes }, options := {}, file := ⟨0⟩, source
    index := Index.build source, flagged := call, root := call }

/-- The second parameter may be left out, so the third one is what is missing. -/
theorem explainCall_sparseCall :
    let s := sparseCall
    let required := s.program.requires ((s.signature?.elim [] FunctionShape.parameters))
    (s.program.types.Built ∧ (s.argumentNodes s.root).length = 1) ∧
      (required 1 = false ∧ required 2 = true) ∧
      ∃ entry, (s.explainCall {}).2.2.found = [entry] ∧
        CountedAt (s.source.child s.root 0) (s.argumentNodes s.root) 3 2 entry := by
  intro s required
  have hbuilt : s.program.types.Built := (Types.Built.initial.union [.number, .undefined]).function _
  have hnodes : (s.argumentNodes s.root).length = 1 := by decide
  have hskipped : required 1 = false := by decide
  have hrequired : required 2 = true := by decide
  obtain ⟨shape, hshape, hlength⟩ : ∃ shape, s.signature? = some shape ∧ shape.parameters.length = 3 :=
    ⟨_, rfl, rfl⟩
  have hparameters : s.program.requires shape.parameters = required := by
    simp only [required, hshape, Option.elim_some]
  obtain ⟨hiff, hcounted, -⟩ := explainCall_counts hbuilt hshape (by decide)
  rw [hparameters, hnodes, hlength] at hiff hcounted
  obtain ⟨entry, hentry, hclash⟩ := hiff.mpr (Or.inr ⟨2, by decide, by decide, hrequired⟩)
  obtain ⟨hfound, position, hwrong, hat⟩ := hcounted entry hentry hclash
  have hposition : position = 2 := by
    cases hwrong with
    | tooMany h => omega
    | tooFew _ hle hposition hleast =>
      have hupper := hleast 2 (by decide) hrequired
      have hne : position ≠ 1 := by
        rintro rfl
        simp [hskipped] at hposition
      omega
  exact ⟨⟨hbuilt, hnodes⟩, ⟨hskipped, hrequired⟩, entry, hfound, hposition ▸ hat⟩

end Site

end Misfit
