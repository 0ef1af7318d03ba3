import Misfit.Proofs.Compare.Above
import Misfit.Proofs.Explain.Recording
import Misfit.Proofs.Tree.Returns
import Misfit.Tree.Draft

/-!
# Returns of an assigned function

Where a function is assigned to a name of a function type, its `return`s are compared with the result
that is asked for; a `return` that is flagged itself is compared with the result that its function is
declared to have. Where both results are one type, the two ways of explaining agree: the assignment comes
to what the first `return` comes to on its own, of those that come to anything.
-/
namespace Misfit

namespace Site

/-- How an explanation ends, and what is recorded by then. -/
abbrev Ending := Except Reason Unit × Recorded

/-- The explanation ends well with nothing recorded. -/
def nothing : Ending := (.ok (), {})

/-- Two explanations come to the same: to nothing, to a type that is missing, or to one conflict of the
same kind at the same source, with the same clash below the same layers but for the first. -/
inductive EndsAlike : Ending → Ending → Prop
  | nothing : EndsAlike nothing nothing
  | missingType : EndsAlike (.error .missingType, {}) (.error .missingType, {})
  | conflict {e e' : Evidence} (kind : ConflictKind) (hclash : e.conflict.clash = e'.conflict.clash)
    (hlayers : e.conflict.trail.layers.tail = e'.conflict.trail.layers.tail)
    (hsource : e.source = e'.source) (hremaining : e.remaining = e'.remaining) :
    EndsAlike (.ok (), { found := [(e, kind)] }) (.ok (), { found := [(e', kind)] })

variable (s : Site)

/-- The site of another root in the same file. -/
def withRoot (root : NodeId) : Site := { s with root }

/-- What the explanation of a `return` comes to where it is flagged itself. -/
def returnAlone (statement : NodeId) : Ending := (s.withRoot statement).explainReturn {}

/-- The root declares a name of a function type and assigns a function to it that has `return`s; the
result that is asked for is the one that the function is declared to have. -/
structure AssignsFunction (function : NodeId) (result : TypeId) : Prop where
  two_le_children : 2 ≤ (s.source.children s.root).length
  initializer : s.source.lastChild s.root = function
  functionLike : (s.source.kind? function).any Kind.isFunctionLike = true
  asked : ∃ type shape, (s.typeOf (s.source.child s.root 0)).or (s.typeOf s.root) = some type ∧
    s.types.function? type = some shape ∧ shape.result = result
  declared : s.declaredResult function = some result
  returns : s.index.returnsOf function ≠ []

variable {s} {target function : NodeId} {result : TypeId} {mode : Mode}

/-! ### The same file under another root -/

@[simp] theorem conflict?_withRoot (s : Site) (root : NodeId) :
    (s.withRoot root).conflict? = s.conflict? := rfl

@[simp] theorem elementSource_withRoot (s : Site) (root : NodeId) (element : Element) :
    (s.withRoot root).elementSource element = s.elementSource element := by
  cases element <;> rfl

theorem matchElements_withRoot (s : Site) (root : NodeId) (mode : Mode) (t : ElementTarget)
    (known : Circumstances) (elements : List Element) (r : Recorded) :
    (s.withRoot root).matchElements mode t known elements r =
      s.matchElements mode t known elements r := by
  induction elements with
  | nil => rfl
  | cons element rest ih =>
    simp only [matchElements, elementSource_withRoot, conflict?_withRoot, ih]

/-- What is done with a `return` of a function whose declared result is known. -/
theorem returnAlone_eq {statement : NodeId} (hcontainer : s.index.containerOf statement = some function)
    (hresult : s.declaredResult function = some result) :
    s.returnAlone statement =
      if s.source.child statement 0 = NodeId.none then nothing
      else match s.elementsFor result statement with
        | some (element, elements) =>
          s.matchElements s.returnMode ⟨s.describeResult function element, some function, element⟩ {}
            elements {}
        | none =>
          match s.typeOf (s.source.child statement 0) with
          | none => (.error .missingType, {})
          | some type => (.ok (), (s.compareValue s.returnMode function
              (s.describeResult function result) result (s.source.child statement 0) type {}).2) := by
  have hcontainer' : (s.withRoot statement).index.containerOf (s.withRoot statement).root =
      some function := hcontainer
  have hresult' : (s.withRoot statement).declaredResult function = some result := hresult
  simp only [returnAlone, explainReturn, hcontainer', hresult', matchElements_withRoot]
  rfl

/-! ### One comparison -/

/-- Comparisons with one type under different layers come to the same: both find nothing, or both find a
conflict, with the same clash below the same layers but for the first. -/
theorem conflict?_layers (hm : mode.callArgument = false) (type source : TypeId)
    (layer layer' : Layer) :
    (s.conflict? mode type source (Trail.empty.push layer) = none ∧
        s.conflict? mode type source (Trail.empty.push layer') = none) ∨
      ∃ conflict conflict', s.conflict? mode type source (Trail.empty.push layer) = some conflict ∧
        s.conflict? mode type source (Trail.empty.push layer') = some conflict' ∧
        conflict.clash = conflict'.clash ∧
        conflict.trail.layers.tail = conflict'.trail.layers.tail := by
  unfold conflict?
  rw [Comparison.conflict?_push_empty hm, Comparison.conflict?_push_empty hm]
  cases Comparison.conflict? ⟨s.program, mode⟩ type source Trail.empty with
  | none => exact Or.inl ⟨rfl, rfl⟩
  | some conflict =>
    refine Or.inr ⟨_, _, rfl, rfl, rfl, ?_⟩
    simp [Conflict.under, Trail.under, Trail.layers]

/-- What is recorded of two such conflicts is alike. -/
theorem endsAlike_add {e e' : Evidence} (hclash : e.conflict.clash = e'.conflict.clash)
    (hlayers : e.conflict.trail.layers.tail = e'.conflict.trail.layers.tail)
    (hsource : e.source = e'.source) (hremaining : e.remaining = e'.remaining)
    (hcall : e.call = e'.call) :
    EndsAlike (.ok (), ({} : Recorded).add e) (.ok (), ({} : Recorded).add e') := by
  have hkind : e.kind false = e'.kind false := by simp only [Evidence.kind, hclash, hcall]
  have hfound := EndsAlike.conflict (e.kind false) hclash hlayers hsource hremaining
  simpa only [Recorded.add, List.nil_append, ← hkind] using hfound

/-- The elements of a literal come to the same against two targets with one element type. -/
theorem endsAlike_matchElements (hm : mode.callArgument = false) (shown shown' : Description)
    (node node' : Option NodeId) (type : TypeId) (elements : List Element) :
    EndsAlike (s.matchElements mode ⟨shown, node, type⟩ {} elements {})
      (s.matchElements mode ⟨shown', node', type⟩ {} elements {}) := by
  induction elements with
  | nil => exact .nothing
  | cons element rest ih =>
    simp only [matchElements]
    cases s.elementSource element with
    | none => exact .missingType
    | some found =>
      obtain ⟨source, sourceType, sourceShown⟩ := found
      rcases s.conflict?_layers hm type sourceType ⟨shown, .node sourceShown⟩
        ⟨shown', .node sourceShown⟩ with ⟨hnone, hnone'⟩ | ⟨c, c', hc, hc', hclash, hlayers⟩
      · simp only [hnone, hnone']
        exact ih
      · simp only [hc, hc']
        exact endsAlike_add hclash hlayers rfl rfl rfl

/-- A value comes to the same against one type that is shown in two ways. -/
theorem endsAlike_compareValue (hm : mode.callArgument = false) (node node' : NodeId)
    (shown shown' : Description) (type : TypeId) (sourceNode : NodeId) (source : TypeId) :
    EndsAlike (.ok (), (s.compareValue mode node shown type sourceNode source {}).2)
        (.ok (), (s.compareValue mode node' shown' type sourceNode source {}).2) ∧
      ((s.compareValue mode node shown type sourceNode source {}).1 = true ↔
        (s.compareValue mode node' shown' type sourceNode source {}).2 ≠ {}) := by
  unfold compareValue
  rcases s.conflict?_layers hm type source ⟨shown, .node (s.describe sourceNode source)⟩
    ⟨shown', .node (s.describe sourceNode source)⟩ with
    ⟨hnone, hnone'⟩ | ⟨c, c', hc, hc', hclash, hlayers⟩
  · simp only [hnone, hnone']
    exact ⟨.nothing, by simp⟩
  · simp only [hc, hc']
    exact ⟨endsAlike_add hclash hlayers rfl rfl rfl, by simp [Recorded.add]⟩

/-! ### One `return` after the other -/

/-- Going on where nothing was recorded: either the first explanation comes to nothing and the next one
takes its place, or the next one is not asked for. -/
theorem EndsAlike.untilRecorded {first : Explaining} {ending : Ending} (h : EndsAlike (first {}) ending)
    (next : Explaining) :
    (ending = Site.nothing ∧ Misfit.untilRecorded first next {} = next {}) ∨
      (ending ≠ Site.nothing ∧ EndsAlike (Misfit.untilRecorded first next {}) ending) := by
  unfold Misfit.untilRecorded
  generalize first {} = ended at h ⊢
  cases h with
  | nothing => exact Or.inl ⟨rfl, rfl⟩
  | missingType => exact Or.inr ⟨by simp [Site.nothing], .missingType⟩
  | conflict kind hclash hlayers hsource hremaining =>
    exact Or.inr ⟨by simp [Site.nothing], .conflict kind hclash hlayers hsource hremaining⟩

/-- The first of several `return`s is passed over if it comes to nothing on its own; otherwise all of
them come to what it comes to. -/
theorem matchReturns_cons {statement : NodeId} (hcontainer : s.index.containerOf statement = some function)
    (hresult : s.declaredResult function = some result) (target : NodeId) (rest : List NodeId) :
    (s.returnAlone statement = nothing ∧
        s.matchReturns target result (statement :: rest) {} = s.matchReturns target result rest {}) ∨
      (s.returnAlone statement ≠ nothing ∧
        EndsAlike (s.matchReturns target result (statement :: rest) {}) (s.returnAlone statement)) := by
  have hmode : s.returnMode.callArgument = false := rfl
  rw [returnAlone_eq hcontainer hresult]
  simp only [matchReturns]
  by_cases hexpression : s.source.child statement 0 = NodeId.none
  · exact Or.inl ⟨if_pos hexpression, if_pos hexpression⟩
  simp only [if_neg hexpression]
  cases s.elementsFor result statement with
  | some found =>
    obtain ⟨element, elements⟩ := found
    exact (endsAlike_matchElements hmode (s.describe target element) (s.describeResult function element)
      (some target) (some function) element elements).untilRecorded _
  | none =>
    cases s.typeOf (s.source.child statement 0) with
    | none => exact Or.inr ⟨by simp [nothing], .missingType⟩
    | some type =>
      obtain ⟨halike, hfound⟩ := endsAlike_compareValue hmode target function (s.describe target result)
        (s.describeResult function result) result (s.source.child statement 0) type (s := s)
      dsimp only
      generalize s.compareValue s.returnMode function _ result _ type {} = alone at halike hfound ⊢
      cases hvalue : s.compareValue s.returnMode target (s.describe target result) result
          (s.source.child statement 0) type {} with
      | mk conflicts r =>
        rw [hvalue] at halike hfound
        cases conflicts with
        | true => exact Or.inr ⟨by simpa [nothing] using hfound, halike⟩
        | false =>
          have hr : r = {} := s.compareValue_eq_false hvalue
          have halone : alone.2 = {} := by simpa using hfound
          exact Or.inl ⟨by rw [halone, nothing], by rw [hr]⟩

/-- Several `return`s of a function come to what the first of them comes to that comes to anything. By
induction on the ones before it. -/
theorem matchReturns_of_first {returns : List NodeId}
    (hcontainer : ∀ statement ∈ returns, s.index.containerOf statement = some function)
    (hresult : s.declaredResult function = some result) (target : NodeId) :
    ((∀ statement ∈ returns, s.returnAlone statement = nothing) →
        s.matchReturns target result returns {} = nothing) ∧
      ∀ before statement after, returns = before ++ statement :: after →
        (∀ earlier ∈ before, s.returnAlone earlier = nothing) → s.returnAlone statement ≠ nothing →
        EndsAlike (s.matchReturns target result returns {}) (s.returnAlone statement) := by
  induction returns with
  | nil => exact ⟨fun _ => rfl, fun before _ _ h => by simp at h⟩
  | cons first rest ih =>
    obtain ⟨hfirst, hrest⟩ := List.forall_mem_cons.mp hcontainer
    obtain ⟨ihnothing, ihfirst⟩ := ih hrest
    rcases matchReturns_cons hfirst hresult target rest with ⟨halone, hskip⟩ | ⟨halone, hends⟩
    · rw [hskip]
      refine ⟨fun hall => ihnothing (List.forall_mem_cons.mp hall).2,
        fun before statement after heq hbefore hstatement => ?_⟩
      cases before with
      | nil =>
        obtain ⟨rfl, rfl⟩ := List.cons.inj heq
        exact (hstatement halone).elim
      | cons earlier before =>
        obtain ⟨rfl, rfl⟩ := List.cons.inj heq
        exact ihfirst before statement after rfl (List.forall_mem_cons.mp hbefore).2 hstatement
    · refine ⟨fun hall => (halone (List.forall_mem_cons.mp hall).1).elim,
        fun before statement after heq hbefore _ => ?_⟩
      cases before with
      | nil =>
        obtain ⟨rfl, rfl⟩ := List.cons.inj heq
        exact hends
      | cons earlier before =>
        obtain ⟨rfl, rfl⟩ := List.cons.inj heq
        exact (halone (List.forall_mem_cons.mp hbefore).1).elim

/-- A function type has no elements. -/
theorem elementsFor_of_function? {type : TypeId} {shape : FunctionShape}
    (h : s.types.function? type = some shape) (site : NodeId) : s.elementsFor type site = none := by
  have helement : s.types.element? type = none := by
    unfold Types.function? at h
    unfold Types.element?
    split at h
    · rename_i hget
      rw [hget]
    · simp at h
  simp only [elementsFor, helement]

/-- The declaration is explained by what the function returns. -/
theorem AssignsFunction.explainDeclaration_eq (h : s.AssignsFunction function result) :
    s.explainDeclaration {} = s.explainFunction (s.source.child s.root 0) result function {} := by
  obtain ⟨type, shape, htype, hshape, hresult⟩ := h.asked
  have hkind : s.source.kind? function ≠ some .annotatedType := fun hkind => by
    have hlike := h.functionLike
    rw [hkind] at hlike
    exact Bool.false_ne_true hlike
  have hdeclares : ¬((s.source.children s.root).length < 2 ∨
      s.source.kind? (s.source.lastChild s.root) = some .annotatedType) := by
    rw [h.initializer]
    exact not_or.mpr ⟨Nat.not_lt.mpr h.two_le_children, hkind⟩
  have hasked : s.resultFor? type function = some result := by
    simp only [resultFor?, h.functionLike, if_true, hshape, Option.map_some, hresult]
  simp only [explainDeclaration, htype]
  rw [if_neg hdeclares]
  simp only [explainAssigned, elementsFor_of_function? hshape, h.initializer, hasked]

theorem explainFunction_of_returns (h : s.index.returnsOf function ≠ []) (target : NodeId)
    (result : TypeId) :
    s.explainFunction target result function = s.matchReturns target result (s.index.returnsOf function) := by
  unfold explainFunction
  split
  · exact (h ‹_›).elim
  · rfl

/-- What a `return` comes to on its own. -/
theorem EndsAlike.cases_right {ending ending' : Ending} (h : EndsAlike ending ending') :
    ending' = Site.nothing ∨ ending' = (.error .missingType, {}) ∨
      ∃ entry, ending' = (.ok (), { found := [entry] }) := by
  cases h with
  | nothing => exact Or.inl rfl
  | missingType => exact Or.inr (Or.inl rfl)
  | conflict => exact Or.inr (Or.inr ⟨_, rfl⟩)

/-- The explanation of an assigned function agrees with the explanations of its `return`s one by one. On
its own each of them comes to nothing, to a missing type or to one conflict. The assignment comes to
nothing if they all do, and otherwise to what the first `return` comes to that comes to anything. -/
theorem explainDeclaration_of_returns (hindex : s.index = Index.build s.source)
    (h : s.AssignsFunction function result) :
    let returns := s.index.returnsOf function
    let explained := s.explainFunction (s.source.child s.root 0) result function {}
    s.explainDeclaration {} = explained ∧
      (∀ statement ∈ returns, s.returnAlone statement = nothing ∨
        s.returnAlone statement = (.error .missingType, {}) ∨
        ∃ entry, s.returnAlone statement = (.ok (), { found := [entry] })) ∧
      ((∀ statement ∈ returns, s.returnAlone statement = nothing) → explained = nothing) ∧
      ∀ before statement after, returns = before ++ statement :: after →
        (∀ earlier ∈ before, s.returnAlone earlier = nothing) → s.returnAlone statement ≠ nothing →
        EndsAlike explained (s.returnAlone statement) := by
  intro returns explained
  have hcontainer : ∀ statement ∈ returns, s.index.containerOf statement = some function := by
    intro statement hstatement
    simp only [returns, hindex] at hstatement ⊢
    exact Index.containerOf_of_mem_returnsOf hstatement
  have hexplained : explained = s.matchReturns (s.source.child s.root 0) result returns {} :=
    congrFun (explainFunction_of_returns h.returns _ _) _
  obtain ⟨hnothing, hfirst⟩ := matchReturns_of_first hcontainer h.declared (s.source.child s.root 0)
  refine ⟨h.explainDeclaration_eq, fun statement hstatement => ?_, ?_, ?_⟩
  · rcases matchReturns_cons (hcontainer statement hstatement) h.declared
      (s.source.child s.root 0) [] with ⟨halone, -⟩ | ⟨-, halike⟩
    · exact Or.inl halone
    · exact halike.cases_right
  · rwa [hexplained]
  · rwa [hexplained]

/-- `const f: () => number[] = () => \x7b return; return [1, "x", 1]; \x7d`. -/
def listReturns : Site :=
  let (t, numbers) := Types.initial.array .number
  let (t, makesNumbers) := t.function { result := numbers }
  let d : Draft := { name := "a.ts" }
  let (d, early) := d.returnStatement none
  let (d, one) := d.numericLiteral "1"
  let (d, text) := d.stringLiteral "x"
  let (d, literal) := d.arrayLiteral [one, text, one]
  let (d, late) := d.returnStatement (some literal)
  let (d, body) := d.block [early, late]
  let (d, arrow) := d.arrowFunction [] body
  let (d, root) := d.variableDeclaration "f" (some "() => number[]") (some arrow)
  let (d, statement) := d.variableStatement root
  let source := d.finish [statement]
  let nodeTypes := [((⟨0⟩, arrow), makesNumbers), ((⟨0⟩, root), makesNumbers),
    ((⟨0⟩, one), TypeId.number), ((⟨0⟩, text), TypeId.string)]
  { program := { types := t, files := [source], nodeTypes }, options := {}, file := ⟨0⟩, source
    index := Index.build source, flagged := root, root }

/-- The second `return` decides: its second element does not fit, and one is left. -/
theorem explainDeclaration_listReturns :
    let s := listReturns
    s.AssignsFunction ⟨6⟩ ⟨15⟩ ∧ s.index.returnsOf ⟨6⟩ = [⟨0⟩, ⟨4⟩] ∧ s.returnAlone ⟨0⟩ = nothing ∧
      (s.explainDeclaration {}).2.found.map (fun entry => entry.1.remaining) = [1] ∧
      EndsAlike (s.explainDeclaration {}) (s.returnAlone ⟨4⟩) := by
  intro s
  have hasked : (s.typeOf (s.source.child s.root 0)).or (s.typeOf s.root) = some ⟨16⟩ := by
    decide +kernel
  have hassigns : s.AssignsFunction ⟨6⟩ ⟨15⟩ :=
    { two_le_children := by decide +kernel
      initializer := by decide +kernel
      functionLike := by decide +kernel
      asked := ⟨⟨16⟩, { result := ⟨15⟩ }, hasked, by decide +kernel, rfl⟩
      declared := by decide +kernel
      returns := by decide +kernel }
  have hreturns : s.index.returnsOf ⟨6⟩ = [⟨0⟩, ⟨4⟩] := by decide +kernel
  have hcontainer : s.index.containerOf ⟨0⟩ = some ⟨6⟩ := by decide +kernel
  have hearly : s.returnAlone ⟨0⟩ = nothing := by
    rw [returnAlone_eq hcontainer hassigns.declared]
    exact if_pos (by decide +kernel)
  have hlate : s.returnAlone ⟨4⟩ ≠ nothing := fun heq => by
    have hfound : (s.returnAlone ⟨4⟩).2.found.length = 1 := by decide +kernel
    simp [heq, nothing] at hfound
  obtain ⟨hexplained, -, -, hfirst⟩ := explainDeclaration_of_returns rfl hassigns
  refine ⟨hassigns, hreturns, hearly, by decide +kernel, ?_⟩
  rw [hexplained]
  exact hfirst [⟨0⟩] ⟨4⟩ [] hreturns (by simpa using hearly) hlate

end Site

end Misfit
