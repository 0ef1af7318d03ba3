import Misfit.Explain.Root

/-!
# The flagged node

The flagged node decides which root is explained. After that nothing is read of it but the argument of a
call that it lies in, and this is only noted in the outline of the call. So the roots of two flagged
nodes get the same explanation if they are one root, except for that note and the code.
-/
namespace Misfit

/-! ### What is left without the note -/

/-- The outline without the position of the flagged argument. -/
def CallOutline.unflagged (o : CallOutline) : CallOutline := { o with flagged := none }

namespace Evidence

def unflagged (e : Evidence) : Evidence := { e with call := e.call.map CallOutline.unflagged }

/-- The kind of a conflict does not depend on which argument was flagged. -/
@[simp] theorem kind_unflagged (e : Evidence) (missingIndex : Bool) :
    e.unflagged.kind missingIndex = e.kind missingIndex := by
  unfold kind Clash.classify unflagged
  cases e.call <;> rfl

end Evidence

namespace Recorded

def unflagged (r : Recorded) : Recorded :=
  { r with found := r.found.map fun entry => (entry.1.unflagged, entry.2) }

@[simp] theorem unflagged_add (r : Recorded) (e : Evidence) :
    (r.add e).unflagged = r.unflagged.add e.unflagged := by
  simp [unflagged, add]

@[simp] theorem length_found_unflagged (r : Recorded) :
    r.unflagged.found.length = r.found.length := by
  simp [unflagged]

end Recorded

/-- What is known of a conflict before it is found, without the position of the flagged argument. -/
def Circumstances.unflagged (known : Circumstances) : Circumstances :=
  { known with call := known.call.map CallOutline.unflagged }

/-- The explanation without its code and the position of the flagged argument. -/
def Explanation.unflagged (e : Explanation) : Explanation :=
  { e with code := 0, call := e.call.map CallOutline.unflagged }

/-- The entry without its code. -/
def Unexplained.unflagged (u : Unexplained) : Unexplained := { u with code := 0 }

def Outcome.unflagged : Outcome → Outcome
  | explained es => explained (es.map Explanation.unflagged)
  | unexplained u => unexplained u.unflagged

/-- The second explanation comes to what the first one comes to without the position of the flagged
argument. -/
def Unflags (explaining explaining' : Explaining) : Prop :=
  ∀ r, (explaining r).map id Recorded.unflagged = explaining' r.unflagged

/-- Whether anything has been recorded does not depend on which argument was flagged. -/
theorem unflags_untilRecorded {first first' next next' : Explaining} (hfirst : Unflags first first')
    (hnext : Unflags next next') : Unflags (untilRecorded first next) (untilRecorded first' next') := by
  intro r
  unfold untilRecorded
  have h := hfirst r
  cases hx : first r with
  | mk ended r₁ =>
    rw [hx] at h
    simp only [← h, Prod.map, id]
    cases ended with
    | error reason => rfl
    | ok _ =>
      simp only [Recorded.length_found_unflagged]
      split
      · rfl
      · exact hnext r₁

namespace Site

/-- The site with another flagged node. -/
def flag (s : Site) (node : NodeId) : Site := { s with flagged := node }

variable (s : Site) (node : NodeId)

/-! ### Who does not look at the flagged node -/

theorem matchElements_flag (mode : Mode) (target : ElementTarget) (known : Circumstances)
    (elements : List Element) :
    (s.flag node).matchElements mode target known elements =
      s.matchElements mode target known elements := by
  funext r
  induction elements with
  | nil => rfl
  | cons element rest ih =>
    simp only [matchElements, ih]
    cases element <;> rfl

theorem matchReturns_flag (target : NodeId) (result : TypeId) (statements : List NodeId) :
    (s.flag node).matchReturns target result statements = s.matchReturns target result statements := by
  induction statements with
  | nil => rfl
  | cons statement rest ih =>
    funext r
    simp only [matchReturns, ih, matchElements_flag]
    rfl

theorem segments_flag (before : Option Segment) (hops : List (NodeId × String)) :
    (s.flag node).segments before hops = s.segments before hops := by
  induction hops generalizing before with
  | nil => rfl
  | cons hop rest ih =>
    simp only [segments, ih]
    rfl

theorem accessPath_flag (access : NodeId) :
    (s.flag node).accessPath access = s.accessPath access := s.segments_flag node none _

theorem explainReturn_flag : (s.flag node).explainReturn = s.explainReturn := by
  funext r
  simp only [explainReturn, matchElements_flag]
  rfl

theorem explainFunction_flag (target : NodeId) (result : TypeId) (function : NodeId) :
    (s.flag node).explainFunction target result function = s.explainFunction target result function := by
  funext r
  simp only [explainFunction, matchReturns_flag]
  rfl

theorem compareAssigned_flag (target : NodeId) (targetType : TypeId) (value : NodeId) :
    (s.flag node).compareAssigned target targetType value =
      s.compareAssigned target targetType value := by
  funext r
  simp only [compareAssigned, trailTo, accessPath_flag]
  rfl

theorem explainAssigned_flag (site target : NodeId) (targetType : TypeId) (value : NodeId) :
    (s.flag node).explainAssigned site target targetType value =
      s.explainAssigned site target targetType value := by
  funext r
  simp only [explainAssigned, matchElements_flag, explainFunction_flag, compareAssigned_flag]
  rfl

theorem explainDeclaration_flag : (s.flag node).explainDeclaration = s.explainDeclaration := by
  funext r
  simp only [explainDeclaration, explainAssigned_flag]
  rfl

theorem explainStatement_flag : (s.flag node).explainStatement = s.explainStatement := by
  funext r
  simp only [explainStatement, explainAssigned_flag]
  rfl

theorem explainWrite_flag : (s.flag node).explainWrite = s.explainWrite := by
  funext r
  simp only [explainWrite, accessPath_flag]
  rfl

theorem matchArguments_flag (callee : NodeId) (o : CallOutline) (parameters : List Parameter)
    (arguments : List Argument) :
    (s.flag node).matchArguments callee o parameters arguments =
      s.matchArguments callee o parameters arguments := by
  induction parameters generalizing arguments with
  | nil => cases arguments <;> rfl
  | cons parameter parameters ih =>
    cases arguments with
    | nil => rfl
    | cons argument arguments =>
      funext r
      simp only [matchArguments, ih, matchElements_flag]
      rfl

/-! ### Calls -/

theorem unflags_matchElements (mode : Mode) (target : ElementTarget) (known : Circumstances)
    (elements : List Element) :
    Unflags (s.matchElements mode target known elements)
      (s.matchElements mode target known.unflagged elements) := by
  intro r
  induction elements with
  | nil => rfl
  | cons element rest ih =>
    simp only [matchElements]
    cases s.elementSource element with
    | none => rfl
    | some found =>
      obtain ⟨source, type, shown⟩ := found
      dsimp only
      cases s.conflict? mode target.element type (Trail.empty.push ⟨target.shown, .node shown⟩) with
      | none => exact ih
      | some conflict => exact Prod.ext rfl (r.unflagged_add _)

/-- The outline is handed on into what is recorded, and only its counts are read. -/
theorem unflags_matchArguments (callee : NodeId) (o : CallOutline) (parameters : List Parameter)
    (arguments : List Argument) :
    Unflags (s.matchArguments callee o parameters arguments)
      (s.matchArguments callee o.unflagged parameters arguments) := by
  induction parameters generalizing arguments with
  | nil => exact fun r => by cases arguments <;> rfl
  | cons parameter parameters ih =>
    intro r
    cases arguments with
    | nil => rfl
    | cons argument arguments =>
      simp only [matchArguments]
      cases s.elementsOf? parameter argument with
      | some found =>
        obtain ⟨element, elements⟩ := found
        exact unflags_untilRecorded (s.unflags_matchElements _ _ { call := some o } elements)
          (ih arguments) r
      | none =>
        dsimp only
        cases s.conflict? Mode.call parameter.type argument.type
            (Trail.empty.push ⟨parameter.shown, .node argument.shown⟩) with
        | none => exact ih arguments r
        | some conflict => exact Prod.ext rfl (r.unflagged_add _)

theorem explainArguments_flag (parameters : List Parameter) (r : Recorded) :
    ((s.flag node).explainArguments parameters r).map id Recorded.unflagged =
      (s.explainArguments parameters r).map id Recorded.unflagged := by
  have htyped : (s.flag node).typedArguments? ((s.flag node).argumentNodes (s.flag node).root) =
      s.typedArguments? (s.argumentNodes s.root) := rfl
  simp only [explainArguments, htyped]
  cases s.typedArguments? (s.argumentNodes s.root) with
  | none => rfl
  | some arguments =>
    -- The two outlines differ in the flagged position only, so both offend at the same place.
    let o := s.outline arguments parameters
    have hoffending : ((s.flag node).outline arguments parameters).offending? parameters.length =
        o.offending? parameters.length := rfl
    dsimp only
    rw [hoffending]
    cases o.offending? parameters.length with
    | some position =>
      simp only [Prod.map, Recorded.unflagged_add]
      rfl
    | none =>
      dsimp only
      rw [matchArguments_flag, s.unflags_matchArguments, s.unflags_matchArguments]
      rfl

/-! ### The explanation of a root -/

/-- Explaining a site with another flagged node enters the same types and comes to the same, except for
the position of the flagged argument. -/
theorem explain_flag (r : Recorded) :
    ((s.flag node).explain r).1 = (s.explain r).1 ∧
      ((s.flag node).explain r).2.map id Recorded.unflagged =
        (s.explain r).2.map id Recorded.unflagged := by
  have hkind : (s.flag node).source.kind? (s.flag node).root = s.source.kind? s.root := rfl
  simp only [explain, hkind]
  split
  · rw [explainDeclaration_flag]
    exact ⟨rfl, rfl⟩
  · rw [explainStatement_flag]
    exact ⟨rfl, rfl⟩
  · rw [explainReturn_flag]
    exact ⟨rfl, rfl⟩
  · have hsignature : (s.flag node).signature? = s.signature? := rfl
    simp only [explainCall, hsignature]
    cases s.signature? with
    | none => exact ⟨rfl, rfl⟩
    | some shape =>
      refine ⟨rfl, ?_⟩
      exact explainArguments_flag { s with program := (s.program.narrowParameters shape.parameters).1 }
        node (s.program.narrowParameters shape.parameters).2 r
  · rw [explainWrite_flag]
    exact ⟨rfl, rfl⟩
  · exact ⟨rfl, rfl⟩

/-- What comes of a site, without code and flagged argument, is made of what is recorded without them. -/
theorem unflagged_outcome (code : Nat) (rootKind : Kind) (ended : Except Reason Unit × Recorded) :
    (s.outcome code rootKind ended).unflagged =
      s.outcome 0 rootKind (ended.map id Recorded.unflagged) := by
  obtain ⟨result, r⟩ := ended
  cases result with
  | error reason => rfl
  | ok _ =>
    have hfound : r.unflagged.found = [] ↔ r.found = [] := by simp [Recorded.unflagged]
    simp only [outcome, Prod.map, id, hfound]
    split
    · rfl
    · simp only [Outcome.unflagged, Recorded.unflagged, List.map_map]
      rfl

/-- What comes of a root is the same for every node that is flagged and every code, except for these
two. -/
theorem outcome_flag (code code' : Nat) (rootKind : Kind) :
    ((s.flag node).outcome code' rootKind ((s.flag node).explain {}).2).unflagged =
      (s.outcome code rootKind (s.explain {}).2).unflagged := by
  rw [unflagged_outcome, unflagged_outcome, (s.explain_flag node {}).2]
  rfl

end Site

end Misfit
