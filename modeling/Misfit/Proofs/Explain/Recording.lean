import Misfit.Explain.Root

/-!
# What an explanation records

An explanation stops at the first conflict: where one is recorded, the explanation ends, and ends well.
So every way through a site either leaves what is recorded as it was or adds a single entry, and nothing
that fails has recorded one before. Three sorts of entries are recorded: conflicts that a comparison
finds, conflicts about a key that an object does not have, and a wrong number of arguments.
-/
namespace Misfit

/-- The number of arguments is right. -/
structure CallOutline.Fits (o : CallOutline) : Prop where
  tooMany : o.tooMany = false
  tooFew : o.tooFew = false

theorem CallOutline.fits_of_mem_none : ∀ o ∈ (none : Option CallOutline), o.Fits := by simp

/-- The entries that are recorded where no map has been met before that rejects a key. Those of a call,
and no others, have an outline. -/
inductive IsEntry (atCall : Bool) : Evidence × ConflictKind → Prop
  /-- Types are compared in a call only if the number of its arguments is right. -/
  | compared {e : Evidence} {c : Comparison} {target source : TypeId} {trail : Trail} {layer : Layer}
    (hconflict : c.conflict? target source (trail.push layer) = some e.conflict)
    (hfits : ∀ o ∈ e.call, o.Fits) (hcall : e.call.isSome = atCall) (hkey : e.missingKey = none) :
    IsEntry atCall (e, e.kind false)
  | aboutKey {e : Evidence} {s : Site} {base : Trail} {node : NodeId} {placeholder : Description}
    {key : MissingKey} (indexed : Bool)
    (hconflict : e.conflict = s.placeholderConflict base node key.type placeholder key.key)
    (hkey : e.missingKey = some key) (hcall : e.call = none) (hatCall : atCall = false) :
    IsEntry atCall (e, e.kind indexed)
  | counted {o : CallOutline} {callee : NodeId} {arguments : List Argument} {position : Nat}
    (indexed : Bool) (hwrong : ¬o.Fits) (hatCall : atCall = true) :
    IsEntry atCall (o.arityEvidence callee arguments position,
      (o.arityEvidence callee arguments position).kind indexed)

/-- How an explanation can have ended that went on from `r`: with nothing more on record, or well and
with one more entry. -/
inductive AtMostOne (atCall : Bool) (r : Recorded) : Except Reason Unit × Recorded → Prop
  | unchanged {ended : Except Reason Unit} {r' : Recorded} (h : r' = r) : AtMostOne atCall r (ended, r')
  | one {r' : Recorded} (entry : Evidence × ConflictKind) (hadded : r'.found = r.found ++ [entry])
    (hentry : IsEntry atCall entry) : AtMostOne atCall r (.ok (), r')

/-- Unless a map has been met before that rejects a key, the explanation adds at most one entry, and
fails only without one. -/
def RecordsAtMostOne (atCall : Bool) (explaining : Explaining) : Prop :=
  ∀ r, r.missingIndex = false → AtMostOne atCall r (explaining r)

variable {atCall : Bool}

theorem atMostOne_self {r : Recorded} {ended : Except Reason Unit} : AtMostOne atCall r (ended, r) :=
  .unchanged rfl

/-- A conflict that a comparison finds is recorded. -/
theorem atMostOne_add {r : Recorded} (hr : r.missingIndex = false) {e : Evidence} {c : Comparison}
    {target source : TypeId} {trail : Trail} {layer : Layer}
    (hconflict : c.conflict? target source (trail.push layer) = some e.conflict)
    (hfits : ∀ o ∈ e.call, o.Fits) (hcall : e.call.isSome = atCall) (hkey : e.missingKey = none) :
    AtMostOne atCall r (.ok (), r.add e) :=
  .one (e, e.kind r.missingIndex) rfl (hr ▸ .compared hconflict hfits hcall hkey)

/-- An explanation that goes on only where nothing was recorded still adds at most one entry. -/
theorem recordsAtMostOne_untilRecorded {first next : Explaining}
    (hfirst : RecordsAtMostOne atCall first) (hnext : RecordsAtMostOne atCall next) :
    RecordsAtMostOne atCall (untilRecorded first next) := by
  intro r hr
  unfold untilRecorded
  cases hx : first r with
  | mk ended r' =>
    have h := hfirst r hr
    rw [hx] at h
    cases h with
    | unchanged h =>
      subst h
      cases ended with
      | error reason => exact atMostOne_self
      | ok _ =>
        simp only [Nat.lt_irrefl, if_false]
        exact hnext _ hr
    | one entry hadded hentry =>
      have hlength : r.found.length < r'.found.length := by simp [hadded]
      simp only [hlength, if_true]
      exact .one entry hadded hentry

/-- A call offends at no position exactly if the number of its arguments is right. -/
theorem Site.offending?_outline_eq_none_iff (s : Site) (arguments : List Argument)
    (parameters : List Parameter) :
    (s.outline arguments parameters).offending? parameters.length = none ↔
      (s.outline arguments parameters).Fits := by
  have hfits : (s.outline arguments parameters).Fits ↔ ¬parameters.length < arguments.length ∧
      ∀ pair ∈ pairUp arguments parameters, pair.isUnmet = false :=
    ⟨fun h => ⟨by simpa [outline] using h.tooMany, by simpa [outline] using h.tooFew⟩,
      fun h => ⟨by simpa [outline] using h.1, by simpa [outline] using h.2⟩⟩
  rw [hfits, CallOutline.offending?]
  by_cases hmany : parameters.length < arguments.length
  · simp [outline, hmany]
  · simp [outline, hmany, List.findIdx?_eq_none_iff]

namespace Site

variable (s : Site)

theorem recordsAtMostOne_matchElements (mode : Mode) (target : ElementTarget) (known : Circumstances)
    (hfits : ∀ o ∈ known.call, o.Fits) (hcall : known.call.isSome = atCall)
    (hkey : known.missingKey = none) (elements : List Element) :
    RecordsAtMostOne atCall (s.matchElements mode target known elements) := by
  intro r hr
  induction elements with
  | nil => exact atMostOne_self
  | cons element rest ih =>
    rw [matchElements]
    split
    · exact atMostOne_self
    · split
      · exact ih
      · rename_i conflict hconflict
        exact atMostOne_add hr hconflict hfits hcall hkey

theorem atMostOne_compareValue (mode : Mode) (targetNode : NodeId) (shown : Description)
    (target : TypeId) (sourceNode : NodeId) (source : TypeId) {r : Recorded}
    (hr : r.missingIndex = false) :
    AtMostOne false r (.ok (), (s.compareValue mode targetNode shown target sourceNode source r).2) := by
  rw [compareValue]
  split
  · exact atMostOne_self
  · rename_i conflict hconflict
    exact atMostOne_add hr hconflict CallOutline.fits_of_mem_none rfl rfl

/-- Nothing is recorded of a value that fits. -/
theorem compareValue_eq_false {mode : Mode} {targetNode : NodeId} {shown : Description}
    {target : TypeId} {sourceNode : NodeId} {source : TypeId} {r r' : Recorded}
    (h : s.compareValue mode targetNode shown target sourceNode source r = (false, r')) : r' = r := by
  rw [compareValue] at h
  split at h
  · exact (Prod.mk.inj h).2.symm
  · simp at h

theorem recordsAtMostOne_matchReturns (target : NodeId) (result : TypeId) (statements : List NodeId) :
    RecordsAtMostOne false (s.matchReturns target result statements) := by
  induction statements with
  | nil => exact fun _ _ => atMostOne_self
  | cons statement rest ih =>
    intro r hr
    simp only [matchReturns]
    split
    · exact ih r hr
    · split
      · exact recordsAtMostOne_untilRecorded
          (s.recordsAtMostOne_matchElements _ _ {} CallOutline.fits_of_mem_none rfl rfl _) ih r hr
      · split
        · exact atMostOne_self
        · rename_i type _
          have hvalue := s.atMostOne_compareValue s.returnMode target (s.describe target result) result
            (s.source.child statement 0) type hr
          split
          · rename_i r' hcompare
            rwa [hcompare] at hvalue
          · rename_i r' hcompare
            rw [s.compareValue_eq_false hcompare]
            exact ih r hr

theorem recordsAtMostOne_matchBody (target : NodeId) (result : TypeId) (function : NodeId) :
    RecordsAtMostOne false (s.matchBody target result function) := by
  intro r hr
  simp only [matchBody]
  split
  · exact atMostOne_self
  · exact atMostOne_self
  · exact s.atMostOne_compareValue _ _ _ _ _ _ hr

theorem recordsAtMostOne_explainFunction (target : NodeId) (result : TypeId) (function : NodeId) :
    RecordsAtMostOne false (s.explainFunction target result function) := by
  unfold explainFunction
  split
  · exact s.recordsAtMostOne_matchBody target result function
  · exact s.recordsAtMostOne_matchReturns target result _

theorem recordsAtMostOne_explainReturn : RecordsAtMostOne false s.explainReturn := by
  intro r hr
  unfold explainReturn
  split
  · exact atMostOne_self
  · split
    · exact atMostOne_self
    · dsimp only
      split
      · exact atMostOne_self
      · split
        · exact s.recordsAtMostOne_matchElements _ _ {} CallOutline.fits_of_mem_none rfl rfl _ r hr
        · split
          · exact atMostOne_self
          · exact s.atMostOne_compareValue _ _ _ _ _ _ hr

theorem recordsAtMostOne_compareAssigned (target : NodeId) (targetType : TypeId) (value : NodeId) :
    RecordsAtMostOne false (s.compareAssigned target targetType value) := by
  intro r hr
  unfold compareAssigned
  split
  · exact atMostOne_self
  · dsimp only
    split
    · exact atMostOne_self
    · rename_i conflict hconflict
      exact atMostOne_add hr hconflict CallOutline.fits_of_mem_none rfl rfl

/-- A read that a map rejects is about the key that is read. -/
theorem isEntry_rejectedRead? {value : NodeId} {e : Evidence} (h : s.rejectedRead? value = some e) :
    IsEntry false (e, e.kind true) := by
  unfold rejectedRead? at h
  split at h
  · unfold rejectedKey? at h
    dsimp only at h
    split at h
    · split at h
      · simp at h
      · obtain rfl := Option.some.inj h
        exact .aboutKey true rfl rfl rfl rfl
    · simp at h
  · simp at h

theorem recordsAtMostOne_explainAssigned (site target : NodeId) (targetType : TypeId)
    (value : NodeId) : RecordsAtMostOne false (s.explainAssigned site target targetType value) := by
  intro r hr
  unfold explainAssigned
  split
  · exact s.recordsAtMostOne_matchElements _ _ {} CallOutline.fits_of_mem_none rfl rfl _ r hr
  · split
    · exact s.recordsAtMostOne_explainFunction target _ value r hr
    · split
      · rename_i evidence hevidence
        exact .one (evidence, evidence.kind true) rfl (s.isEntry_rejectedRead? hevidence)
      · exact s.recordsAtMostOne_compareAssigned target targetType value r hr

theorem recordsAtMostOne_explainDeclaration : RecordsAtMostOne false s.explainDeclaration := by
  intro r hr
  unfold explainDeclaration
  dsimp only
  split
  · exact atMostOne_self
  · split
    · exact atMostOne_self
    · exact s.recordsAtMostOne_explainAssigned _ _ _ _ r hr

theorem recordsAtMostOne_explainStatement : RecordsAtMostOne false s.explainStatement := by
  intro r hr
  unfold explainStatement
  dsimp only
  split
  · exact atMostOne_self
  · split
    · split
      · exact atMostOne_self
      · exact s.recordsAtMostOne_explainAssigned _ _ _ _ r hr
    · exact atMostOne_self

theorem recordsAtMostOne_explainWrite : RecordsAtMostOne false s.explainWrite := by
  intro r hr
  unfold explainWrite
  split
  · exact atMostOne_self
  · split
    · exact atMostOne_self
    · dsimp only
      split
      · exact atMostOne_self
      · split
        · exact .one _ rfl (.aboutKey _ rfl rfl rfl rfl)
        · exact .one _ rfl (.aboutKey _ rfl rfl rfl rfl)

/-- Arguments are compared only if their number is right. -/
theorem recordsAtMostOne_matchArguments (callee : NodeId) {o : CallOutline} (ho : o.Fits)
    (parameters : List Parameter) (arguments : List Argument) :
    RecordsAtMostOne true (s.matchArguments callee o parameters arguments) := by
  have hfits : ∀ o' ∈ some o, o'.Fits := by simpa using ho
  induction parameters generalizing arguments with
  | nil => exact fun _ _ => by cases arguments <;> exact atMostOne_self
  | cons parameter parameters ih =>
    intro r hr
    cases arguments with
    | nil => exact atMostOne_self
    | cons argument arguments =>
      rw [matchArguments]
      split
      · exact recordsAtMostOne_untilRecorded
          (s.recordsAtMostOne_matchElements _ _ { call := some o } hfits rfl rfl _) (ih arguments) r hr
      · split
        · exact ih arguments r hr
        · rename_i conflict hconflict
          exact atMostOne_add hr hconflict hfits rfl rfl

theorem recordsAtMostOne_explainArguments (parameters : List Parameter) :
    RecordsAtMostOne true (s.explainArguments parameters) := by
  intro r hr
  unfold explainArguments
  split
  · exact atMostOne_self
  · rename_i arguments _
    dsimp only
    split
    · rename_i position hposition
      have hwrong : ¬(s.outline arguments parameters).Fits := fun h => by
        simp [(s.offending?_outline_eq_none_iff arguments parameters).mpr h] at hposition
      exact .one _ rfl (.counted _ hwrong rfl)
    · rename_i hnone
      have hfits := (s.offending?_outline_eq_none_iff arguments parameters).mp hnone
      exact s.recordsAtMostOne_matchArguments _ hfits _ _ r hr

theorem recordsAtMostOne_explainCall : RecordsAtMostOne true fun r => (s.explainCall r).2 := by
  intro r hr
  unfold explainCall
  split
  · exact atMostOne_self
  · exact recordsAtMostOne_explainArguments _ _ r hr

/-- The explanation of a site records at most one entry, and fails only without one. -/
theorem recordsAtMostOne_explain :
    RecordsAtMostOne (s.source.kind? s.root = some .callExpression) fun r => (s.explain r).2 := by
  intro r hr
  unfold explain
  split
  case h_4 hkind => simpa [hkind] using s.recordsAtMostOne_explainCall r hr
  case h_1 hkind => simpa [hkind] using s.recordsAtMostOne_explainDeclaration r hr
  case h_2 hkind => simpa [hkind] using s.recordsAtMostOne_explainStatement r hr
  case h_3 hkind => simpa [hkind] using s.recordsAtMostOne_explainReturn r hr
  case h_5 hkind => simpa [hkind] using s.recordsAtMostOne_explainWrite r hr
  case h_6 => exact atMostOne_self

end Site

end Misfit
