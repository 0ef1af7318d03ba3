import Misfit.Record.Clash

/-!
# Reports

What a run hands back: for every flagged statement either an explanation of its conflict or the reason
why there is none. All of it is plain data.
-/
namespace Misfit

/-- The key that a value without a node of its own was compared with. -/
structure MissingKey where
  key : String
  type : TypeId
  deriving DecidableEq, Repr

/-- A conflict and where it was found, as the explanation of a statement hands it over. -/
structure Evidence where
  conflict : Conflict
  source : Option NodeId := none
  target : Option NodeId := none
  call : Option CallOutline := none
  missingKey : Option MissingKey := none
  /-- Elements or arguments after the one that does not fit; they were not compared. -/
  remaining : Nat := 0
  deriving DecidableEq, Repr

namespace Evidence

/-- What kind of conflict the evidence shows, given whether a map was met that rejects the key. -/
def kind (e : Evidence) (missingIndex : Bool) : ConflictKind :=
  e.conflict.clash.classify e.call missingIndex

end Evidence

/-- Why a statement has no explanation. -/
inductive Reason
  /-- Nothing is known about splitting statements of this kind. -/
  | unsupportedKind
  /-- Every comparison succeeded. -/
  | noConflictFound
  /-- What is called has no signature. -/
  | missingSignature
  /-- The type of a node that matters is not known. -/
  | missingType
  deriving DecidableEq, Repr

/-- The key under which a reason is reported. -/
def Reason.key : Reason → String
  | unsupportedKind => "unsupportedKind"
  | noConflictFound => "noConflictFound"
  | missingSignature => "missingSignature"
  | missingType => "missingType"

/-- The explanation of a flagged statement. -/
structure Explanation where
  code : Nat
  file : FileId
  root : NodeId
  rootKind : Kind
  trail : Trail
  clash : Clash
  kind : ConflictKind
  call : Option CallOutline
  missingKey : Option MissingKey
  source : Option NodeId
  target : Option NodeId
  /-- Where the target is declared, if that is not the target itself. -/
  declaredAt : Option NodeId
  remaining : Nat
  deriving DecidableEq, Repr

/-- A flagged statement without an explanation. -/
structure Unexplained where
  code : Nat
  file : FileId
  root : NodeId
  rootKind : Kind
  reason : Reason
  link : String
  deriving DecidableEq, Repr

/-- What came of one flagged statement. -/
inductive Outcome
  | explained (explanations : List Explanation)
  | unexplained (entry : Unexplained)
  deriving DecidableEq, Repr

/-- What came of a run, both lists in the order of the diagnostics. -/
structure Report where
  explanations : List Explanation := []
  unexplained : List Unexplained := []
  deriving DecidableEq, Repr

namespace Report

def isEmpty (r : Report) : Bool := r.explanations.isEmpty && r.unexplained.isEmpty

/-- The report with one more outcome at its end. -/
def add (r : Report) : Outcome → Report
  | .explained es => { r with explanations := r.explanations ++ es }
  | .unexplained u => { r with unexplained := r.unexplained ++ [u] }

end Report

end Misfit
