import Misfit.Compare.Basic
import Misfit.Options.Basic
import Misfit.Record.Report
import Misfit.Tree.Index

/-!
# The site of a conflict

A site is what one explanation works on: the flagged node, the statement it belongs to, and what is
known of the file around it. An explanation of a site records the conflicts that it finds, and ends well
or with the reason why it could not be made.
-/
namespace Misfit

/-- A flagged node and the statement, call or access to be explained for it. -/
structure Site where
  program : Program
  options : Options
  file : FileId
  source : SourceFile
  index : Index
  flagged : NodeId
  root : NodeId

/-- What the explanation of a site has recorded so far. -/
structure Recorded where
  /-- The conflicts found, each with the kind that it was sorted into. -/
  found : List (Evidence × ConflictKind) := []
  /-- A map was met whose index signatures reject the key. -/
  missingIndex : Bool := false
  deriving DecidableEq, Repr

/-- Records one more conflict. -/
def Recorded.add (r : Recorded) (e : Evidence) : Recorded :=
  { r with found := r.found ++ [(e, e.kind r.missingIndex)] }

/-- An explanation goes on from what is recorded, and ends well or with a reason. What is recorded by
then stays in either case. -/
abbrev Explaining := Recorded → Except Reason Unit × Recorded

/-- Goes on with the next explanation, unless the first one fails or has recorded a conflict. -/
def untilRecorded (first next : Explaining) : Explaining := fun r =>
  match first r with
  | (.error reason, r') => (.error reason, r')
  | (.ok (), r') => if r.found.length < r'.found.length then (.ok (), r') else next r'

namespace Site

variable (s : Site)

def types : Types := s.program.types

def typeOf (node : NodeId) : Option TypeId := s.program.typeOf s.file node

def describe (node : NodeId) (type : TypeId) : Description := s.program.describeNode s.source node type

/-- The mode in which returned values are compared. -/
def returnMode : Mode := { bothWays := s.options.returnsBothWays }

/-- Compares a source with a target in a walk of its own. -/
def conflict? (mode : Mode) (target source : TypeId) (trail : Trail) : Option Conflict :=
  Comparison.conflict? ⟨s.program, mode⟩ target source trail

/-- Compares the value at a node with a target that is shown as given, and records the conflict if there
is one; answers whether there is. -/
def compareValue (mode : Mode) (targetNode : NodeId) (shown : Description) (target : TypeId)
    (sourceNode : NodeId) (source : TypeId) (r : Recorded) : Bool × Recorded :=
  match s.conflict? mode target source
      (Trail.empty.push ⟨shown, .node (s.describe sourceNode source)⟩) with
  | none => (false, r)
  | some conflict =>
    (true, r.add { conflict, source := sourceNode.toOption, target := targetNode.toOption })

end Site

end Misfit
