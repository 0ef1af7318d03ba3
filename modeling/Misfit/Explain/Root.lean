import Misfit.Explain.Assignment
import Misfit.Explain.Call

/-!
# From a flagged node to an explanation

A checker flags a node; what is explained is the nearest statement, declaration or call at or above it.
Each kind of root is split into what to compare in its own way.
-/
namespace Misfit

/-- The kinds of node that a conflict can be explained from. An access counts only if the flagged node
has the type `any`, which is how a write to an undeclared property shows. -/
def Kind.isRoot (flaggedAny : Bool) : Kind → Bool
  | returnStatement | variableDeclaration | expressionStatement | callExpression => true
  | propertyAccessExpression => flaggedAny
  | _ => false

namespace SourceFile

/-- The node to be explained for a flagged node; the node itself if there is no better one. -/
def locateRoot (f : SourceFile) (flagged : NodeId) (type : Option TypeId) : NodeId :=
  (f.findAbove flagged fun n => n.kind.isRoot (type = some TypeId.any)).getD flagged

end SourceFile

namespace Site

variable (s : Site)

/-- Explains the root of a site; the program may gain types on the way. -/
def explain (r : Recorded) : Program × Except Reason Unit × Recorded :=
  match s.source.kind? s.root with
  | some .variableDeclaration => (s.program, s.explainDeclaration r)
  | some .expressionStatement => (s.program, s.explainStatement r)
  | some .returnStatement => (s.program, s.explainReturn r)
  | some .callExpression => s.explainCall r
  | some .propertyAccessExpression => (s.program, s.explainWrite r)
  | _ => (s.program, .error .unsupportedKind, r)

/-- Where the target of a conflict is declared, if that is not the target itself. -/
def declaredAt (target : Option NodeId) : Option NodeId :=
  (target.map (s.index.declarationOf s.source)).filter (some · ≠ target)

/-- The entry of a root without an explanation. -/
def unexplained (code : Nat) (rootKind : Kind) (reason : Reason) : Unexplained where
  code := code
  file := s.file
  root := s.root
  rootKind := rootKind
  reason := reason
  link := s.source.link s.root

/-- The explanation that the evidence of a conflict at the root makes. -/
def explanation (code : Nat) (rootKind : Kind) (e : Evidence) (kind : ConflictKind) : Explanation where
  code := code
  file := s.file
  root := s.root
  rootKind := rootKind
  trail := e.conflict.trail
  clash := e.conflict.clash
  kind := kind
  call := e.call
  missingKey := e.missingKey
  source := e.source
  target := e.target
  declaredAt := s.declaredAt e.target
  remaining := e.remaining

/-- What comes of a site: explanations of what is recorded in the end, or the reason why there is nothing
to show. -/
def outcome (code : Nat) (rootKind : Kind) : Except Reason Unit × Recorded → Outcome
  | (.ok (), r) =>
    if r.found = [] then .unexplained (s.unexplained code rootKind .noConflictFound)
    else .explained (r.found.map fun (e, kind) => s.explanation code rootKind e kind)
  | (.error reason, _) => .unexplained (s.unexplained code rootKind reason)

end Site

end Misfit
