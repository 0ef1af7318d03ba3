import Misfit.Types.Query

/-!
# Programs

What explanations draw on: the types of a program, its files, and the type that the checker gave to each
node. Types are not computed here, only looked up.
-/
namespace Misfit

/-- A checked program. -/
structure Program where
  types : Types := Types.initial
  files : List SourceFile := []
  /-- The types of nodes, the latest entry first. -/
  nodeTypes : List ((FileId × NodeId) × TypeId) := []
  deriving Repr

namespace Program

def file? (p : Program) (i : FileId) : Option SourceFile := p.files[i.raw]?

/-- The type that the checker gave to a node. -/
def typeOf (p : Program) (file : FileId) (node : NodeId) : Option TypeId :=
  p.nodeTypes.lookup (file, node)

/-- Adds a file; answers its id. -/
def addFile (p : Program) (f : SourceFile) : Program × FileId :=
  ({ p with files := p.files ++ [f] }, ⟨p.files.length⟩)

/-- Records the type of a node, in place of any recorded before. -/
def setType (p : Program) (file : FileId) (node : NodeId) (type : TypeId) : Program :=
  { p with nodeTypes := ((file, node), type) :: p.nodeTypes }

end Program

end Misfit
