import Misfit.Text.Blank
import Misfit.Tree.Arena

/-!
# Source files

A source file is an arena with a name and a root. Walking up follows parent links and walking down
follows children. Parents are always added after their children, so a walk up meets every node at most
once, and the size of the arena bounds it.
-/
namespace Misfit

/-- Identity of a file within a program. -/
structure FileId where
  raw : Nat
  deriving DecidableEq, Repr

/-- A syntax tree with the name of the file it was read from. -/
structure SourceFile where
  name : String
  arena : Arena
  root : NodeId
  deriving Repr

/-- At most this many trailing segments of a file name are shown in a link. -/
def linkSegments : Nat := 4

namespace SourceFile

variable (f : SourceFile)

def node? (i : NodeId) : Option Node := f.arena.get? i

def kind? (i : NodeId) : Option Kind := (f.node? i).map Node.kind

/-- The parent of a node; none for a root and for an index that names no node. -/
def parent (i : NodeId) : NodeId := (f.node? i).elim NodeId.none Node.parent

def children (i : NodeId) : List NodeId := (f.node? i).elim [] Node.children

/-- The child at a position, or no node. -/
def child (i : NodeId) (position : Nat) : NodeId :=
  (f.node? i).elim NodeId.none (·.child position)

/-- The last child, or no node. -/
def lastChild (i : NodeId) : NodeId := (f.node? i).elim NodeId.none Node.lastChild

def text (i : NodeId) : String := (f.node? i).elim "" Node.text

/-- The name that a declaration introduces. -/
def declaredName (i : NodeId) : Option String := (f.node? i).bind Node.name

/-- The file name cut down to its last segments. -/
def shortName : String :=
  let segments := Text.splitAtEach '/' f.name.toList
  "/".intercalate ((segments.drop (segments.length - linkSegments)).map String.ofList)

/-- Where a node starts, as `path/to/file:line`; empty for an index that names no node. -/
def link (i : NodeId) : String :=
  (f.node? i).elim "" fun n => f.shortName ++ ":" ++ toString n.line

/-- The first `steps` nodes on the way up from `i`, beginning with `i` itself. -/
def climb : Nat → NodeId → List NodeId
  | 0, _ => []
  | steps + 1, i => match f.node? i with
    | none => []
    | some n => i :: climb steps n.parent

/-- A node and everything above it, innermost first. -/
def lineage (i : NodeId) : List NodeId := f.climb f.arena.size i

/-- The nearest node at or above `i` that satisfies a predicate. -/
def findAbove (i : NodeId) (p : Node → Bool) : Option NodeId :=
  (f.lineage i).find? fun j => (f.node? j).any p

/-- Everything at most `depth` levels below `i`, each node followed by what lies below it. -/
def below : Nat → NodeId → List NodeId
  | 0, _ => []
  | depth + 1, i => (f.children i).flatMap fun c => c :: below depth c

/-- Every node below `i`, each followed by its own descendants. -/
def descendants (i : NodeId) : List NodeId := f.below f.arena.size i

/-- The nearest block at or above `i`, or the whole file. -/
def scopeAt (i : NodeId) : NodeId := (f.findAbove i (·.kind.isScope)).getD f.root

/-- The nearest function at or above `i`. -/
def functionAt (i : NodeId) : Option NodeId := f.findAbove i (·.kind.isFunctionLike)

@[simp] theorem node?_none : f.node? NodeId.none = none := by simp [node?]

theorem climb_of_none {i : NodeId} (steps : Nat) (h : f.node? i = none) : f.climb steps i = [] := by
  cases steps <;> simp [climb, h]

theorem climb_of_some {i : NodeId} {n : Node} (steps : Nat) (h : f.node? i = some n) :
    f.climb (steps + 1) i = i :: f.climb steps n.parent := by
  simp [climb, h]

/-- What a walk up finds satisfies the predicate. -/
theorem any_of_findAbove {i j : NodeId} {p : Node → Bool} (h : f.findAbove i p = some j) :
    (f.node? j).any p = true := by
  simpa using List.find?_some h

end SourceFile

end Misfit
