import Misfit.Tree.Kind

/-!
# Syntax nodes and their arena

The nodes of one file lie side by side in an arena and refer to each other by index. A node is added
after its children; adding it makes it their parent, and a child that already had a parent changes over
to the new one. Children need not exist: an index that names no node is kept as it is.
-/
namespace Misfit

/-- Index of a node in its arena. -/
structure NodeId where
  raw : Nat
  deriving DecidableEq, Repr

namespace NodeId

/-- The index that names no node. -/
def none : NodeId := ⟨4294967295⟩

/-- The index, unless it is the one that names no node. -/
def toOption (i : NodeId) : Option NodeId := if i = none then Option.none else some i

end NodeId

/-- Marks on a node: a `?` on a parameter or property, and a binary expression that assigns. -/
structure Flags where
  optional : Bool := false
  assignment : Bool := false
  deriving DecidableEq, Repr

/-- A syntax node. -/
structure Node where
  kind : Kind
  flags : Flags := {}
  parent : NodeId := NodeId.none
  children : List NodeId := []
  /-- The name that a declaration introduces. -/
  name : Option String := none
  /-- Source text of the whole node. -/
  text : String
  /-- Line on which the node starts, counted from 1. -/
  line : Nat
  deriving DecidableEq, Repr

namespace Node

/-- The child at a position, or no node. -/
def child (n : Node) (position : Nat) : NodeId := n.children.getD position NodeId.none

/-- The last child, or no node. -/
def lastChild (n : Node) : NodeId := n.children.getLastD NodeId.none

end Node

/-- The nodes of one file. -/
structure Arena where
  nodes : List Node := []
  deriving Repr

namespace Arena

def size (a : Arena) : Nat := a.nodes.length

/-- The node at an index. -/
def get? (a : Arena) (i : NodeId) : Option Node :=
  if i = NodeId.none then none else a.nodes[i.raw]?

/-- The indices of all nodes, in the order in which they were added. -/
def ids (a : Arena) : List NodeId := (List.range a.size).map NodeId.mk

/-- The nodes with their indices. -/
def entries (a : Arena) : List (NodeId × Node) := a.nodes.mapIdx fun i n => (⟨i⟩, n)

/-- A node starts no later than the earliest of its children. -/
def startLine (a : Arena) (children : List NodeId) (line : Nat) : Nat :=
  ((children.filterMap a.get?).map Node.line).foldl min line

/-- Appends a node and makes it the parent of its children; answers the new index. -/
def add (a : Arena) (kind : Kind) (flags : Flags) (children : List NodeId) (text : String)
    (line : Nat) (name : Option String := none) : Arena × NodeId :=
  let id : NodeId := ⟨a.size⟩
  let adopted := a.nodes.mapIdx fun i n => if ⟨i⟩ ∈ children then { n with parent := id } else n
  let node := { kind, flags, children, name, text, line := a.startLine children line }
  (⟨adopted ++ [node]⟩, id)

/-- Gives a node a name, if there is such a node. -/
def rename (a : Arena) (i : NodeId) (name : String) : Option Arena :=
  (a.get? i).map fun _ =>
    ⟨a.nodes.mapIdx fun j n => if ⟨j⟩ = i then { n with name := some name } else n⟩

@[simp] theorem get?_none (a : Arena) : a.get? NodeId.none = none := by simp [get?]

@[simp] theorem size_add (a : Arena) (kind flags children text line name) :
    (a.add kind flags children text line name).1.size = a.size + 1 := by simp [add, size]

theorem add_snd (a : Arena) (kind flags children text line name) :
    (a.add kind flags children text line name).2 = ⟨a.size⟩ := rfl

theorem raw_lt_size {a : Arena} {i : NodeId} {n : Node} (h : a.get? i = some n) :
    i.raw < a.size := by
  unfold get? at h
  split at h
  · simp at h
  · exact (List.getElem?_eq_some_iff.1 h).1

theorem foldl_min_le (ls : List Nat) (start : Nat) :
    ls.foldl min start ≤ start ∧ ∀ l ∈ ls, ls.foldl min start ≤ l := by
  induction ls generalizing start with
  | nil => simp
  | cons x xs ih =>
    have ⟨h, hall⟩ := ih (min start x)
    simp only [List.foldl_cons, List.forall_mem_cons]
    exact ⟨by omega, by omega, hall⟩

/-- No child that exists starts before its parent. -/
theorem startLine_le {a : Arena} {children : List NodeId} {c : NodeId} {n : Node} (line : Nat)
    (hc : c ∈ children) (hn : a.get? c = some n) : a.startLine children line ≤ n.line :=
  (foldl_min_le _ line).2 _ (List.mem_map.2 ⟨n, List.mem_filterMap.2 ⟨c, hc, hn⟩, rfl⟩)

end Arena

end Misfit
