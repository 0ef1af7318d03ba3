import Misfit.Tree.File

/-!
# What a file's nodes refer to

A diagnostic points at one node, but the pieces that explain it are often elsewhere: the declaration of
the variable that is assigned, the function that a `return` belongs to, the elements of an array literal
that was checked as a whole. The index of a file records these relations once, in tables listed in the
order of the nodes.
-/
namespace Misfit

/-- An element of an array literal. An empty literal counts as one element of the empty shape. -/
inductive Element
  | expr (node : NodeId)
  | emptyShape
  deriving DecidableEq, Repr

/-- A variable declared in a scope. -/
structure Binding where
  scope : NodeId
  name : String
  declaration : NodeId
  deriving DecidableEq, Repr

/-- The relations between the nodes of one file. -/
structure Index where
  bindings : List Binding := []
  /-- Each `return` that lies in a function, with the innermost such function. -/
  returns : List (NodeId × NodeId) := []
  /-- The node that stands for an array literal in an explanation, with the literal's elements. -/
  arrays : List (NodeId × List Element) := []
  deriving DecidableEq, Repr

namespace Index

/-- The binding that a node makes. -/
def binding? (f : SourceFile) (i : NodeId) (n : Node) : Option Binding :=
  if n.kind = .variableDeclaration then
    some ⟨f.scopeAt n.parent, n.name.getD (f.text (n.child 0)), i⟩
  else none

/-- The function that a `return` leaves. -/
def return? (f : SourceFile) (i : NodeId) (n : Node) : Option (NodeId × NodeId) :=
  if n.kind = .returnStatement then (f.functionAt n.parent).map (i, ·) else none

/-- The node under which an array literal is recorded: the declaration, assignment or `return` whose
value it is, or the literal itself where it is an argument of a call. -/
def site? (f : SourceFile) (literal : NodeId) : Option NodeId :=
  let above := f.parent literal
  (f.node? above).bind fun p => match p.kind with
    | .variableDeclaration =>
      if 1 < p.children.length ∧ p.lastChild = literal then some above else none
    | .binaryExpression =>
      if p.flags.assignment = true ∧ p.child 1 = literal then some above else none
    | .returnStatement => some above
    | .callExpression => if p.child 0 = literal then none else some literal
    | _ => none

/-- The elements of a literal with these children. -/
def elements : List NodeId → List Element
  | [] => [.emptyShape]
  | children => children.map .expr

/-- The record of an array literal. -/
def array? (f : SourceFile) (i : NodeId) (n : Node) : Option (NodeId × List Element) :=
  if n.kind = .arrayLiteralExpression then (site? f i).map (·, elements n.children) else none

/-- The index of a file. -/
def build (f : SourceFile) : Index where
  bindings := f.arena.entries.filterMap fun (i, n) => binding? f i n
  returns := f.arena.entries.filterMap fun (i, n) => return? f i n
  arrays := f.arena.entries.filterMap fun (i, n) => array? f i n

/-- The last declaration of a name in a scope. -/
def lookup (x : Index) (scope : NodeId) (name : String) : Option NodeId :=
  (x.bindings.reverse.find? fun b => b.scope = scope ∧ b.name = name).map Binding.declaration

/-- At most `steps` scopes from `scope` outward, ending with the whole file. -/
def scopesFrom (f : SourceFile) : Nat → NodeId → List NodeId
  | 0, _ => []
  | steps + 1, scope =>
    scope :: if scope = f.root then [] else scopesFrom f steps (f.scopeAt (f.parent scope))

/-- The scopes around a node, innermost first. -/
def scopes (f : SourceFile) (i : NodeId) : List NodeId :=
  scopesFrom f (f.arena.size + 1) (f.scopeAt (f.parent i))

/-- The declaration of the variable that a node names, in the innermost scope that has one; the node
itself if there is none. -/
def declarationOf (x : Index) (f : SourceFile) (i : NodeId) : NodeId :=
  if f.text i = "" then i
  else ((scopes f i).findSome? fun scope => x.lookup scope (f.text i)).getD i

/-- The function that a `return` belongs to. -/
def containerOf (x : Index) (statement : NodeId) : Option NodeId :=
  (x.returns.find? (·.1 = statement)).map Prod.snd

/-- The `return`s of a function, in order. -/
def returnsOf (x : Index) (container : NodeId) : List NodeId :=
  (x.returns.filter (·.2 = container)).map Prod.fst

/-- The elements of the array literal recorded under a node. -/
def elementsAt (x : Index) (site : NodeId) : Option (List Element) :=
  (x.arrays.reverse.find? (·.1 = site)).map Prod.snd

/-- Looking a name up in a scope answers with a declaration of that name in that scope. -/
theorem exists_binding_of_lookup {x : Index} {scope : NodeId} {name : String} {d : NodeId}
    (h : x.lookup scope name = some d) : (⟨scope, name, d⟩ : Binding) ∈ x.bindings := by
  obtain ⟨b, hb, rfl⟩ := Option.map_eq_some_iff.1 h
  have hp := List.find?_some hb
  have hm := List.mem_of_find?_eq_some hb
  simp only [decide_eq_true_eq] at hp
  obtain ⟨rfl, rfl⟩ := hp
  simpa using hm

/-- A function's `return`s are those whose function it is. -/
theorem mem_returnsOf {x : Index} {container statement : NodeId} :
    statement ∈ x.returnsOf container ↔ (statement, container) ∈ x.returns := by
  simp [returnsOf]

end Index

end Misfit
