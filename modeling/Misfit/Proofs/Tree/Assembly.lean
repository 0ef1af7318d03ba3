import Misfit.Tree.Draft

/-!
# Assembled files

A file is assembled in steps, one for each way to make a node, and finished with its statements. The nodes
that a step is given are taken as they are: they may be missing, shared or listed twice. Each step comes to
some additions to the arena. Two things hold of every arena that has grown that way: the link of a node
goes to a later one that lists it, and declarations, assignments and `return`s have the children that
their kinds ask for.
-/
namespace Misfit

namespace Arena

variable {a b : Arena} {i : NodeId} {n m : Node} {given : List NodeId}

/-! ### Entries -/

theorem mem_entries : (i, n) ∈ a.entries ↔ a.nodes[i.raw]? = some n := by
  obtain ⟨raw⟩ := i
  simp only [entries, List.mem_mapIdx, Prod.mk.injEq, NodeId.mk.injEq, List.getElem?_eq_some_iff]
  constructor
  · rintro ⟨j, hj, rfl, rfl⟩
    exact ⟨hj, rfl⟩
  · rintro ⟨hj, rfl⟩
    exact ⟨raw, hj, rfl, rfl⟩

theorem get?_eq_some_iff : a.get? i = some n ↔ i ≠ NodeId.none ∧ (i, n) ∈ a.entries := by
  rw [mem_entries, get?]
  split <;> simp_all

theorem raw_lt_of_mem_entries (h : (i, n) ∈ a.entries) : i.raw < a.size :=
  (List.getElem?_eq_some_iff.mp (mem_entries.mp h)).1

/-- There is one node at an index. -/
theorem eq_of_mem_entries (hn : (i, n) ∈ a.entries) (hm : (i, m) ∈ a.entries) : n = m :=
  Option.some.inj ((mem_entries.mp hn).symm.trans (mem_entries.mp hm))

theorem pairwise_entries (a : Arena) : a.entries.Pairwise fun x y => x.1.raw < y.1.raw := by
  refine List.pairwise_iff_getElem.mpr fun i j hi hj hlt => ?_
  simpa [entries] using hlt

/-! ### One more node -/

/-- What the children of a node are where its kind asks for certain ones. -/
structure LaidOut (a : Arena) (kind : Kind) (children : List NodeId) (name : Option String) : Prop where
  declaration : kind = .variableDeclaration → name.isSome ∧
    ∃ first rest n, children = first :: rest ∧ (first, n) ∈ a.entries ∧ n.kind = .identifier
  assignment : kind = .binaryExpression → ∃ left right, children = [left, right]
  returned : kind = .returnStatement → children.length ≤ 1

/-- The link of a node goes to a later one that lists it, or to no node if no later one does. -/
inductive Adopted (a : Arena) (i : NodeId) (n : Node) : Prop
  | parent {m : Node} (hm : (n.parent, m) ∈ a.entries) (hlisted : i ∈ m.children)
    (hlater : i.raw < n.parent.raw)
  | nobody (hnone : n.parent = NodeId.none)
    (hlisted : ∀ p m, (p, m) ∈ a.entries → i ∈ m.children → p.raw ≤ i.raw)

/-- What holds of the arena of an assembled file. -/
structure Regular (a : Arena) : Prop where
  adopted : ∀ i n, (i, n) ∈ a.entries → a.Adopted i n
  laidOut : ∀ i n, (i, n) ∈ a.entries → a.LaidOut n.kind n.children n.name

/-- An arena has grown by nodes that are laid out as their kinds ask, with children that were given or that
were there by then. -/
inductive Grown (given : List NodeId) (a : Arena) : Arena → Prop
  | refl : Grown given a a
  | add {b : Arena} {kind : Kind} {flags : Flags} {children : List NodeId} {text : String} {line : Nat}
    {name : Option String} (h : Grown given a b) (hlaid : b.LaidOut kind children name)
    (hchildren : ∀ c ∈ children, c ∈ given ∨ c.raw < b.size) :
    Grown given a (b.add kind flags children text line name).1

section Add

variable {kind : Kind} {flags : Flags} {children : List NodeId} {text : String} {line : Nat}
  {name : Option String}

/-- After an addition there are the nodes that were there before, some of them adopted, and the new one. -/
theorem mem_entries_add :
    (i, n) ∈ (a.add kind flags children text line name).1.entries ↔
      (∃ m, (i, m) ∈ a.entries ∧ n = if i ∈ children then { m with parent := ⟨a.size⟩ } else m) ∨
      i = ⟨a.size⟩ ∧ n = { kind, flags, children, name, text, line := a.startLine children line } := by
  obtain ⟨raw⟩ := i
  simp only [mem_entries, add, NodeId.mk.injEq]
  rcases Nat.lt_trichotomy raw a.size with hlt | heq | hgt
  · rw [List.getElem?_append_left (by simpa [size] using hlt), List.getElem?_mapIdx,
      Option.map_eq_some_iff]
    simp only [Nat.ne_of_lt hlt, false_and, or_false, eq_comm]
  · subst heq
    simp [size, eq_comm]
  · have hnone : a.nodes[raw]? = none := List.getElem?_eq_none (Nat.le_of_lt hgt)
    rw [List.getElem?_eq_none (by rw [List.length_append, List.length_mapIdx]; exact hgt)]
    simp [hnone, Nat.ne_of_gt hgt]

/-- A node that was there before has kept its kind and its children. -/
theorem exists_mem_entries_add (h : (i, n) ∈ a.entries) :
    ∃ m, (i, m) ∈ (a.add kind flags children text line name).1.entries ∧ m.kind = n.kind ∧
      m.children = n.children := by
  refine ⟨_, mem_entries_add.mpr (.inl ⟨n, h, rfl⟩), ?_⟩
  split <;> exact ⟨rfl, rfl⟩

theorem LaidOut.add {k : Kind} {cs : List NodeId} {x : Option String} (h : a.LaidOut k cs x) :
    (a.add kind flags children text line name).1.LaidOut k cs x where
  declaration hk := by
    obtain ⟨hname, first, rest, n, hcs, hn, hkind⟩ := h.declaration hk
    obtain ⟨m, hm, hsame, -⟩ := exists_mem_entries_add hn
    exact ⟨hname, first, rest, m, hcs, hm, hsame.trans hkind⟩
  assignment := h.assignment
  returned := h.returned

/-- Whoever is adopted is listed by the new node; for all others nothing has changed. -/
theorem Regular.add (h : a.Regular) (hlaid : a.LaidOut kind children name) :
    (a.add kind flags children text line name).1.Regular where
  adopted i n hn := by
    rcases mem_entries_add.mp hn with ⟨m, hm, rfl⟩ | ⟨rfl, rfl⟩
    · split
      · rename_i hmem
        exact .parent (mem_entries_add.mpr (.inr ⟨rfl, rfl⟩)) hmem (raw_lt_of_mem_entries hm)
      · rename_i hmem
        cases h.adopted i m hm with
        | parent hp hlisted hlater =>
          obtain ⟨q, hq, -, hsame⟩ := exists_mem_entries_add hp
          exact .parent hq (hsame ▸ hlisted) hlater
        | nobody hnone hlisted =>
          refine .nobody hnone fun p q hq hi => ?_
          rcases mem_entries_add.mp hq with ⟨r, hr, rfl⟩ | ⟨rfl, rfl⟩
          · refine hlisted p r hr ?_
            split at hi <;> exact hi
          · exact absurd hi hmem
    · refine .nobody rfl fun p q hq _ => ?_
      have hp := raw_lt_of_mem_entries hq
      rw [size_add] at hp
      exact Nat.le_of_lt_succ hp
  laidOut i n hn := by
    rcases mem_entries_add.mp hn with ⟨m, hm, rfl⟩ | ⟨rfl, rfl⟩
    · split <;> exact (h.laidOut i m hm).add
    · exact hlaid.add

end Add

/-- By induction on the additions. -/
theorem Regular.of_grown (h : a.Regular) (hb : a.Grown given b) : b.Regular := by
  induction hb with
  | refl => exact h
  | add _ hlaid _ ih => exact ih.add hlaid

theorem regular_empty : ({} : Arena).Regular where
  adopted := by simp [entries]
  laidOut := by simp [entries]

end Arena

namespace Draft

/-- What a draft can be asked for. -/
inductive Step
  | newline
  | identifier (name : String)
  | stringLiteral (value : String)
  | numericLiteral (digits : String)
  | bigIntLiteral (digits : String)
  | booleanLiteral (value : Bool)
  | nullLiteral
  | annotatedType (type : String)
  | propertyAccess (object : NodeId) (name : String)
  | elementAccess (object key : NodeId)
  | call (callee : NodeId) (arguments : List NodeId)
  | assignment (left right : NodeId)
  | arrayLiteral (elements : List NodeId)
  | objectLiteral (properties : List NodeId)
  | propertyAssignment (name : String) (value : NodeId)
  | arrowFunction (parameters : List NodeId) (body : NodeId)
  | functionExpression (parameters : List NodeId) (body : NodeId)
  | parameter (name : String) (optional : Bool) (type : Option String)
  | propertySignature (name : String) (optional : Bool) (type : String)
  | interfaceDeclaration (name : String) (members : List NodeId)
  | typeAlias (name type : String)
  | variableDeclaration (name : String) (type : Option String) (initializer : Option NodeId)
  | functionDeclaration (name : String) (parameters : List NodeId) (returnType : Option String)
    (body : NodeId)
  | methodDeclaration (name : String) (parameters : List NodeId) (body : NodeId)
  | variableStatement (declaration : NodeId)
  | expressionStatement (expression : NodeId)
  | returnStatement (expression : Option NodeId)
  | block (statements : List NodeId)
  deriving DecidableEq, Repr

/-- The nodes that a step is given. -/
def Step.given : Step → List NodeId
  | newline | identifier _ | stringLiteral _ | numericLiteral _ | bigIntLiteral _ | booleanLiteral _
  | nullLiteral | annotatedType _ | parameter _ _ _ | propertySignature _ _ _ | typeAlias _ _ => []
  | propertyAccess object _ => [object]
  | elementAccess object key => [object, key]
  | call callee arguments => callee :: arguments
  | assignment left right => [left, right]
  | arrayLiteral nodes | objectLiteral nodes | interfaceDeclaration _ nodes | block nodes => nodes
  | propertyAssignment _ node | variableStatement node | expressionStatement node => [node]
  | arrowFunction parameters body | functionExpression parameters body
  | functionDeclaration _ parameters _ body | methodDeclaration _ parameters body =>
    parameters ++ [body]
  | variableDeclaration _ _ node | returnStatement node => node.toList

/-- The draft after a step. -/
def perform (d : Draft) : Step → Draft
  | .newline => d.newline
  | .identifier name => (d.identifier name).1
  | .stringLiteral value => (d.stringLiteral value).1
  | .numericLiteral digits => (d.numericLiteral digits).1
  | .bigIntLiteral digits => (d.bigIntLiteral digits).1
  | .booleanLiteral value => (d.booleanLiteral value).1
  | .nullLiteral => d.nullLiteral.1
  | .annotatedType type => (d.annotatedType type).1
  | .propertyAccess object name => (d.propertyAccess object name).1
  | .elementAccess object key => (d.elementAccess object key).1
  | .call callee arguments => (d.call callee arguments).1
  | .assignment left right => (d.assignment left right).1
  | .arrayLiteral elements => (d.arrayLiteral elements).1
  | .objectLiteral properties => (d.objectLiteral properties).1
  | .propertyAssignment name value => (d.propertyAssignment name value).1
  | .arrowFunction parameters body => (d.arrowFunction parameters body).1
  | .functionExpression parameters body => (d.functionExpression parameters body).1
  | .parameter name optional type => (d.parameter name optional type).1
  | .propertySignature name optional type => (d.propertySignature name optional type).1
  | .interfaceDeclaration name members => (d.interfaceDeclaration name members).1
  | .typeAlias name type => (d.typeAlias name type).1
  | .variableDeclaration name type initializer => (d.variableDeclaration name type initializer).1
  | .functionDeclaration name parameters returnType body =>
    (d.functionDeclaration name parameters returnType body).1
  | .methodDeclaration name parameters body => (d.methodDeclaration name parameters body).1
  | .variableStatement declaration => (d.variableStatement declaration).1
  | .expressionStatement expression => (d.expressionStatement expression).1
  | .returnStatement expression => (d.returnStatement expression).1
  | .block statements => (d.block statements).1

variable {a : Arena} {d : Draft} {given : List NodeId}

/-! ### What a step adds -/

theorem grown_add (h : a.Grown given d.arena) {kind : Kind} {children : List NodeId} {text : String}
    {name : Option String} {flags : Flags} (hlaid : d.arena.LaidOut kind children name)
    (hchildren : ∀ c ∈ children, c ∈ given ∨ c.raw < d.arena.size) :
    a.Grown given (d.add kind children text name flags).1.arena :=
  h.add hlaid hchildren

theorem grown_identifier (h : a.Grown given d.arena) (name : String) :
    a.Grown given (d.identifier name).1.arena :=
  grown_add h ⟨nofun, nofun, nofun⟩ nofun

theorem grown_annotatedType (h : a.Grown given d.arena) (type : String) :
    a.Grown given (d.annotatedType type).1.arena :=
  grown_add h ⟨nofun, nofun, nofun⟩ nofun

@[simp] theorem size_identifier (d : Draft) (name : String) :
    (d.identifier name).1.arena.size = d.arena.size + 1 := size_add ..

@[simp] theorem size_annotatedType (d : Draft) (type : String) :
    (d.annotatedType type).1.arena.size = d.arena.size + 1 := size_add ..

@[simp] theorem identifier_snd (d : Draft) (name : String) :
    (d.identifier name).2 = ⟨d.arena.size⟩ := rfl

@[simp] theorem annotatedType_snd (d : Draft) (type : String) :
    (d.annotatedType type).2 = ⟨d.arena.size⟩ := rfl

/-- A name and an annotated type made after it can be listed next. -/
theorem lt_of_mem_typed {d : Draft} {name type : String} {c : NodeId}
    (hc : c ∈ [(d.identifier name).2, ((d.identifier name).1.annotatedType type).2]) :
    c.raw < ((d.identifier name).1.annotatedType type).1.arena.size := by
  simp only [identifier_snd, annotatedType_snd, size_identifier, List.mem_cons, List.not_mem_nil,
    or_false] at hc
  rw [size_annotatedType, size_identifier]
  rcases hc with rfl | rfl
  · exact Nat.lt_add_of_pos_right Nat.two_pos
  · exact Nat.lt_succ_self _

theorem exists_identifier (d : Draft) (name : String) :
    ∃ n, ((d.identifier name).2, n) ∈ (d.identifier name).1.arena.entries ∧ n.kind = .identifier :=
  ⟨_, Arena.mem_entries_add.mpr (.inr ⟨rfl, rfl⟩), rfl⟩

theorem exists_identifier_annotatedType (d : Draft) (name type : String) :
    ∃ n, ((d.identifier name).2, n) ∈ ((d.identifier name).1.annotatedType type).1.arena.entries ∧
      n.kind = .identifier := by
  obtain ⟨n, hn, hkind⟩ := d.exists_identifier name
  obtain ⟨m, hm, hsame, -⟩ := Arena.exists_mem_entries_add hn
  exact ⟨m, hm, hsame.trans hkind⟩

/-- Most steps add one node, whose children are the nodes that they are given. Some make a name or an
annotated type first and list it too. -/
theorem grown_perform (d : Draft) (s : Step) : d.arena.Grown s.given (d.perform s).arena := by
  cases s with
  | newline => exact .refl
  | identifier | stringLiteral | numericLiteral | bigIntLiteral | nullLiteral | annotatedType
  | elementAccess | call | arrayLiteral | objectLiteral | arrowFunction | functionExpression
  | interfaceDeclaration | functionDeclaration | methodDeclaration | variableStatement
  | expressionStatement | block =>
    exact grown_add .refl ⟨nofun, nofun, nofun⟩ fun c hc => .inl hc
  | assignment left right =>
    exact grown_add .refl ⟨nofun, fun _ => ⟨left, right, rfl⟩, nofun⟩ fun c hc => .inl hc
  | booleanLiteral value =>
    cases value <;> exact grown_add .refl ⟨nofun, nofun, nofun⟩ nofun
  | returnStatement expression =>
    cases expression <;> exact grown_add .refl ⟨nofun, nofun, fun _ => by simp⟩ fun c hc => .inl hc
  | propertyAccess object name =>
    have hchildren : ∀ c ∈ [object, (d.identifier name).2],
        c ∈ [object] ∨ c.raw < (d.identifier name).1.arena.size := by simp
    exact grown_add (grown_identifier .refl name) ⟨nofun, nofun, nofun⟩ hchildren
  | propertyAssignment name value =>
    have hchildren : ∀ c ∈ [(d.identifier name).2, value],
        c ∈ [value] ∨ c.raw < (d.identifier name).1.arena.size := by simp
    exact grown_add (grown_identifier .refl name) ⟨nofun, nofun, nofun⟩ hchildren
  | parameter name optional type =>
    cases type with
    | none =>
      have hchildren : ∀ c ∈ [(d.identifier name).2],
          c ∈ [] ∨ c.raw < (d.identifier name).1.arena.size := by simp
      exact grown_add (grown_identifier .refl name) ⟨nofun, nofun, nofun⟩ hchildren
    | some type =>
      exact grown_add (grown_annotatedType (grown_identifier .refl name) type) ⟨nofun, nofun, nofun⟩
        fun c hc => .inr (lt_of_mem_typed hc)
  | propertySignature name optional type =>
    exact grown_add (grown_annotatedType (grown_identifier .refl name) type) ⟨nofun, nofun, nofun⟩
      fun c hc => .inr (lt_of_mem_typed hc)
  | typeAlias name type =>
    have hchildren : ∀ c ∈ [(d.annotatedType type).2],
        c ∈ [] ∨ c.raw < (d.annotatedType type).1.arena.size := by simp
    exact grown_add (grown_annotatedType .refl type) ⟨nofun, nofun, nofun⟩ hchildren
  | variableDeclaration name type initializer =>
    cases type with
    | none =>
      obtain ⟨n, hn, hkind⟩ := d.exists_identifier name
      have hchildren : ∀ c ∈ (d.identifier name).2 :: initializer.toList,
          c ∈ initializer.toList ∨ c.raw < (d.identifier name).1.arena.size := by
        simp +contextual
      exact grown_add (grown_identifier .refl name)
        ⟨fun _ => ⟨rfl, _, _, n, rfl, hn, hkind⟩, nofun, nofun⟩ hchildren
    | some type =>
      obtain ⟨n, hn, hkind⟩ := d.exists_identifier_annotatedType name type
      have hchildren : ∀ c ∈
          [(d.identifier name).2, ((d.identifier name).1.annotatedType type).2] ++ initializer.toList,
          c ∈ initializer.toList ∨ c.raw < ((d.identifier name).1.annotatedType type).1.arena.size := by
        intro c hc
        rcases List.mem_append.mp hc with hc | hc
        · exact .inr (lt_of_mem_typed hc)
        · exact .inl hc
      exact grown_add (grown_annotatedType (grown_identifier .refl name) type)
        ⟨fun _ => ⟨rfl, _, _, n, rfl, hn, hkind⟩, nofun, nofun⟩ hchildren

theorem grown_finish (d : Draft) (statements : List NodeId) :
    d.arena.Grown statements (d.finish statements).arena :=
  .add .refl ⟨nofun, nofun, nofun⟩ fun _ hc => .inl hc

/-- The draft after some steps, one after the other. -/
def performAll (d : Draft) (steps : List Step) : Draft := steps.foldl perform d

/-- By induction on the steps. -/
theorem regular_performAll (h : d.arena.Regular) (steps : List Step) :
    (d.performAll steps).arena.Regular := by
  induction steps generalizing d with
  | nil => exact h
  | cons s rest ih => exact ih (h.of_grown (d.grown_perform s))

end Draft

namespace SourceFile

/-- The file that is made in some steps and finished with some statements. -/
def ofSteps (name : String) (steps : List Draft.Step) (statements : List NodeId) : SourceFile :=
  (({ name } : Draft).performAll steps).finish statements

variable (name : String) (steps : List Draft.Step) (statements : List NodeId)

theorem regular_ofSteps : (ofSteps name steps statements).arena.Regular :=
  (Draft.regular_performAll Arena.regular_empty steps).of_grown (Draft.grown_finish _ statements)

/-- The root is the last node. -/
theorem size_ofSteps : (ofSteps name steps statements).arena.size =
    (ofSteps name steps statements).root.raw + 1 := Arena.size_add ..

end SourceFile

end Misfit
