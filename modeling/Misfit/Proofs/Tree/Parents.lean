import Misfit.Tree.File

/-!
# Parents

A node is added to an arena with any children: some may be shared with other nodes or listed twice, others
are not there yet or never will be. Whatever they are, the parent of a node is the last of the later nodes
that list it, so every parent comes after its child. That is why a walk up ends, and why it is enough to
go up as many times as there are nodes.
-/
namespace Misfit

namespace Arena

/-- What one more node is made of. -/
structure Addition where
  kind : Kind
  flags : Flags := {}
  children : List NodeId := []
  text : String := ""
  line : Nat
  name : Option String := none
  deriving DecidableEq, Repr

variable (a : Arena)

/-- The arena with nodes added one after the other. -/
def addAll (additions : List Addition) : Arena :=
  additions.foldl (fun a n => (a.add n.kind n.flags n.children n.text n.line n.name).1) a

/-- A node is listed among the children of a later one. -/
def Adopts (later i : NodeId) : Prop :=
  i.raw < later.raw ∧ ∃ n, a.get? later = some n ∧ i ∈ n.children

/-- The last of the later nodes that list a node among their children, or no node if there is none. -/
inductive LastAdopter (i : NodeId) : NodeId → Prop
  | adopter {p : NodeId} (h : a.Adopts p i) (hlast : ∀ q, a.Adopts q i → q.raw ≤ p.raw) : LastAdopter i p
  | nobody (h : ∀ q, ¬ a.Adopts q i) : LastAdopter i NodeId.none

/-- What adding a node keeps: parents are the last adopters, and no node starts after one of its children
that was there before it. -/
structure IsForest : Prop where
  parent : ∀ i n, a.get? i = some n → a.LastAdopter i n.parent
  line : ∀ i n, a.get? i = some n → ∀ c ∈ n.children, c.raw < i.raw →
    ∀ m, a.get? c = some m → n.line ≤ m.line

variable {a} {i c p : NodeId} {n m : Node} {children : List NodeId}

theorem lt_of_lastAdopter (h : a.LastAdopter i p) (hp : p ≠ NodeId.none) : i.raw < p.raw := by
  cases h with
  | adopter h => exact h.1
  | nobody => exact absurd rfl hp

theorem LastAdopter.congr {b : Arena} (h : a.LastAdopter i p)
    (hsame : ∀ q, b.Adopts q i ↔ a.Adopts q i) : b.LastAdopter i p := by
  cases h with
  | adopter hp hlast => exact .adopter ((hsame p).mpr hp) fun q hq => hlast q ((hsame q).mp hq)
  | nobody hnone => exact .nobody fun q hq => hnone q ((hsame q).mp hq)

/-! ### One more node -/

section Add

variable {kind : Kind} {flags : Flags} {text : String} {line : Nat} {name : Option String}

/-- The children of all nodes are kept as they were passed. -/
theorem children_add (a : Arena) :
    (a.add kind flags children text line name).1.nodes.map Node.children =
      a.nodes.map Node.children ++ [children] := by
  have hkept : (a.nodes.mapIdx fun j n => if (⟨j⟩ : NodeId) ∈ children then
      { n with parent := ⟨a.size⟩ } else n).map Node.children = a.nodes.map Node.children := by
    refine List.ext_getElem? fun j => ?_
    rw [List.getElem?_map, List.getElem?_mapIdx, List.getElem?_map, Option.map_map]
    refine congrArg (Option.map · a.nodes[j]?) (funext fun n => ?_)
    simp only [Function.comp_apply]
    split <;> rfl
  rw [add, List.map_append, hkept, List.map_singleton]

theorem get?_add_self (h : a.size < NodeId.none.raw) :
    (a.add kind flags children text line name).1.get? ⟨a.size⟩ =
      some { kind, flags, children, name, text, line := a.startLine children line } := by
  have hne : (⟨a.size⟩ : NodeId) ≠ NodeId.none := fun heq => Nat.ne_of_lt h (congrArg NodeId.raw heq)
  rw [get?, if_neg hne]
  simp [add, size]

theorem get?_add_of_ne (hi : i ≠ ⟨a.size⟩) :
    (a.add kind flags children text line name).1.get? i =
      (a.get? i).map fun n => if i ∈ children then { n with parent := ⟨a.size⟩ } else n := by
  obtain ⟨raw⟩ := i
  have hraw : raw ≠ a.nodes.length := fun heq => hi (congrArg NodeId.mk heq)
  unfold get? add
  split
  · rfl
  · dsimp only
    rcases Nat.lt_or_gt_of_ne hraw with hlt | hgt
    · rw [List.getElem?_append_left (by simpa using hlt), List.getElem?_mapIdx]
    · rw [List.getElem?_eq_none (Nat.le_of_lt hgt), List.getElem?_eq_none (by simpa using Nat.succ_le_of_lt hgt)]
      rfl

/-- A node that was there before has kept its line and its children. -/
theorem exists_of_get?_add (hi : i ≠ ⟨a.size⟩)
    (h : (a.add kind flags children text line name).1.get? i = some n) :
    ∃ m, a.get? i = some m ∧ n.line = m.line ∧ n.children = m.children ∧
      n.parent = if i ∈ children then ⟨a.size⟩ else m.parent := by
  rw [get?_add_of_ne hi] at h
  obtain ⟨m, hm, rfl⟩ := Option.map_eq_some_iff.mp h
  refine ⟨m, hm, ?_⟩
  split <;> exact ⟨rfl, rfl, rfl⟩

/-- The new node adopts its children that are there; all others have the adopters that they had. -/
theorem adopts_add (h : a.size < NodeId.none.raw) (hi : i.raw < a.size) :
    (a.add kind flags children text line name).1.Adopts p i ↔
      a.Adopts p i ∨ p = ⟨a.size⟩ ∧ i ∈ children := by
  by_cases hp : p = ⟨a.size⟩
  · subst hp
    have hnew : ¬ a.Adopts ⟨a.size⟩ i := fun ⟨_, _, hn, _⟩ => Nat.lt_irrefl _ (raw_lt_size hn)
    rw [or_iff_right hnew, Adopts, get?_add_self h]
    simp [hi]
  · simp only [hp, false_and, or_false]
    refine and_congr_right fun _ => ⟨fun ⟨n, hn, hmem⟩ => ?_, fun ⟨m, hm, hmem⟩ => ?_⟩
    · obtain ⟨m, hm, -, hchildren, -⟩ := exists_of_get?_add hp hn
      exact ⟨m, hm, hchildren ▸ hmem⟩
    · refine ⟨_, (get?_add_of_ne hp).trans (congrArg _ hm), ?_⟩
      split <;> exact hmem

/-- Nobody adopts the last node. -/
theorem not_adopts_of_le (hi : a.size ≤ i.raw + 1) : ¬ a.Adopts p i := by
  rintro ⟨hlt, n, hn, -⟩
  have hp := raw_lt_size hn
  omega

theorem IsForest.add (h : a.IsForest) (hfew : a.size < NodeId.none.raw) :
    (a.add kind flags children text line name).1.IsForest where
  parent := by
    intro i n hn
    by_cases hi : i = ⟨a.size⟩
    · subst hi
      obtain rfl := Option.some.inj ((get?_add_self hfew).symm.trans hn)
      exact .nobody fun q => not_adopts_of_le (by simp)
    · obtain ⟨m, hm, -, -, hparent⟩ := exists_of_get?_add hi hn
      have hlt := raw_lt_size hm
      rw [hparent]
      split
      · rename_i hmem
        refine .adopter ((adopts_add hfew hlt).mpr (.inr ⟨rfl, hmem⟩)) fun q hq => ?_
        obtain ⟨-, _, hget, -⟩ := hq
        have hsize := raw_lt_size hget
        rw [size_add] at hsize
        exact Nat.le_of_lt_succ hsize
      · rename_i hmem
        have hsame : ∀ q, (a.add kind flags children text line name).1.Adopts q i ↔ a.Adopts q i :=
          fun q => by rw [adopts_add hfew hlt, or_iff_left (fun hnew => hmem hnew.2)]
        exact (h.parent i m hm).congr hsame
  line := by
    intro i n hn c hc hlt m hm
    have hsize := raw_lt_size hn
    rw [size_add] at hsize
    have hraw : c.raw ≠ a.size := by omega
    have hne : c ≠ ⟨a.size⟩ := fun heq => hraw (congrArg NodeId.raw heq)
    obtain ⟨child, hchild, hline, -⟩ := exists_of_get?_add hne hm
    rw [hline]
    by_cases hi : i = ⟨a.size⟩
    · subst hi
      obtain rfl := Option.some.inj ((get?_add_self hfew).symm.trans hn)
      exact startLine_le _ hc hchild
    · obtain ⟨old, hold, holdLine, hchildren, -⟩ := exists_of_get?_add hi hn
      rw [holdLine]
      exact h.line i old hold c (hchildren ▸ hc) hlt child hchild

end Add

/-- By induction on the additions. -/
theorem IsForest.addAll (h : a.IsForest) {additions : List Addition}
    (hfew : a.size + additions.length ≤ NodeId.none.raw) : (a.addAll additions).IsForest := by
  induction additions generalizing a with
  | nil => exact h
  | cons n rest ih =>
    rw [List.length_cons] at hfew
    exact ih (h.add (by omega)) (by rw [size_add]; omega)

theorem children_addAll (a : Arena) (additions : List Addition) :
    (a.addAll additions).nodes.map Node.children =
      a.nodes.map Node.children ++ additions.map Addition.children := by
  induction additions generalizing a with
  | nil => simp [addAll]
  | cons n rest ih =>
    have hrest := ih (a.add n.kind n.flags n.children n.text n.line n.name).1
    rw [children_add, List.append_assoc] at hrest
    exact hrest

theorem isForest_empty : ({} : Arena).IsForest where
  parent := by simp [get?]
  line := by simp [get?]

end Arena

namespace SourceFile

variable (f : SourceFile)

/-- The walk up from an index, with no bound on it: it lists each node that it comes to, goes on to the
parent of that node, and ends where there is no node. -/
inductive WalkUp : NodeId → List NodeId → Prop
  | out {i : NodeId} (h : f.node? i = none) : WalkUp i []
  | up {i : NodeId} {n : Node} {above : List NodeId} (hn : f.node? i = some n)
    (h : WalkUp n.parent above) : WalkUp i (i :: above)

variable {f}

/-- There is one walk up from an index at most. -/
theorem WalkUp.unique {i : NodeId} {first second : List NodeId} (hfirst : f.WalkUp i first)
    (hsecond : f.WalkUp i second) : first = second := by
  induction hfirst generalizing second with
  | out h =>
    cases hsecond with
    | out => rfl
    | up hn => simp [h] at hn
  | up hn _ ih =>
    cases hsecond with
    | out h => simp [h] at hn
    | up hn' h' =>
      obtain rfl := Option.some.inj (hn.symm.trans hn')
      rw [ih h']

/-- Where parents come after their children, the walk up ends after as many steps as there are nodes from
here on. By induction on these. -/
theorem walkUp_climb
    (h : ∀ i n, f.node? i = some n → n.parent ≠ NodeId.none → i.raw < n.parent.raw) {steps : Nat}
    {i : NodeId} (hsteps : f.arena.size ≤ i.raw + steps) : f.WalkUp i (f.climb steps i) := by
  induction steps generalizing i with
  | zero =>
    refine .out (Option.eq_none_iff_forall_ne_some.mpr fun n hn => ?_)
    have hlt := Arena.raw_lt_size hn
    omega
  | succ steps ih =>
    cases hn : f.node? i with
    | none =>
      rw [f.climb_of_none _ hn]
      exact .out hn
    | some n =>
      rw [f.climb_of_some _ hn]
      refine .up hn ?_
      by_cases hp : n.parent = NodeId.none
      · rw [hp, f.climb_of_none _ f.node?_none]
        exact .out f.node?_none
      · have hlt := h i n hn hp
        exact ih (by omega)

/-- Whatever the children of the nodes that are added one after the other, the parent of a node is the
last of the later nodes that list it. So parents come after their children, every walk up ends, what is
found above an index is the first node on that walk that satisfies the predicate, and no node starts after
one of its children that was there before it. -/
theorem parents_of_additions (additions : List Arena.Addition) (hfew : additions.length < NodeId.none.raw)
    (f : SourceFile) (hf : f.arena = Arena.addAll {} additions) :
    f.arena.nodes.map Node.children = additions.map Arena.Addition.children ∧
      (∀ i n, f.node? i = some n → f.arena.LastAdopter i n.parent) ∧
      (∀ i n, f.node? i = some n → n.parent ≠ NodeId.none → i.raw < n.parent.raw) ∧
      (∀ i, (∃ above, f.WalkUp i above) ∧ ∀ above, f.WalkUp i above →
        ∀ p, f.findAbove i p = above.find? fun j => (f.node? j).any p) ∧
      ∀ i n, f.node? i = some n → ∀ c ∈ n.children, c.raw < i.raw →
        ∀ m, f.node? c = some m → n.line ≤ m.line := by
  have hforest : f.arena.IsForest := by
    rw [hf]
    exact Arena.isForest_empty.addAll (by simp [Arena.size]; omega)
  have hparents : ∀ i n, f.node? i = some n → n.parent ≠ NodeId.none → i.raw < n.parent.raw :=
    fun i n hn => Arena.lt_of_lastAdopter (hforest.parent i n hn)
  have hwalk : ∀ i, f.WalkUp i (f.lineage i) := fun i => walkUp_climb hparents (Nat.le_add_left _ _)
  refine ⟨?_, hforest.parent, hparents, fun i => ⟨⟨_, hwalk i⟩, fun above h p => ?_⟩, hforest.line⟩
  · rw [hf, Arena.children_addAll]
    rfl
  · rw [findAbove, (hwalk i).unique h]

/-- A name, a call, and two blocks. The call lists the name twice, itself, the last block, no node, and a
node that is not there. Both the call and the first block list the name, and the first block starts on a
later line than the name does. -/
def entangled : List Arena.Addition :=
  [{ kind := .identifier, text := "a", line := 3 },
    { kind := .callExpression, children := [⟨0⟩, ⟨0⟩, ⟨1⟩, ⟨3⟩, NodeId.none, ⟨99⟩], line := 5 },
    { kind := .block, children := [⟨0⟩], line := 4 },
    { kind := .block, children := [⟨1⟩, ⟨2⟩], line := 9 }]

/-- The name has changed over to the first block, and the block that the call lists has not become its
child. -/
theorem parents_entangled :
    let f : SourceFile := { name := "a.ts", arena := Arena.addAll {} entangled, root := ⟨3⟩ }
    entangled.length < NodeId.none.raw ∧
      f.arena.nodes.map Node.parent = [⟨2⟩, ⟨3⟩, ⟨3⟩, NodeId.none] ∧
      f.arena.nodes.map Node.line = [3, 3, 3, 3] ∧
      f.arena.LastAdopter ⟨0⟩ ⟨2⟩ ∧ f.arena.LastAdopter ⟨3⟩ NodeId.none ∧
      f.WalkUp ⟨0⟩ [⟨0⟩, ⟨2⟩, ⟨3⟩] ∧ f.findAbove ⟨0⟩ (·.kind = .block) = some ⟨2⟩ ∧
      f.findAbove ⟨0⟩ (·.kind = .callExpression) = none := by
  intro f
  have hfew : entangled.length < NodeId.none.raw := by decide
  obtain ⟨-, hlast, -, hwalks, -⟩ := parents_of_additions entangled hfew f rfl
  have hwalk : f.WalkUp ⟨0⟩ [⟨0⟩, ⟨2⟩, ⟨3⟩] := .up rfl (.up rfl (.up rfl (.out rfl)))
  have hfound := (hwalks ⟨0⟩).2 _ hwalk
  refine ⟨hfew, by decide, by decide, hlast ⟨0⟩ _ rfl, hlast ⟨3⟩ _ rfl, hwalk, ?_, ?_⟩
  · rw [hfound]
    decide
  · rw [hfound]
    decide

end SourceFile

end Misfit
