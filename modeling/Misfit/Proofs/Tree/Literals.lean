import Misfit.Proofs.Tree.Returns

/-!
# Array literals and the nodes that stand for them

The index of a file keeps the elements of an array literal under the node that stands for it where its value
is explained. In a file that has been assembled the node that stands for a literal lists it last, unless it is
the literal itself, so no two literals are kept under one node and none is lost.
-/
namespace Misfit

namespace Index

/-- There is an array literal at an index. -/
def IsLiteral (f : SourceFile) (i : NodeId) (n : Node) : Prop :=
  (i, n) ∈ f.arena.entries ∧ n.kind = .arrayLiteralExpression

/-- The node that stands for a literal: the declaration or the assignment whose value it is, the `return` that
it lies in, or the literal itself where it is passed to a call. -/
inductive StandsFor (f : SourceFile) (i : NodeId) : NodeId → Prop
  | declaration {p : Node} (hp : f.node? (f.parent i) = some p) (hkind : p.kind = .variableDeclaration)
    (hlast : p.children.getLast? = some i) : StandsFor f i (f.parent i)
  | assignment {p : Node} {left : NodeId} (hp : f.node? (f.parent i) = some p)
    (hkind : p.kind = .binaryExpression) (hassigns : p.flags.assignment = true)
    (hright : p.children = [left, i]) : StandsFor f i (f.parent i)
  | returned {p : Node} (hp : f.node? (f.parent i) = some p) (hkind : p.kind = .returnStatement) :
    StandsFor f i (f.parent i)
  | argument {p : Node} (hp : f.node? (f.parent i) = some p) (hkind : p.kind = .callExpression)
    (hcallee : p.children.head? ≠ some i) : StandsFor f i i

variable {f : SourceFile} {i j key : NodeId} {n m p : Node}

theorem elements_eq (children : List NodeId) :
    elements children = if children = [] then [.emptyShape] else children.map .expr := by
  cases children <;> simp [elements]

theorem ne_none_of_parent (hp : f.node? (f.parent i) = some p) : i ≠ NodeId.none := by
  rintro rfl
  simp [SourceFile.parent] at hp

theorem child_zero_eq_iff (hi : i ≠ NodeId.none) : p.child 0 = i ↔ p.children.head? = some i := by
  rw [Node.child]
  cases p.children with
  | nil => simpa using hi.symm
  | cons first rest => simp

section Regular

variable (h : f.arena.Regular)
include h

/-- The first child of a declaration is its name, so a literal that is its last child is not the only one. -/
theorem lastChild_eq_iff (hi : IsLiteral f i n) (hp : f.node? j = some p)
    (hkind : p.kind = .variableDeclaration) :
    1 < p.children.length ∧ p.lastChild = i ↔ p.children.getLast? = some i := by
  obtain ⟨first, rest, m, hchildren, hm, hname⟩ :=
    ((h.laidOut j p (SourceFile.mem_entries_of_node? hp)).declaration hkind).2
  rw [Node.lastChild, hchildren]
  cases rest with
  | nil =>
    have hne : first ≠ i := by
      rintro rfl
      obtain rfl := Arena.eq_of_mem_entries hi.1 hm
      exact absurd (hi.2.symm.trans hname) (by decide)
    simp [hne]
  | cons second rest =>
    rw [List.getLastD_eq_getLast?, List.getLast?_cons_cons, List.getLast?_cons]
    simp

/-- An assignment has two sides. -/
theorem child_one_eq_iff (hp : f.node? j = some p) (hkind : p.kind = .binaryExpression) :
    p.child 1 = i ↔ ∃ left, p.children = [left, i] := by
  obtain ⟨left, right, hchildren⟩ :=
    (h.laidOut j p (SourceFile.mem_entries_of_node? hp)).assignment hkind
  simp [Node.child, hchildren]

theorem site?_eq_some_iff (hi : IsLiteral f i n) : site? f i = some key ↔ StandsFor f i key := by
  constructor
  · intro hkey
    obtain ⟨p, hp, hkey⟩ := Option.bind_eq_some_iff.mp hkey
    split at hkey
    · rename_i hkind
      obtain ⟨hlast, heq⟩ := Option.ite_none_right_eq_some.mp hkey
      obtain rfl := Option.some.inj heq
      exact .declaration hp hkind ((lastChild_eq_iff h hi hp hkind).mp hlast)
    · rename_i hkind
      obtain ⟨⟨hassigns, hright⟩, heq⟩ := Option.ite_none_right_eq_some.mp hkey
      obtain rfl := Option.some.inj heq
      obtain ⟨left, hchildren⟩ := (child_one_eq_iff h hp hkind).mp hright
      exact .assignment hp hkind hassigns hchildren
    · rename_i hkind
      obtain rfl := Option.some.inj hkey
      exact .returned hp hkind
    · rename_i hkind
      obtain ⟨hcallee, heq⟩ := Option.ite_none_left_eq_some.mp hkey
      obtain rfl := Option.some.inj heq
      exact .argument hp hkind fun hhead => hcallee ((child_zero_eq_iff (ne_none_of_parent hp)).mpr hhead)
    · cases hkey
  · intro hkey
    cases hkey with
    | declaration hp hkind hlast =>
      simp [site?, hp, hkind, (lastChild_eq_iff h hi hp hkind).mpr hlast]
    | assignment hp hkind hassigns hright =>
      simp [site?, hp, hkind, hassigns, (child_one_eq_iff h hp hkind).mpr ⟨_, hright⟩]
    | returned hp hkind => simp [site?, hp, hkind]
    | argument hp hkind hcallee =>
      simp [site?, hp, hkind, (child_zero_eq_iff (ne_none_of_parent hp)).not.mpr hcallee]

/-- Unless it is the literal, the node that stands for it is no literal and lists it last. -/
theorem last_of_standsFor (hkey : StandsFor f i key) : key = i ∨
    ∃ p, f.node? key = some p ∧ p.kind ≠ .arrayLiteralExpression ∧ p.children.getLast? = some i := by
  cases hkey with
  | declaration hp hkind hlast => exact .inr ⟨_, hp, by simp [hkind], hlast⟩
  | assignment hp hkind _ hright => exact .inr ⟨_, hp, by simp [hkind], by simp [hright]⟩
  | @returned p hp hkind =>
    have hmem : i ∈ p.children := by
      have hi : f.node? i ≠ none := fun hnone => by simp [SourceFile.parent, hnone] at hp
      obtain ⟨n, hn⟩ := Option.ne_none_iff_exists'.mp hi
      have hparent : f.parent i = n.parent := by simp [SourceFile.parent, hn]
      rw [hparent] at hp
      have hne : n.parent ≠ NodeId.none := fun heq => by simp [heq] at hp
      obtain ⟨-, q, hq, hlisted⟩ :=
        SourceFile.exists_of_parent_ne_none h (SourceFile.mem_entries_of_node? hn) hne
      exact Option.some.inj (hq.symm.trans hp) ▸ hlisted
    have hlength := (h.laidOut _ p (SourceFile.mem_entries_of_node? hp)).returned hkind
    obtain ⟨c, hchildren⟩ := List.length_eq_one_iff.mp
      (Nat.le_antisymm hlength (List.length_pos_of_mem hmem))
    refine .inr ⟨p, hp, by simp [hkind], ?_⟩
    rw [hchildren] at hmem ⊢
    exact congrArg some (List.mem_singleton.mp hmem).symm
  | argument => exact .inl rfl

/-- No two literals are kept under one node. -/
theorem eq_of_standsFor (hi : IsLiteral f i n) (hj : IsLiteral f j m) (hkeyi : StandsFor f i key)
    (hkeyj : StandsFor f j key) : i = j := by
  have hself : ∀ {l k}, IsLiteral f l k → ∀ p, f.node? l = some p → p.kind = .arrayLiteralExpression := by
    intro l k hl p hp
    rw [Arena.eq_of_mem_entries (SourceFile.mem_entries_of_node? hp) hl.1]
    exact hl.2
  rcases last_of_standsFor h hkeyi with rfl | ⟨p, hp, hpkind, hlast⟩ <;>
    rcases last_of_standsFor h hkeyj with rfl | ⟨q, hq, hqkind, hlast'⟩
  · rfl
  · exact absurd (hself hi q hq) hqkind
  · exact absurd (hself hj p hp) hpkind
  · obtain rfl := Option.some.inj (hp.symm.trans hq)
    exact Option.some.inj (hlast.symm.trans hlast')

/-! ### The table -/

theorem mem_arrays {elements : List Element} : (key, elements) ∈ (build f).arrays ↔
    ∃ i n, IsLiteral f i n ∧ StandsFor f i key ∧
      elements = if n.children = [] then [.emptyShape] else n.children.map .expr := by
  simp only [build, List.mem_filterMap, Prod.exists]
  constructor
  · rintro ⟨i, n, hn, harray⟩
    unfold array? at harray
    obtain ⟨hkind, hsite⟩ := Option.ite_none_right_eq_some.mp harray
    obtain ⟨_, hkey, heq⟩ := Option.map_eq_some_iff.mp hsite
    obtain ⟨rfl, rfl⟩ := Prod.mk.inj heq
    exact ⟨i, n, ⟨hn, hkind⟩, (site?_eq_some_iff h ⟨hn, hkind⟩).mp hkey, elements_eq _⟩
  · rintro ⟨i, n, hi, hkey, rfl⟩
    refine ⟨i, n, hi.1, ?_⟩
    simp [array?, hi.2, (site?_eq_some_iff h hi).mpr hkey, elements_eq]

/-- No key occurs twice, so no record is overwritten. -/
theorem nodup_fst_arrays : ((build f).arrays.map Prod.fst).Nodup := by
  have hliteral : ∀ {i n entry}, (i, n) ∈ f.arena.entries → array? f i n = some entry →
      IsLiteral f i n ∧ StandsFor f i entry.1 := by
    intro i n entry hn harray
    unfold array? at harray
    obtain ⟨hkind, hsite⟩ := Option.ite_none_right_eq_some.mp harray
    obtain ⟨_, hkey, rfl⟩ := Option.map_eq_some_iff.mp hsite
    exact ⟨⟨hn, hkind⟩, (site?_eq_some_iff h ⟨hn, hkind⟩).mp hkey⟩
  refine List.pairwise_map.mpr (List.pairwise_filterMap.mpr ?_)
  refine f.arena.pairwise_entries.imp_of_mem fun {x y} hx hy hlt a ha b hb heq => ?_
  obtain ⟨hi, hkeyi⟩ := hliteral hx ha
  obtain ⟨hj, hkeyj⟩ := hliteral hy hb
  have hsame := eq_of_standsFor h hi hj hkeyi (heq ▸ hkeyj)
  exact Nat.ne_of_lt hlt (congrArg NodeId.raw hsame)

theorem elementsAt_eq_some_iff {elements : List Element} :
    (build f).elementsAt key = some elements ↔ (key, elements) ∈ (build f).arrays := by
  have hnodup : ((build f).arrays.reverse.map Prod.fst).Nodup := by
    rw [List.map_reverse, List.nodup_reverse]
    exact nodup_fst_arrays h
  exact (find?_fst_eq_some_iff hnodup).trans List.mem_reverse

end Regular

/-- Whatever a file is assembled from, the elements of an array literal are kept under the node that stands
for it and under no other, and no two literals share that node. They are its children in order, or the
empty shape where it has none, so there always are some. -/
theorem elementsAt_of_literals (file : String) (steps : List Draft.Step) (statements : List NodeId) :
    let f := SourceFile.ofSteps file steps statements
    let x := build f
    (∀ key elements, x.elementsAt key = some elements ↔ ∃ i n, IsLiteral f i n ∧ StandsFor f i key ∧
        elements = if n.children = [] then [.emptyShape] else n.children.map .expr) ∧
      (∀ i n j m key, IsLiteral f i n → IsLiteral f j m →
        StandsFor f i key → StandsFor f j key → i = j) ∧
      ∀ key, x.elementsAt key ≠ some [] := by
  intro f x
  have hregular : f.arena.Regular := SourceFile.regular_ofSteps file steps statements
  have helements : ∀ key elements, x.elementsAt key = some elements ↔ ∃ i n, IsLiteral f i n ∧
      StandsFor f i key ∧
        elements = if n.children = [] then [.emptyShape] else n.children.map .expr :=
    fun key elements => (elementsAt_eq_some_iff hregular).trans (mem_arrays hregular)
  refine ⟨helements, fun i n j m key => eq_of_standsFor hregular, fun key hnil => ?_⟩
  obtain ⟨i, n, -, -, hempty⟩ := (helements key []).mp hnil
  split at hempty
  · cases hempty
  · rename_i hchildren
    exact hchildren (List.map_eq_nil_iff.mp hempty.symm)

/-- A declaration and a later assignment both list one empty literal. -/
example :
    let x := build (SourceFile.ofSteps "a.ts" [.arrayLiteral [], .variableDeclaration "a" none (some ⟨0⟩),
      .identifier "b", .assignment ⟨3⟩ ⟨0⟩] [⟨2⟩, ⟨4⟩])
    x.elementsAt ⟨2⟩ = none ∧ x.elementsAt ⟨4⟩ = some [.emptyShape] := by decide

end Index

end Misfit
