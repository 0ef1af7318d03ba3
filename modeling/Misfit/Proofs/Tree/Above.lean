import Misfit.Proofs.Tree.Assembly
import Misfit.Proofs.Tree.Parents

/-!
# What lies above a node

The nodes above a node are those that its parent links come to, itself left out. In a file that has been
assembled every link goes to a later node, so nothing lies above itself, a walk up ends, and of the nodes
above another one that satisfy a predicate one is nearest.
-/
namespace Misfit

namespace SourceFile

variable (f : SourceFile)

/-- The links from a node upward come to the node at an index. -/
inductive Above : Node → NodeId → Prop
  | parent {n m : Node} (hm : f.node? n.parent = some m) : Above n n.parent
  | further {n m : Node} {i : NodeId} (hm : f.node? n.parent = some m) (h : Above m i) : Above n i

/-- The nearest of the nodes above another one that satisfy a predicate: all others lie above it. -/
structure Nearest (n : Node) (p : Node → Bool) (i : NodeId) : Prop where
  above : f.Above n i
  holds : (f.node? i).any p = true
  nearest : ∀ j, f.Above n j → (f.node? j).any p = true →
    i = j ∨ ∃ m, f.node? i = some m ∧ f.Above m j

variable {f} {i j : NodeId} {n m : Node} {p : Node → Bool}

theorem node?_eq_some_iff : f.node? i = some n ↔ i ≠ NodeId.none ∧ (i, n) ∈ f.arena.entries :=
  Arena.get?_eq_some_iff

theorem mem_entries_of_node? (h : f.node? i = some n) : (i, n) ∈ f.arena.entries :=
  (node?_eq_some_iff.mp h).2

/-! ### Links -/

theorem exists_node?_of_above (h : f.Above n i) : ∃ m, f.node? i = some m := by
  induction h with
  | parent hm => exact ⟨_, hm⟩
  | further _ _ ih => exact ih

theorem Above.trans (h : f.Above n i) (hm : f.node? i = some m) (hj : f.Above m j) : f.Above n j := by
  induction h with
  | parent hp =>
    obtain rfl := Option.some.inj (hp.symm.trans hm)
    exact .further hp hj
  | further hp _ ih => exact .further hp (ih hm)

section Regular

variable (h : f.arena.Regular)
include h

/-- A link goes to a later node, which lists the one that it comes from. -/
theorem exists_of_parent_ne_none (hn : (i, n) ∈ f.arena.entries) (hp : n.parent ≠ NodeId.none) :
    i.raw < n.parent.raw ∧ ∃ m, f.node? n.parent = some m ∧ i ∈ m.children := by
  cases h.adopted i n hn with
  | parent hm hlisted hlater => exact ⟨hlater, _, node?_eq_some_iff.mpr ⟨hp, hm⟩, hlisted⟩
  | nobody hnone => exact absurd hnone hp

theorem lt_parent (hn : (i, n) ∈ f.arena.entries) (hm : f.node? n.parent = some m) :
    i.raw < n.parent.raw :=
  (exists_of_parent_ne_none h hn fun heq => by simp [heq] at hm).1

theorem lt_of_above (hn : (i, n) ∈ f.arena.entries) (hj : f.Above n j) : i.raw < j.raw := by
  induction hj generalizing i with
  | parent hm => exact lt_parent h hn hm
  | further hm _ ih => exact Nat.lt_trans (lt_parent h hn hm) (ih (mem_entries_of_node? hm))

theorem walkUp_lineage (i : NodeId) : f.WalkUp i (f.lineage i) :=
  walkUp_climb (fun _ _ hn hp => (exists_of_parent_ne_none h (mem_entries_of_node? hn) hp).1)
    (Nat.le_add_left _ _)

/-! ### The nearest node above -/

/-- Where the parent satisfies the predicate, it is nearest. -/
theorem nearest_iff_of_parent (hm : f.node? n.parent = some m) (hp : p m = true) :
    f.Nearest n p i ↔ n.parent = i := by
  have hparent : (f.node? n.parent).any p = true := by rw [hm]; exact hp
  constructor
  · intro hi
    rcases hi.nearest n.parent (.parent hm) hparent with heq | ⟨k, hk, habove⟩
    · exact heq.symm
    · have hlt := lt_of_above h (mem_entries_of_node? hk) habove
      cases hi.above with
      | parent => rfl
      | further hm' hfar =>
        have hgt := lt_of_above h (mem_entries_of_node? hm') hfar
        omega
  · rintro rfl
    refine ⟨.parent hm, hparent, fun j hj _ => ?_⟩
    cases hj with
    | parent => exact .inl rfl
    | further hm' hfar => exact .inr ⟨_, hm', hfar⟩

omit h in
/-- Where it does not, what is nearest to it is nearest. -/
theorem nearest_iff_of_not_parent (hm : f.node? n.parent = some m) (hp : p m = false) :
    f.Nearest n p i ↔ f.Nearest m p i := by
  have hparent : (f.node? n.parent).any p = false := by rw [hm]; exact hp
  have habove : ∀ j, (f.node? j).any p = true → (f.Above n j ↔ f.Above m j) := by
    refine fun j hj => ⟨fun hn => ?_, .further hm⟩
    cases hn with
    | parent => simp [hparent] at hj
    | further hm' hfar => exact Option.some.inj (hm'.symm.trans hm) ▸ hfar
  constructor
  · intro hi
    exact ⟨(habove i hi.holds).mp hi.above, hi.holds, fun j hj hjp => hi.nearest j (.further hm hj) hjp⟩
  · intro hi
    exact ⟨.further hm hi.above, hi.holds, fun j hj hjp => hi.nearest j ((habove j hjp).mp hj) hjp⟩

/-- A walk up from the parent finds the nearest node above. By induction on the walk. -/
theorem findAbove_parent_eq_some_iff : f.findAbove n.parent p = some i ↔ f.Nearest n p i := by
  suffices hwalk : ∀ {j above}, f.WalkUp j above → ∀ n : Node, n.parent = j →
      (above.find? (fun k => (f.node? k).any p) = some i ↔ f.Nearest n p i) from
    hwalk (walkUp_lineage h n.parent) n rfl
  intro j above hwalk
  induction hwalk with
  | out hout =>
    rintro n rfl
    refine ⟨nofun, fun hi => ?_⟩
    cases hi.above <;> simp_all
  | @up j m above hm _ ih =>
    rintro n rfl
    cases hp : p m with
    | true =>
      rw [List.find?_cons_of_pos (by simp [hm, hp]), Option.some.injEq, nearest_iff_of_parent h hm hp]
    | false =>
      rw [List.find?_cons_of_neg (by simp [hm, hp]), nearest_iff_of_not_parent hm hp]
      exact ih m rfl

end Regular

end SourceFile

end Misfit
