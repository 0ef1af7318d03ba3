import Misfit.Proofs.Tree.Above
import Mathlib.Data.List.Nodup

/-!
# What lies below a node

A walk down keeps a list of the nodes that are still to be visited and puts the children of a node before
the rest of it. It need not end: a node may list itself, or one that is added later. Where every node that
a file is assembled from is there before it is listed, it ends; where no node is listed twice besides, it
comes to those nodes once that the links lead up from.
-/
namespace Misfit

namespace Arena

/-- Every node is added after its children. -/
def ChildrenFirst (a : Arena) : Prop := ∀ i n, (i, n) ∈ a.entries → ∀ c ∈ n.children, c.raw < i.raw

variable {a b : Arena} {given : List NodeId} {i j c : NodeId} {n m : Node}

theorem childrenFirst_empty : ({} : Arena).ChildrenFirst := by simp [ChildrenFirst, entries]

theorem Grown.size_le (h : a.Grown given b) : a.size ≤ b.size := by
  induction h with
  | refl => exact Nat.le_refl _
  | add _ _ _ ih => exact Nat.le_trans ih (by rw [size_add]; exact Nat.le_succ _)

theorem Grown.childrenFirst (h : a.Grown given b) (ha : a.ChildrenFirst)
    (hgiven : ∀ c ∈ given, (a.get? c).isSome) : b.ChildrenFirst := by
  induction h with
  | refl => exact ha
  | @add b kind flags children text line name hgrown _ hchildren ih =>
    intro i n hn c hc
    rcases mem_entries_add.mp hn with ⟨m, hm, rfl⟩ | ⟨rfl, rfl⟩
    · refine ih i m hm c ?_
      split at hc <;> exact hc
    · rcases hchildren c hc with hold | hnew
      · obtain ⟨m, hm⟩ := Option.isSome_iff_exists.mp (hgiven c hold)
        exact Nat.lt_of_lt_of_le (raw_lt_size hm) hgrown.size_le
      · exact hnew

/-- Where no node is listed twice, the node that lists another one is the only one to do so. -/
theorem eq_of_listed (h : (a.nodes.flatMap Node.children).Nodup) (hn : (i, n) ∈ a.entries)
    (hm : (j, m) ∈ a.entries) (hcn : c ∈ n.children) (hcm : c ∈ m.children) : i = j := by
  obtain ⟨hi, hgeti⟩ := List.getElem?_eq_some_iff.mp (mem_entries.mp hn)
  obtain ⟨hj, hgetj⟩ := List.getElem?_eq_some_iff.mp (mem_entries.mp hm)
  have hdisjoint := List.pairwise_iff_getElem.mp (List.nodup_flatMap.mp h).2
  rcases Nat.lt_trichotomy i.raw j.raw with hlt | heq | hgt
  · exact (hdisjoint _ _ hi hj hlt (hgeti ▸ hcn) (hgetj ▸ hcm)).elim
  · exact congrArg NodeId.mk heq
  · exact (hdisjoint _ _ hj hi hgt (hgetj ▸ hcm) (hgeti ▸ hcn)).elim

end Arena

namespace Draft

/-- Each step is given nodes that are there by then, and so is the file in the end. -/
def GivenNodes (statements : List NodeId) : Draft → List Step → Prop
  | d, [] => ∀ i ∈ statements, (d.arena.get? i).isSome
  | d, s :: rest => (∀ i ∈ s.given, (d.arena.get? i).isSome) ∧ GivenNodes statements (d.perform s) rest

instance decidableGivenNodes (statements : List NodeId) :
    ∀ d steps, Decidable (GivenNodes statements d steps)
  | d, [] => inferInstanceAs (Decidable (∀ i ∈ statements, (d.arena.get? i).isSome))
  | d, s :: rest =>
    have := decidableGivenNodes statements (d.perform s) rest
    inferInstanceAs (Decidable ((∀ i ∈ s.given, (d.arena.get? i).isSome) ∧
      GivenNodes statements (d.perform s) rest))

/-- By induction on the steps. -/
theorem GivenNodes.childrenFirst {d : Draft} {steps : List Step} {statements : List NodeId}
    (h : GivenNodes statements d steps) (hd : d.arena.ChildrenFirst) :
    ((d.performAll steps).finish statements).arena.ChildrenFirst := by
  induction steps generalizing d with
  | nil => exact (d.grown_finish statements).childrenFirst hd h
  | cons s rest ih => exact ih h.2 ((d.grown_perform s).childrenFirst hd h.1)

end Draft

namespace SourceFile

variable (f : SourceFile)

/-- The walk down from the nodes that are pending, with no bound on it: the first of them is listed, its
children take its place, and the walk ends when nothing is pending any more. -/
inductive WalkDown : List NodeId → List NodeId → Prop
  | out : WalkDown [] []
  | down {i : NodeId} {pending rest : List NodeId} (h : WalkDown (f.children i ++ pending) rest) :
    WalkDown (i :: pending) (i :: rest)

variable {f} {i j c m : NodeId} {k : Node} {pending : List NodeId}

/-- There is one walk down at most. -/
theorem WalkDown.unique {first second : List NodeId} (hfirst : f.WalkDown pending first)
    (hsecond : f.WalkDown pending second) : first = second := by
  induction hfirst generalizing second with
  | out => cases hsecond; rfl
  | down _ ih =>
    cases hsecond with
    | down h => rw [ih h]

theorem mem_children : c ∈ f.children i ↔ ∃ n, f.node? i = some n ∧ c ∈ n.children := by
  cases hn : f.node? i <;> simp [children, hn]

/-! ### Where children come first -/

section First

variable (h : f.arena.ChildrenFirst)
include h

theorem lt_of_mem_children (hc : c ∈ f.children i) : c.raw < i.raw := by
  obtain ⟨n, hn, hmem⟩ := mem_children.mp hc
  exact h i n (mem_entries_of_node? hn) c hmem

theorem children_eq_nil (hi : i.raw = 0) : f.children i = [] :=
  List.eq_nil_iff_forall_not_mem.mpr fun c hc => by
    have hlt := lt_of_mem_children h hc
    omega

/-- Any number of levels will do that is no less than the index. -/
theorem below_eq {levels more : Nat} (hlevels : i.raw ≤ levels) (hmore : i.raw ≤ more) :
    f.below levels i = f.below more i := by
  induction levels generalizing more i with
  | zero => cases more <;> simp [below, children_eq_nil h (Nat.le_zero.mp hlevels)]
  | succ levels ih =>
    cases more with
    | zero => simp [below, children_eq_nil h (Nat.le_zero.mp hmore)]
    | succ more =>
      refine List.flatMap_congr fun c hc => ?_
      have hlt := lt_of_mem_children h hc
      exact congrArg (c :: ·) (ih (by omega) (by omega))

/-- Each child is followed by what lies below it. -/
theorem descendants_eq (i : NodeId) :
    f.descendants i = (f.children i).flatMap fun c => c :: f.descendants c := by
  cases hn : f.node? i with
  | none =>
    have hnil : f.children i = [] := by simp [children, hn]
    rw [descendants, hnil]
    cases f.arena.size <;> simp [below, hnil]
  | some n =>
    have hlt := Arena.raw_lt_size hn
    have hmore : f.below f.arena.size i = f.below (f.arena.size + 1) i :=
      below_eq h (Nat.le_of_lt hlt) (by omega)
    exact hmore

theorem mem_descendants : m ∈ f.descendants i ↔ ∃ c ∈ f.children i, m ∈ c :: f.descendants c := by
  rw [descendants_eq h, List.mem_flatMap]

/-- What holds of an index if it does of its children holds of all. -/
theorem children_induction {motive : NodeId → Prop}
    (step : ∀ i, (∀ c ∈ f.children i, motive c) → motive i) (i : NodeId) : motive i := by
  induction hraw : i.raw using Nat.strongRecOn generalizing i with
  | ind _ ih =>
    subst hraw
    exact step i fun c hc => ih c.raw (lt_of_mem_children h hc) c rfl

/-- The walk down from a node lists it and what lies below it, and goes on with what was pending. -/
theorem walkDown_cons (i : NodeId) : ∀ {pending rest : List NodeId}, f.WalkDown pending rest →
    f.WalkDown (i :: pending) (i :: f.descendants i ++ rest) := by
  induction i using children_induction h with
  | step i ih =>
    intro pending rest hrest
    have hall : ∀ cs : List NodeId, (∀ c ∈ cs, c ∈ f.children i) →
        f.WalkDown (cs ++ pending) ((cs.flatMap fun c => c :: f.descendants c) ++ rest) := by
      intro cs hcs
      induction cs with
      | nil => exact hrest
      | cons c cs ihcs =>
        have hlater := ihcs fun d hd => hcs d (List.mem_cons_of_mem _ hd)
        rw [List.flatMap_cons, List.append_assoc]
        exact ih c (hcs c List.mem_cons_self) hlater
    rw [descendants_eq h]
    exact .down (hall _ fun _ hc => hc)

theorem walkDown_children (i : NodeId) : f.WalkDown (f.children i) (f.descendants i) := by
  have hwalk := walkDown_cons h i .out
  rw [List.append_nil] at hwalk
  cases hwalk with
  | down hchildren => rwa [List.append_nil] at hchildren

theorem lt_of_mem_descendants : m ∈ f.descendants i → m.raw < i.raw := by
  induction i using children_induction h with
  | step i ih =>
    intro hm
    obtain ⟨c, hc, hmem⟩ := (mem_descendants h).mp hm
    have hlt := lt_of_mem_children h hc
    rcases List.mem_cons.mp hmem with rfl | hbelow
    · exact hlt
    · exact Nat.lt_trans (ih c hc hbelow) hlt

/-- The children of what lies below a node lie below it. -/
theorem mem_descendants_of_mem_children (hm : m ∈ f.children j) :
    j ∈ f.descendants i → m ∈ f.descendants i := by
  induction i using children_induction h with
  | step i ih =>
    intro hj
    obtain ⟨c, hc, hmem⟩ := (mem_descendants h).mp hj
    refine (mem_descendants h).mpr ⟨c, hc, List.mem_cons_of_mem _ ?_⟩
    rcases List.mem_cons.mp hmem with rfl | hbelow
    · exact (mem_descendants h).mpr ⟨m, hm, List.mem_cons_self⟩
    · exact ih c hc hbelow

/-- What lies at or below a child is that child, or is listed by a node that lies there. -/
theorem exists_mem_children (c : NodeId) :
    m ∈ c :: f.descendants c → m = c ∨ ∃ p ∈ c :: f.descendants c, m ∈ f.children p := by
  induction c using children_induction h with
  | step c ih =>
    intro hm
    rcases List.mem_cons.mp hm with rfl | hbelow
    · exact .inl rfl
    · obtain ⟨d, hd, hmem⟩ := (mem_descendants h).mp hbelow
      right
      rcases ih d hd hmem with rfl | ⟨p, hp, hlisted⟩
      · exact ⟨c, List.mem_cons_self, hd⟩
      · exact ⟨p, List.mem_cons_of_mem _ ((mem_descendants h).mpr ⟨d, hd, hp⟩), hlisted⟩

/-! ### Where no node is listed twice besides -/

section Once

variable (honce : (f.arena.nodes.flatMap Node.children).Nodup)
include honce

omit h in
theorem eq_of_mem_children (hi : c ∈ f.children i) (hj : c ∈ f.children j) : i = j := by
  obtain ⟨n, hn, hcn⟩ := mem_children.mp hi
  obtain ⟨m, hm, hcm⟩ := mem_children.mp hj
  exact Arena.eq_of_listed honce (mem_entries_of_node? hn) (mem_entries_of_node? hm) hcn hcm

omit h in
theorem nodup_children (i : NodeId) : (f.children i).Nodup := by
  cases hn : f.node? i with
  | none => simp [children, hn]
  | some n =>
    have hmem := List.mem_of_getElem? (Arena.mem_entries.mp (mem_entries_of_node? hn))
    simpa [children, hn] using (List.nodup_flatMap.mp honce).1 n hmem

/-- A node lies at or below one child of another at most. By induction on what lists it. -/
theorem eq_of_mem_below {x c d : NodeId} (hc : c ∈ f.children i) (hd : d ∈ f.children i)
    (hxc : x ∈ c :: f.descendants c) (hxd : x ∈ d :: f.descendants d) : c = d := by
  have hle : ∀ {e p : NodeId}, e ∈ f.children i → p ∈ e :: f.descendants e → p.raw < i.raw := by
    intro e p he hp
    have hlt := lt_of_mem_children h he
    rcases List.mem_cons.mp hp with rfl | hbelow
    · exact hlt
    · exact Nat.lt_trans (lt_of_mem_descendants h hbelow) hlt
  induction hgap : i.raw - x.raw using Nat.strongRecOn generalizing x with
  | ind _ ih =>
    subst hgap
    rcases exists_mem_children h c hxc with rfl | ⟨p, hp, hxp⟩ <;>
      rcases exists_mem_children h d hxd with rfl | ⟨q, hq, hxq⟩
    · rfl
    · rw [eq_of_mem_children honce hxq hc] at hq
      exact absurd (hle hd hq) (Nat.lt_irrefl _)
    · rw [eq_of_mem_children honce hxp hd] at hp
      exact absurd (hle hc hp) (Nat.lt_irrefl _)
    · obtain rfl := eq_of_mem_children honce hxp hxq
      have hlt := lt_of_mem_children h hxp
      have hbefore := hle hc hp
      exact ih (i.raw - p.raw) (by omega) hp hq rfl

theorem nodup_descendants (i : NodeId) : (f.descendants i).Nodup := by
  induction i using children_induction h with
  | step i ih =>
    rw [descendants_eq h, List.nodup_flatMap]
    refine ⟨fun c hc => List.nodup_cons.mpr ⟨fun hmem => ?_, ih c hc⟩, ?_⟩
    · exact Nat.lt_irrefl _ (lt_of_mem_descendants h hmem)
    · refine (nodup_children honce i).pairwise_of_forall_ne fun c hc d hd hne => ?_
      exact fun x hxc hxd => hne (eq_of_mem_below h honce hc hd hxc hxd)

variable (hregular : f.arena.Regular)
include hregular

/-- The link of a node that is listed goes to the node that lists it. -/
theorem parent_of_mem_children (hk : f.node? m = some k) (hm : m ∈ f.children i) : k.parent = i := by
  obtain ⟨n, hn, hlisted⟩ := mem_children.mp hm
  have hlater := lt_of_mem_children h hm
  cases hregular.adopted m k (mem_entries_of_node? hk) with
  | parent hp hpm => exact Arena.eq_of_listed honce hp (mem_entries_of_node? hn) hpm hlisted
  | nobody _ hnobody =>
    have hle := hnobody i n (mem_entries_of_node? hn) hlisted
    omega

theorem above_of_mem_children (hk : f.node? m = some k) (hm : m ∈ f.children i) : f.Above k i := by
  obtain ⟨n, hn, -⟩ := mem_children.mp hm
  obtain rfl := parent_of_mem_children h honce hregular hk hm
  exact .parent hn

theorem above_of_mem_descendants (hk : f.node? m = some k) : m ∈ f.descendants i → f.Above k i := by
  induction i using children_induction h with
  | step i ih =>
    intro hm
    obtain ⟨c, hc, hmem⟩ := (mem_descendants h).mp hm
    rcases List.mem_cons.mp hmem with rfl | hbelow
    · exact above_of_mem_children h honce hregular hk hc
    · have habove := ih c hc hbelow
      obtain ⟨n, hn⟩ := exists_node?_of_above habove
      exact habove.trans hn (above_of_mem_children h honce hregular hn hc)

omit honce in
theorem mem_descendants_of_above (hk : f.node? m = some k) (hi : f.Above k i) : m ∈ f.descendants i := by
  have hlisted : ∀ {m k p}, f.node? m = some k → f.node? k.parent = some p →
      m ∈ f.children k.parent := by
    intro m k p hk hp
    have hne : k.parent ≠ NodeId.none := fun heq => by simp [heq] at hp
    obtain ⟨-, q, hq, hmem⟩ := exists_of_parent_ne_none hregular (mem_entries_of_node? hk) hne
    exact mem_children.mpr ⟨q, hq, hmem⟩
  induction hi generalizing m with
  | parent hp => exact (mem_descendants h).mpr ⟨m, hlisted hk hp, List.mem_cons_self⟩
  | further hp _ ih => exact mem_descendants_of_mem_children h (hlisted hk hp) (ih hp)

end Once

end First

/-- Where a file is assembled from nodes that are there and none is listed twice, be it by its maker or as
the name that a step makes itself, the walk down from a node ends with its descendants: no node twice,
each child followed by what lies below it, and all the nodes that the node lies above. -/
theorem descendants_iff_above (name : String) (steps : List Draft.Step) (statements : List NodeId)
    (hgiven : Draft.GivenNodes statements { name } steps)
    (honce : ((ofSteps name steps statements).arena.nodes.flatMap Node.children).Nodup) :
    let f := ofSteps name steps statements
    ∀ i, (∀ below, f.WalkDown (f.children i) below ↔ below = f.descendants i) ∧
      (f.descendants i).Nodup ∧
      f.descendants i = (f.children i).flatMap (fun c => c :: f.descendants c) ∧
      ∀ m k, f.node? m = some k → (m ∈ f.descendants i ↔ f.Above k i) := by
  intro f i
  have hregular : f.arena.Regular := regular_ofSteps name steps statements
  have hfirst : f.arena.ChildrenFirst := hgiven.childrenFirst Arena.childrenFirst_empty
  have hwalk := walkDown_children hfirst i
  refine ⟨fun below => ⟨fun hbelow => hbelow.unique hwalk, fun heq => heq ▸ hwalk⟩,
    nodup_descendants hfirst honce i, descendants_eq hfirst i, fun m k hk => ⟨?_, ?_⟩⟩
  · exact above_of_mem_descendants hfirst honce hregular hk
  · exact mem_descendants_of_above hfirst hregular hk

/-- The steps of a block with the call `f(a.b);`. -/
def nestedCall : List Draft.Step :=
  [.identifier "f", .identifier "a", .propertyAccess ⟨1⟩ "b", .call ⟨0⟩ [⟨3⟩],
    .expressionStatement ⟨4⟩, .block [⟨5⟩]]

/-- The call lies above the name in its argument, and the argument does not lie above the callee. -/
theorem descendants_nestedCall :
    let f := ofSteps "a.ts" nestedCall [⟨6⟩]
    Draft.GivenNodes [⟨6⟩] { name := "a.ts" } nestedCall ∧
      (f.arena.nodes.flatMap Node.children).Nodup ∧
      f.WalkDown (f.children ⟨6⟩) [⟨5⟩, ⟨4⟩, ⟨0⟩, ⟨3⟩, ⟨1⟩, ⟨2⟩] ∧
      (∃ k, f.node? ⟨2⟩ = some k ∧ f.Above k ⟨4⟩) ∧ ∃ k, f.node? ⟨0⟩ = some k ∧ ¬ f.Above k ⟨3⟩ := by
  intro f
  have hgiven : Draft.GivenNodes [⟨6⟩] { name := "a.ts" } nestedCall := by decide
  have honce : (f.arena.nodes.flatMap Node.children).Nodup := by decide
  have hall := descendants_iff_above "a.ts" nestedCall [⟨6⟩] hgiven honce
  refine ⟨hgiven, honce, ((hall ⟨6⟩).1 _).mpr (by decide), ⟨_, rfl, ?_⟩, ⟨_, rfl, ?_⟩⟩
  · exact ((hall ⟨4⟩).2.2.2 ⟨2⟩ _ rfl).mp (by decide)
  · exact fun habove => absurd (((hall ⟨3⟩).2.2.2 ⟨0⟩ _ rfl).mpr habove) (by decide)

end SourceFile

end Misfit
