import Misfit.Proofs.Tree.Above
import Misfit.Tree.Index

/-!
# Lexical scoping

A name is looked up in the scopes around the node that bears it, from the inside out: the nearest block or
file above it, the nearest one above that, and so on, and at the end the root of the file, which stands in
where a node lies detached. The first scope that declares the name decides, and in it the last declaration.
-/
namespace Misfit

namespace SourceFile

variable (f : SourceFile)

/-- The scope that a node lies in: the nearest block or file above it, or else the root. -/
inductive LiesIn (n : Node) : NodeId → Prop
  | nearest {scope : NodeId} (h : f.Nearest n (·.kind.isScope) scope) : LiesIn n scope
  | root (h : ∀ scope, ¬ f.Nearest n (·.kind.isScope) scope) : LiesIn n f.root

/-- The scopes around a node, innermost first and the root last. -/
inductive ScopesAround : Node → List NodeId → Prop
  | root {n : Node} (h : ∀ scope, ¬ f.Nearest n (·.kind.isScope) scope) : ScopesAround n [f.root]
  | inside {n m : Node} {scope : NodeId} {outer : List NodeId} (h : f.Nearest n (·.kind.isScope) scope)
    (hm : f.node? scope = some m) (houter : ScopesAround m outer) : ScopesAround n (scope :: outer)

/-- A declaration of a name that lies in a scope. -/
def Declares (scope : NodeId) (name : String) (d : NodeId) : Prop :=
  ∃ n, (d, n) ∈ f.arena.entries ∧ n.kind = .variableDeclaration ∧ n.name = some name ∧ f.LiesIn n scope

/-- What a name that a node bears refers to: the last declaration of it in the first of the scopes that has
one, or else the node itself. -/
inductive RefersTo (name : String) (bearer : NodeId) : List NodeId → NodeId → Prop
  | here {scope d : NodeId} {outer : List NodeId} (h : f.Declares scope name d)
    (hlast : ∀ e, f.Declares scope name e → e.raw ≤ d.raw) : RefersTo name bearer (scope :: outer) d
  | outside {scope d : NodeId} {outer : List NodeId} (h : ∀ e, ¬ f.Declares scope name e)
    (houter : RefersTo name bearer outer d) : RefersTo name bearer (scope :: outer) d
  | nowhere : RefersTo name bearer [] bearer

variable {f} {n m : Node} {i scope : NodeId} {name : String}

section Regular

variable (h : f.arena.Regular)
include h

theorem scopeAt_parent_eq_iff : f.scopeAt n.parent = scope ↔ f.LiesIn n scope := by
  have hfound := fun s => findAbove_parent_eq_some_iff (i := s) (n := n) (p := (·.kind.isScope)) h
  rw [scopeAt]
  cases hs : f.findAbove n.parent (·.kind.isScope) with
  | none =>
    have hnone : ∀ s, ¬ f.Nearest n (·.kind.isScope) s := fun s hs' => by
      rw [(hfound s).mpr hs'] at hs
      cases hs
    constructor
    · rintro rfl
      exact .root hnone
    · intro hlies
      cases hlies with
      | nearest hs' => exact absurd hs' (hnone _)
      | root => rfl
  | some s =>
    have hnearest := (hfound s).mp hs
    constructor
    · rintro rfl
      exact .nearest hnearest
    · intro hlies
      cases hlies with
      | nearest hs' => exact Option.some.inj (hs.symm.trans ((hfound _).mpr hs'))
      | root hnone => exact absurd hnearest (hnone s)

/-- The scope of a node comes after it, unless it is the root. -/
theorem scopeAt_root_or_later (hn : (i, n) ∈ f.arena.entries) : f.scopeAt n.parent = f.root ∨
    (∃ m, f.node? (f.scopeAt n.parent) = some m) ∧ i.raw < (f.scopeAt n.parent).raw := by
  have hlies := (scopeAt_parent_eq_iff h (n := n)).mp rfl
  generalize f.scopeAt n.parent = scope at hlies ⊢
  cases hlies with
  | root => exact .inl rfl
  | nearest hs => exact .inr ⟨exists_node?_of_above hs.above, lt_of_above h hn hs.above⟩

/-- Nothing lies above the last node. -/
theorem not_above_root (hroot : f.arena.size = f.root.raw + 1) (hm : f.node? f.root = some m) :
    ¬ f.Above m i := by
  intro hi
  obtain ⟨k, hk⟩ := exists_node?_of_above hi
  have hlt := lt_of_above h (mem_entries_of_node? hm) hi
  have hsize := Arena.raw_lt_size hk
  omega

/-- There are scopes around every node. By induction on the nodes that come after it. -/
theorem exists_scopesAround (hn : (i, n) ∈ f.arena.entries) : ∃ scopes, f.ScopesAround n scopes := by
  induction hgap : f.arena.size - i.raw using Nat.strongRecOn generalizing i n with
  | ind _ ih =>
    subst hgap
    by_cases hscope : ∃ s, f.Nearest n (·.kind.isScope) s
    · obtain ⟨s, hs⟩ := hscope
      obtain ⟨m, hm⟩ := exists_node?_of_above hs.above
      have hmem := mem_entries_of_node? hm
      have hlt := lt_of_above h hn hs.above
      have hsize := Arena.raw_lt_of_mem_entries hmem
      obtain ⟨outer, houter⟩ := ih (f.arena.size - s.raw) (by omega) hmem rfl
      exact ⟨s :: outer, .inside hs hm houter⟩
    · exact ⟨[f.root], .root fun s hs => hscope ⟨s, hs⟩⟩

end Regular

end SourceFile

namespace Index

/-- The search for a declaration from a scope outward, with no bound on it: it ends where a scope declares
the name, or else at the root or where there is no scope. -/
inductive Search (x : Index) (f : SourceFile) (i : NodeId) : NodeId → NodeId → Prop
  | found {scope d : NodeId} (h : x.lookup scope (f.text i) = some d) : Search x f i scope d
  | ended {scope : NodeId} (h : x.lookup scope (f.text i) = none)
    (hend : scope = f.root ∨ scope = NodeId.none) : Search x f i scope i
  | outward {scope d : NodeId} (h : x.lookup scope (f.text i) = none)
    (hgoes : ¬ (scope = f.root ∨ scope = NodeId.none))
    (hd : Search x f i (f.scopeAt (f.parent scope)) d) : Search x f i scope d

variable {f : SourceFile} {x : Index} {i d e scope : NodeId} {n : Node} {name : String}

/-- One search from a scope comes to one end. -/
theorem Search.unique (hd : x.Search f i scope d) (he : x.Search f i scope e) : d = e := by
  induction hd with
  | found h =>
    cases he with
    | found h' => exact Option.some.inj (h.symm.trans h')
    | ended h' => simp [h] at h'
    | outward h' => simp [h] at h'
  | ended h hend =>
    cases he with
    | found h' => simp [h] at h'
    | ended => rfl
    | outward _ hgoes => exact absurd hend hgoes
  | outward h hgoes _ ih =>
    cases he with
    | found h' => simp [h] at h'
    | ended _ hend => exact absurd hend hgoes
    | outward _ _ he' => exact ih he'

theorem declaration_of_binding? {b : Binding} (hb : binding? f i n = some b) : b.declaration = i := by
  unfold binding? at hb
  split at hb
  · obtain rfl := Option.some.inj hb
    rfl
  · simp at hb

theorem pairwise_bindings (f : SourceFile) :
    (build f).bindings.Pairwise fun b c => b.declaration.raw < c.declaration.raw := by
  refine List.pairwise_filterMap.mpr (f.arena.pairwise_entries.imp fun {y z} hlt b hb c hc => ?_)
  rw [declaration_of_binding? hb, declaration_of_binding? hc]
  exact hlt

section Regular

variable (h : f.arena.Regular)
include h

theorem mem_bindings : ⟨scope, name, d⟩ ∈ (build f).bindings ↔ f.Declares scope name d := by
  simp only [build, List.mem_filterMap, Prod.exists, SourceFile.Declares]
  constructor
  · rintro ⟨j, n, hn, hbinding⟩
    unfold binding? at hbinding
    split at hbinding
    · rename_i hkind
      obtain ⟨declared, hdeclared⟩ := Option.isSome_iff_exists.mp ((h.laidOut j n hn).declaration hkind).1
      simp only [hdeclared, Option.getD_some, Option.some.injEq, Binding.mk.injEq] at hbinding
      obtain ⟨hscope, rfl, rfl⟩ := hbinding
      exact ⟨n, hn, hkind, hdeclared, (SourceFile.scopeAt_parent_eq_iff h).mp hscope⟩
    · simp at hbinding
  · rintro ⟨n, hn, hkind, hname, hlies⟩
    refine ⟨d, n, hn, ?_⟩
    simp [binding?, hkind, hname, (SourceFile.scopeAt_parent_eq_iff h).mpr hlies]

theorem lookup_eq_none_iff :
    (build f).lookup scope name = none ↔ ∀ e, ¬ f.Declares scope name e := by
  simp only [lookup, Option.map_eq_none_iff, List.find?_eq_none, List.mem_reverse, decide_eq_true_eq]
  constructor
  · exact fun hnone e he => hnone _ ((mem_bindings h).mpr he) ⟨rfl, rfl⟩
  · rintro hnone ⟨s, t, e⟩ hmem ⟨rfl, rfl⟩
    exact hnone e ((mem_bindings h).mp hmem)

/-- No declaration of the name in the scope comes after the one that is found. -/
theorem declares_of_lookup (hd : (build f).lookup scope name = some d) :
    f.Declares scope name d ∧ ∀ e, f.Declares scope name e → e.raw ≤ d.raw := by
  refine ⟨(mem_bindings h).mp (exists_binding_of_lookup hd), fun e he => ?_⟩
  obtain ⟨b, hb, rfl⟩ := Option.map_eq_some_iff.mp hd
  obtain ⟨-, later, earlier, hsplit, hlater⟩ := List.find?_eq_some_iff_append.mp hb
  have hsorted := List.pairwise_reverse.mpr (pairwise_bindings f)
  have hmem := List.mem_reverse.mpr ((mem_bindings h).mpr he)
  rw [hsplit] at hsorted hmem
  rcases List.mem_append.mp hmem with hfirst | hrest
  · simpa using hlater _ hfirst
  rcases List.mem_cons.mp hrest with rfl | hrest
  · exact Nat.le_refl _
  · exact Nat.le_of_lt (List.rel_of_pairwise_cons (List.pairwise_append.mp hsorted).2.1 hrest)

/-- Of the declarations of a name in one scope the last is found. -/
theorem lookup_eq_some_iff : (build f).lookup scope name = some d ↔
    f.Declares scope name d ∧ ∀ e, f.Declares scope name e → e.raw ≤ d.raw := by
  refine ⟨declares_of_lookup h, fun ⟨hd, hlast⟩ => ?_⟩
  cases hfound : (build f).lookup scope name with
  | none => exact absurd hd ((lookup_eq_none_iff h).mp hfound d)
  | some e =>
    obtain ⟨he, hlast'⟩ := declares_of_lookup h hfound
    exact congrArg some (congrArg NodeId.mk (Nat.le_antisymm (hlast e he) (hlast' d hd)))

/-- The bounded search is the unbounded one: each scope that it goes on to comes after the one before, or is
the root. By induction on the bound. -/
theorem search_scopesFrom (x : Index) {steps : Nat} (hpos : 0 < steps)
    (hsteps : scope = f.root ∨ (∃ m, f.node? scope = some m) ∧ f.arena.size < steps + scope.raw) :
    x.Search f i scope
      (((scopesFrom f steps scope).findSome? fun s => x.lookup s (f.text i)).getD i) := by
  induction steps generalizing scope with
  | zero => exact absurd hpos (Nat.lt_irrefl _)
  | succ steps ih =>
    rw [scopesFrom, List.findSome?_cons]
    cases hfound : x.lookup scope (f.text i) with
    | some d => exact .found hfound
    | none =>
      by_cases hroot : scope = f.root
      · simpa [hroot] using Search.ended hfound (.inl hroot)
      · obtain ⟨⟨m, hm⟩, hsize⟩ := hsteps.resolve_left hroot
        have hlt := Arena.raw_lt_size hm
        have hparent : f.parent scope = m.parent := by simp [SourceFile.parent, hm]
        rw [if_neg hroot]
        refine .outward hfound (not_or.mpr ⟨hroot, (SourceFile.node?_eq_some_iff.mp hm).1⟩)
          (ih (by omega) ?_)
        rw [hparent]
        refine (SourceFile.scopeAt_root_or_later h (SourceFile.mem_entries_of_node? hm)).imp_right ?_
        exact fun ⟨hnext, hlater⟩ => ⟨hnext, by omega⟩

/-- What a name refers to is what the search from the innermost scope comes to. By induction on the scopes:
the root ends the search, as no scope lies around it. -/
theorem search_of_refersTo (hroot : f.arena.size = f.root.raw + 1) {scopes : List NodeId}
    (hscopes : f.ScopesAround n scopes) (hd : f.RefersTo (f.text i) i scopes d) :
    (build f).Search f i (f.scopeAt n.parent) d := by
  induction hscopes with
  | root hnone =>
    rw [(SourceFile.scopeAt_parent_eq_iff h).mpr (.root hnone)]
    cases hd with
    | here hdecl hlast => exact .found ((lookup_eq_some_iff h).mpr ⟨hdecl, hlast⟩)
    | outside hempty hnowhere =>
      cases hnowhere
      exact .ended ((lookup_eq_none_iff h).mpr hempty) (.inl rfl)
  | @inside n m scope outer hs hm houter ih =>
    rw [(SourceFile.scopeAt_parent_eq_iff h).mpr (.nearest hs)]
    cases hd with
    | here hdecl hlast => exact .found ((lookup_eq_some_iff h).mpr ⟨hdecl, hlast⟩)
    | outside hempty hrest =>
      have hfound := (lookup_eq_none_iff h).mpr hempty
      by_cases hend : scope = f.root
      · subst hend
        cases houter with
        | inside hs' => exact absurd hs'.above (SourceFile.not_above_root h hroot hm)
        | root =>
          cases hrest with
          | here hdecl => exact absurd hdecl (hempty _)
          | outside _ hnowhere =>
            cases hnowhere
            exact .ended hfound (.inl rfl)
      · have hparent : f.parent scope = m.parent := by simp [SourceFile.parent, hm]
        refine .outward hfound (not_or.mpr ⟨hend, (SourceFile.node?_eq_some_iff.mp hm).1⟩) ?_
        rw [hparent]
        exact ih hrest

/-- By induction on the scopes. -/
theorem exists_refersTo (name : String) (i : NodeId) (scopes : List NodeId) :
    ∃ d, f.RefersTo name i scopes d := by
  induction scopes with
  | nil => exact ⟨i, .nowhere⟩
  | cons scope outer ih =>
    cases hfound : (build f).lookup scope name with
    | some d =>
      obtain ⟨hdecl, hlast⟩ := declares_of_lookup h hfound
      exact ⟨d, .here hdecl hlast⟩
    | none =>
      obtain ⟨d, hd⟩ := ih
      exact ⟨d, .outside ((lookup_eq_none_iff h).mp hfound) hd⟩

end Regular

/-- Whatever a file is assembled from, there are scopes around each node, and the search from the innermost
one ends. It comes to what the text of the node refers to: the last declaration of it in the first scope
that has one, or the node itself. -/
theorem declarationOf_refersTo (file : String) (steps : List Draft.Step) (statements : List NodeId)
    {i : NodeId} {n : Node} (hn : (SourceFile.ofSteps file steps statements).node? i = some n)
    (htext : n.text ≠ "") :
    let f := SourceFile.ofSteps file steps statements
    let x := build f
    (∃ scopes, f.ScopesAround n scopes) ∧
      (∀ scopes, f.ScopesAround n scopes →
        ∀ d, f.RefersTo n.text i scopes d ↔ d = x.declarationOf f i) ∧
      ∀ d, x.Search f i (f.scopeAt n.parent) d ↔ d = x.declarationOf f i := by
  intro f x
  have hregular : f.arena.Regular := SourceFile.regular_ofSteps file steps statements
  have hroot : f.arena.size = f.root.raw + 1 := SourceFile.size_ofSteps file steps statements
  have hmem : (i, n) ∈ f.arena.entries := SourceFile.mem_entries_of_node? hn
  have hname : f.text i = n.text := by simp [SourceFile.text, f, hn]
  have hparent : f.parent i = n.parent := by simp [SourceFile.parent, f, hn]
  have hsearch : x.Search f i (f.scopeAt n.parent) (x.declarationOf f i) := by
    rw [declarationOf, if_neg (by rwa [hname]), scopes, hparent]
    refine search_scopesFrom hregular x (Nat.succ_pos _) ?_
    refine (SourceFile.scopeAt_root_or_later hregular hmem).imp_right ?_
    exact fun ⟨hnext, hlater⟩ => ⟨hnext, by omega⟩
  refine ⟨SourceFile.exists_scopesAround hregular hmem, fun scopes hscopes d => ⟨fun hd => ?_, ?_⟩,
    fun d => ⟨fun hd => hd.unique hsearch, fun hd => hd ▸ hsearch⟩⟩
  · rw [← hname] at hd
    exact (search_of_refersTo hregular hroot hscopes hd).unique hsearch
  · rintro rfl
    obtain ⟨d, hd⟩ := exists_refersTo hregular (f.text i) i scopes
    obtain rfl := (search_of_refersTo hregular hroot hscopes hd).unique hsearch
    exact hname ▸ hd

/-- A file declares a name. A block declares it twice and then uses it, and another block that nothing lists
uses it as well. -/
def shadowed : List Draft.Step :=
  [.variableDeclaration "x" none none, .variableStatement ⟨1⟩, .variableDeclaration "x" none none,
    .variableDeclaration "x" none none, .identifier "x", .block [⟨4⟩, ⟨6⟩, ⟨7⟩], .identifier "x",
    .block [⟨9⟩]]

/-- In the one block the name refers to its second declaration there, in the other to that of the file. -/
theorem declarationOf_shadowed :
    let f := SourceFile.ofSteps "a.ts" shadowed [⟨2⟩, ⟨8⟩]
    (∃ n scopes, f.node? ⟨7⟩ = some n ∧ n.text ≠ "" ∧ f.ScopesAround n scopes ∧
        f.RefersTo n.text ⟨7⟩ scopes ⟨6⟩) ∧
      ∃ n scopes, f.node? ⟨9⟩ = some n ∧ n.text ≠ "" ∧ f.ScopesAround n scopes ∧
        f.RefersTo n.text ⟨9⟩ scopes ⟨1⟩ := by
  intro f
  have hrefers : ∀ {i n}, f.node? i = some n → n.text ≠ "" → ∃ scopes, f.ScopesAround n scopes ∧
      f.RefersTo n.text i scopes ((build f).declarationOf f i) := by
    intro i n hn htext
    obtain ⟨⟨scopes, hscopes⟩, hall, -⟩ :=
      declarationOf_refersTo "a.ts" shadowed [⟨2⟩, ⟨8⟩] hn htext
    exact ⟨scopes, hscopes, (hall scopes hscopes _).mpr rfl⟩
  have hused : f.node? ⟨7⟩ = some { kind := .identifier, parent := ⟨8⟩, text := "x", line := 1 } := rfl
  have hlost : f.node? ⟨9⟩ = some { kind := .identifier, parent := ⟨10⟩, text := "x", line := 1 } := rfl
  have htext : ("x" : String) ≠ "" := by decide
  obtain ⟨inner, hinner, hlast⟩ := hrefers hused htext
  obtain ⟨outer, houter, hfirst⟩ := hrefers hlost htext
  have hredeclared : (build f).declarationOf f ⟨7⟩ = ⟨6⟩ := by decide +kernel
  have houtermost : (build f).declarationOf f ⟨9⟩ = ⟨1⟩ := by decide +kernel
  rw [hredeclared] at hlast
  rw [houtermost] at hfirst
  exact ⟨⟨_, inner, hused, htext, hinner, hlast⟩, _, outer, hlost, htext, houter, hfirst⟩

end Index

end Misfit
