import Misfit.Explain.Access
import Misfit.Proofs.Types.Requests

/-!
# The path of an access

An access such as `a.b.c` is nested: its object `a.b` is an access itself, and so on down to `a`. Its path
begins at the outermost object, or further in where the access is nested too deep, and goes on as long as
the types of the objects can be told. The type of an object is the one it was given, or else that of the
property that the object before it is asked for. Either way, it is narrowed to the member of a union that
has the next property, and the narrowed type is what the next object is looked up on.

Every way along an access whose objects resolve like this is a beginning of its path. So the path is the
longest one.
-/
namespace Misfit

namespace Types

/-- What a type comes to for a key that it is asked for: the first member of a union that declares the
key, or the type itself if no union has such a member. -/
inductive NarrowsTo (t : Types) (type : TypeId) (key : String) : TypeId → Prop
  | member {before after : List TypeId} {m : TypeId} (hunion : t.isUnion type = true)
    (hmembers : t.members type = before ++ m :: after) (hbefore : ∀ k ∈ before, t.property? k key = none)
    (hm : (t.property? m key).isSome = true) : NarrowsTo t type key m
  | whole (h : t.isUnion type = true → ∀ m ∈ t.members type, t.property? m key = none) :
    NarrowsTo t type key type

/-- No union has a single member. -/
def NoLoneMember (t : Types) : Prop := ∀ i, t.isUnion i = true → (t.members i).length ≠ 1

variable {t : Types} {type m : TypeId} {key : String}

theorem noLoneMember_of_lists (h : ∀ l ∈ t.lists.toList, 2 ≤ l.length) : t.NoLoneMember := by
  intro i hunion
  obtain ⟨list, -, hmembers⟩ := exists_list_of_isUnion hunion
  rw [hmembers, listAt, Array.getD_eq_getD_getElem?]
  cases hlist : t.lists[list.raw]? with
  | none => simp
  | some members =>
    have hlength := h members (by simpa using Array.mem_of_getElem? hlist)
    rw [Option.getD_some]
    omega

/-- Lists of union members are entered with at least two of them, whatever is asked of a table. -/
theorem two_le_length_serve (h : ∀ l ∈ t.lists.toList, 2 ≤ l.length) (r : Request) :
    ∀ l ∈ (t.serve r).lists.toList, 2 ≤ l.length := by
  cases r with
  | intern d => exact h
  | perform op =>
    have hperformed := t.performed op
    rw [serve]
    generalize t.perform op = answer at hperformed
    cases hperformed with
    | nothing hu => exact hu.lists_eq ▸ h
    | @entered u d hu =>
      have hlists : (u.intern d).1.lists = t.lists := hu.lists_eq
      exact hlists ▸ h
    | union _ _ hlength =>
      exact fun l hl => (mem_or_eq_of_mem_enter hl).elim (h l) fun heq => heq ▸ hlength

/-- So no union of a table has a single member, whatever has been asked of it. By induction on the
requests. -/
theorem noLoneMember_serveAll (rs : List Request) : (initial.serveAll rs).NoLoneMember := by
  have hserved : ∀ t : Types, (∀ l ∈ t.lists.toList, 2 ≤ l.length) →
      ∀ l ∈ (t.serveAll rs).lists.toList, 2 ≤ l.length := by
    induction rs with
    | nil => exact fun _ h => h
    | cons r rs ih => exact fun t h => ih (t.serve r) (two_le_length_serve h r)
  exact noLoneMember_of_lists (hserved initial (by simp [initial]))

/-- Nothing is narrowed where no member of a union declares the key. -/
theorem declaringMember_of_none
    (h : t.isUnion type = true → ∀ k ∈ t.members type, t.property? k key = none) :
    t.declaringMember type key = type := by
  unfold declaringMember
  dsimp only
  split
  · rfl
  · rename_i hlength
    have hunion : t.isUnion type = true := by
      by_contra hother
      simp [members_eq_of_not_isUnion (Bool.eq_false_iff.mpr hother)] at hlength
    rw [List.find?_eq_none.mpr fun k hk => by simp [h hunion k hk], Option.getD_none]

theorem NoLoneMember.declaringMember_eq (h : t.NoLoneMember) (hunion : t.isUnion type = true)
    (hfirst : (t.members type).find? (fun k => (t.property? k key).isSome) = some m) :
    t.declaringMember type key = m := by
  have hlength : ¬ (t.members type).length < 2 := by
    have hlone := h type hunion
    have hpos := List.length_pos_of_mem (List.mem_of_find?_eq_some hfirst)
    omega
  simp only [declaringMember, if_neg hlength, hfirst, Option.getD_some]

/-- Where no union has a single member, narrowing comes to one type. -/
theorem NoLoneMember.narrowsTo_iff (h : t.NoLoneMember) :
    t.NarrowsTo type key m ↔ t.declaringMember type key = m := by
  constructor
  · intro hn
    cases hn with
    | whole hnone => exact declaringMember_of_none hnone
    | @member before after _ hunion hmembers hbefore hm =>
      exact h.declaringMember_eq hunion (List.find?_eq_some_iff_append.mpr
        ⟨hm, before, after, hmembers, fun k hk => by simp [hbefore k hk]⟩)
  · rintro rfl
    by_cases hnone : t.isUnion type = true → ∀ k ∈ t.members type, t.property? k key = none
    · rw [declaringMember_of_none hnone]
      exact .whole hnone
    · push Not at hnone
      obtain ⟨hunion, k, hk, hdeclares⟩ := hnone
      obtain ⟨m, hfirst⟩ :
          ∃ m, (t.members type).find? (fun k => (t.property? k key).isSome) = some m :=
        Option.isSome_iff_exists.mp
          (List.find?_isSome.mpr ⟨k, hk, Option.isSome_iff_ne_none.mpr hdeclares⟩)
      obtain ⟨hm, before, after, hmembers, hbefore⟩ := List.find?_eq_some_iff_append.mp hfirst
      rw [h.declaringMember_eq hunion hfirst]
      exact .member hunion hmembers (fun k hk => by simpa using hbefore k hk) hm

end Types

namespace SourceFile

/-- The access is nested: going from it to its object, and from object to object, the origin is reached.
The pairs are the objects on the way, the origin first, and the names that they are asked for. -/
inductive Nests (f : SourceFile) (origin : NodeId) : NodeId → List (NodeId × String) → Prop
  | origin : Nests f origin origin []
  | access {access : NodeId} {n : Node} {pairs : List (NodeId × String)}
    (hn : f.node? access = some n) (hkind : n.kind = .propertyAccessExpression)
    (h : Nests f origin (n.child 0) pairs) :
    Nests f origin access (pairs ++ [(n.child 0, f.accessedName (n.child 1))])

variable {f : SourceFile} {origin access : NodeId} {pairs : List (NodeId × String)}

theorem hops_of_not_access (h : f.kind? access ≠ some .propertyAccessExpression) (steps : Nat) :
    f.hops steps access = [] := by
  cases steps with
  | zero => rfl
  | succ steps =>
    rw [hops]
    split
    · rfl
    · rename_i n hn
      exact if_neg fun hkind => h (by rw [kind?, hn, Option.map_some, hkind])

/-- The hops of an access are its pairs from the inside out, as many as there are steps. By induction on
the way from the access to its origin. -/
theorem Nests.hops_eq (h : f.Nests origin access pairs) {steps : Nat}
    (hend : f.kind? origin = some .propertyAccessExpression → steps ≤ pairs.length) :
    f.hops steps access = pairs.reverse.take steps := by
  induction h generalizing steps with
  | origin =>
    by_cases hkind : f.kind? origin = some .propertyAccessExpression
    · rw [Nat.le_zero.mp (hend hkind)]
      rfl
    · rw [hops_of_not_access hkind]
      simp
  | @access access n pairs hn hkind _ ih =>
    cases steps with
    | zero => rfl
    | succ steps =>
      have hinner := ih fun horigin => by simpa using hend horigin
      rw [hops, hn]
      simp [hkind, hinner]

/-- Every access is nested, down to an object that is no access itself or as deep as one likes. -/
theorem exists_nests (f : SourceFile) (steps : Nat) (access : NodeId) :
    ∃ origin, f.Nests origin access (f.hops steps access).reverse ∧
      (f.kind? origin = some .propertyAccessExpression → steps ≤ (f.hops steps access).length) := by
  induction steps generalizing access with
  | zero => exact ⟨access, .origin, fun _ => Nat.zero_le _⟩
  | succ steps ih =>
    by_cases hkind : f.kind? access = some .propertyAccessExpression
    · obtain ⟨n, hn, hkind⟩ := Option.map_eq_some_iff.mp hkind
      obtain ⟨origin, hnests, hend⟩ := ih (n.child 0)
      have hhops : f.hops (steps + 1) access =
          (n.child 0, f.accessedName (n.child 1)) :: f.hops steps (n.child 0) := by
        rw [hops, hn]
        exact if_pos hkind
      rw [hhops, List.reverse_cons, List.length_cons]
      exact ⟨origin, .access hn hkind hnests, fun horigin => Nat.succ_le_succ (hend horigin)⟩
    · rw [hops_of_not_access hkind]
      exact ⟨access, .origin, fun horigin => absurd horigin hkind⟩

end SourceFile

namespace Site

variable (s : Site)

/-- The object has a type, be it the one that it was given or else that of the property that the object
before it is asked for. -/
def Resolves (before : Option Segment) (object : NodeId) (type : TypeId) : Prop :=
  s.typeOf object = some type ∨ s.typeOf object = none ∧
    ∃ segment ∈ before, ∃ m ∈ s.types.property? segment.type segment.key, m.type = type

/-- A way along an access, from its first pairs on: every object resolves, after the one before it, and
its segment carries the object, its name and the type narrowed for that name. -/
inductive Follows : Option Segment → List (NodeId × String) → List Segment → Prop
  | stop {before : Option Segment} {pairs : List (NodeId × String)} : Follows before pairs []
  | step {before : Option Segment} {object : NodeId} {name : String} {type narrowed : TypeId}
    {rest : List (NodeId × String)} {path : List Segment} (hr : s.Resolves before object type)
    (hn : s.types.NarrowsTo type name narrowed) (h : Follows (some ⟨object, narrowed, name⟩) rest path) :
    Follows before ((object, name) :: rest) (⟨object, narrowed, name⟩ :: path)

variable {s} {before : Option Segment} {pairs : List (NodeId × String)} {path : List Segment}

theorem resolves_iff {object : NodeId} {type : TypeId} :
    s.Resolves before object type ↔ s.resolve before object = some type := by
  cases htype : s.typeOf object with
  | some given => simp [Resolves, resolve, htype]
  | none =>
    cases before with
    | none => simp [Resolves, resolve, htype]
    | some segment => simp [Resolves, resolve, htype]

theorem segments_of_none {object : NodeId} {name : String} {rest : List (NodeId × String)}
    (h : s.resolve before object = none) : s.segments before ((object, name) :: rest) = [] := by
  simp only [segments, h]

theorem segments_of_some {object : NodeId} {name : String} {type : TypeId}
    {rest : List (NodeId × String)} (h : s.resolve before object = some type) :
    s.segments before ((object, name) :: rest) =
      ⟨object, s.types.declaringMember type name, name⟩ ::
        s.segments (some ⟨object, s.types.declaringMember type name, name⟩) rest := by
  simp only [segments, h]

/-- The ways along an access are the beginnings of one of them. By induction on the pairs. -/
theorem follows_iff (h : s.types.NoLoneMember) :
    s.Follows before pairs path ↔ path <+: s.segments before pairs := by
  constructor
  · intro hf
    induction hf with
    | stop => exact List.nil_prefix
    | step hr hn _ ih =>
      obtain rfl := h.narrowsTo_iff.mp hn
      rw [segments_of_some (resolves_iff.mp hr)]
      exact (List.prefix_cons_inj _).mpr ih
  · intro hp
    induction pairs generalizing before path with
    | nil =>
      rw [List.prefix_nil.mp hp]
      exact .stop
    | cons pair rest ih =>
      obtain ⟨object, name⟩ := pair
      cases hr : s.resolve before object with
      | none =>
        rw [segments_of_none hr] at hp
        rw [List.prefix_nil.mp hp]
        exact .stop
      | some type =>
        rw [segments_of_some hr] at hp
        cases path with
        | nil => exact .stop
        | cons segment tail =>
          obtain ⟨rfl, htail⟩ := List.cons_prefix_cons.mp hp
          exact .step (resolves_iff.mpr hr) (h.narrowsTo_iff.mpr rfl) (ih htail)

/-- The path of an access is the longest way along its innermost pairs, of which twenty at most are looked
at. Its breadcrumbs are one layer for each segment, in the same order, with a placeholder of which nothing
but the name is known. That no union has a single member is so in every table that requests have built
(`Types.noLoneMember_serveAll`). -/
theorem accessPath_longest (h : s.types.NoLoneMember) {access origin : NodeId}
    (hnests : s.source.Nests origin access pairs)
    (hend : s.source.kind? origin = some .propertyAccessExpression → 20 ≤ pairs.length) :
    let window := pairs.drop (pairs.length - min pairs.length 20)
    s.Follows none window (s.accessPath access) ∧
      (∀ path, s.Follows none window path → path <+: s.accessPath access) ∧
      (s.breadcrumbs (s.accessPath access)).layers = (s.accessPath access).map fun segment =>
        ⟨s.describe segment.node segment.type, .placeholder {} (some segment.key)⟩ := by
  intro window
  have hpath : s.accessPath access = s.segments none window := by
    have hhops : s.source.hops Limits.accessPath.depth access = pairs.reverse.take 20 := hnests.hops_eq hend
    have hwindow : (pairs.reverse.take 20).reverse = window := by
      rw [List.reverse_take, List.reverse_reverse, List.length_reverse]
      exact congrArg pairs.drop (by omega)
    rw [accessPath, hhops, hwindow]
  rw [hpath]
  exact ⟨(follows_iff h).mpr List.prefix_rfl, fun path => (follows_iff h).mp, Trail.layers_ofLayers _⟩

/-- The file of the access `a.next.next`, and so on with as many names as given. The names stand at odd
places, each before the access that it is part of. -/
def chainedAccess (names : Nat) : SourceFile where
  name := "a.ts"
  root := ⟨2 * names⟩
  arena := ⟨(List.range (2 * names + 1)).map fun i =>
    let text := "a" ++ String.join (List.replicate (i / 2) ".next")
    if i % 2 = 1 then { kind := .identifier, text := "next", line := 1 }
    else if i = 0 then { kind := .identifier, text, line := 1 }
    else { kind := .propertyAccessExpression, children := [⟨i - 2⟩, ⟨i - 1⟩], text, line := 1 }⟩

/-- The nodes of a list, each of which has another node after it or the end. -/
def listRequests : List Types.Request :=
  [.perform (.declareObject "Stop"), .perform (.declareObject "Node"),
    .perform (.union [⟨15⟩, ⟨16⟩]),
    .perform (.defineObject ⟨16⟩
      { name := some "Node", properties := [{ name := "next", type := ⟨17⟩ }] })]

/-- An access with twenty-one names, along the nodes of a list. The only object of a known type is
`a.next`. -/
def longAccess : Site :=
  let source := chainedAccess 21
  let file : FileId := ⟨0⟩
  { program :=
      { types := Types.initial.serveAll listRequests, files := [source]
        nodeTypes := [((file, ⟨2⟩), ⟨17⟩)] }
    options := {}, file, source, index := Index.build source, flagged := source.root
    root := source.root }

/-- The object `a` is out of sight, so the path begins at `a.next` and goes on to the end, with the nodes
of the list as its types. -/
theorem accessPath_longAccess :
    longAccess.types.NoLoneMember ∧ ∃ origin pairs,
      longAccess.source.Nests origin longAccess.root pairs ∧
      longAccess.source.kind? origin ≠ some .propertyAccessExpression ∧ pairs.length = 21 ∧
      longAccess.Follows none (pairs.drop 1) (longAccess.accessPath longAccess.root) ∧
      (longAccess.accessPath longAccess.root).map (fun segment => (segment.type, segment.key)) =
        List.replicate 20 (⟨16⟩, "next") ∧
      (longAccess.accessPath longAccess.root).head?.map Segment.node = some ⟨2⟩ ∧
      (longAccess.breadcrumbs (longAccess.accessPath longAccess.root)).layers.length = 20 := by
  have hunions : longAccess.types.NoLoneMember := Types.noLoneMember_serveAll listRequests
  have hlength : (longAccess.source.hops 22 longAccess.root).length = 21 := by decide +kernel
  have hpath : (longAccess.accessPath longAccess.root).map
      (fun segment => (segment.type, segment.key)) = List.replicate 20 (⟨16⟩, "next") := by
    decide +kernel
  have hfirst : (longAccess.accessPath longAccess.root).head?.map Segment.node = some ⟨2⟩ := by
    decide +kernel
  -- From here on the access itself does not matter, and it is not to be evaluated again.
  generalize longAccess = s at *
  obtain ⟨origin, hnests, hend⟩ := s.source.exists_nests 22 s.root
  have horigin : s.source.kind? origin ≠ some .propertyAccessExpression := fun h => by
    have hdeep := hend h
    omega
  have hpairs : (s.source.hops 22 s.root).reverse.length = 21 := by rw [List.length_reverse, hlength]
  obtain ⟨hfollows, -, hlayers⟩ := accessPath_longest hunions hnests fun h => absurd h horigin
  rw [hpairs] at hfollows
  refine ⟨hunions, origin, _, hnests, horigin, hpairs, hfollows, hpath, hfirst, ?_⟩
  rw [hlayers, List.length_map]
  simpa using congrArg List.length hpath

end Site

end Misfit
