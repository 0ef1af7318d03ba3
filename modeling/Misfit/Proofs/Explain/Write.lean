import Misfit.Proofs.Explain.Coherent
import Misfit.Tree.Draft

/-!
# Writes to undeclared properties

A write `o.key = v` is explained by the end of the path of its access. The path holds the objects along
the access, outermost first, up to the first one whose type is not known. So the explanation is about the
write itself if no object is left out of the path. Where the path ends early, it is about an object
further out and the key that this one is asked for.
-/
namespace Misfit

/-- The object and the key, without the type. -/
def Segment.hop (segment : Segment) : NodeId × String := (segment.node, segment.key)

/-- An entry that is recorded is the evidence with its kind. -/
theorem Recorded.eq_of_add {r r' : Recorded} {e e' : Evidence} {kind : ConflictKind}
    (hsame : r'.found = r.found) (h : (r'.add e').found = r.found ++ [(e, kind)]) :
    e = e' ∧ kind = e'.kind r'.missingIndex := by
  have hentry : r.found ++ [(e', e'.kind r'.missingIndex)] = r.found ++ [(e, kind)] := hsame ▸ h
  obtain ⟨rfl, rfl⟩ := Prod.mk.inj (List.singleton_inj.mp (List.append_cancel_left hentry))
  exact ⟨rfl, rfl⟩

namespace SourceFile

/-- The access itself is the first hop. -/
theorem eq_of_head?_hops {f : SourceFile} {steps : Nat} {access : NodeId} {hop : NodeId × String}
    (h : (f.hops steps access).head? = some hop) :
    hop = (f.child access 0, f.accessedName (f.child access 1)) := by
  cases steps with
  | zero => simp [hops] at h
  | succ steps =>
    simp only [hops] at h
    split at h
    · simp at h
    · rename_i n hn
      split at h
      · obtain rfl := Option.some.inj h
        simp [child, hn]
      · simp at h

end SourceFile

namespace Site

variable (s : Site)

/-- The number of objects along an access that are left out of its path: from the outside, all of them
from the first one on whose type is not known. -/
def leftOut (access : NodeId) : Nat :=
  (s.source.hops Limits.accessPath.depth access).length - (s.accessPath access).length

/-- The segments of an access are its outermost hops. By induction on the hops. -/
theorem segments_prefix (before : Option Segment) (hops : List (NodeId × String)) :
    (s.segments before hops).map Segment.hop <+: hops := by
  induction hops generalizing before with
  | nil => simp [segments]
  | cons hop rest ih =>
    obtain ⟨node, key⟩ := hop
    rw [segments]
    split
    · exact List.nil_prefix
    · exact List.prefix_cons_inj _ |>.mpr (ih _)

/-- No segment is left out where the types of all objects are known. -/
theorem length_segments_of_typed {hops : List (NodeId × String)}
    (h : ∀ hop ∈ hops, (s.typeOf hop.1).isSome = true) (before : Option Segment) :
    (s.segments before hops).length = hops.length := by
  induction hops generalizing before with
  | nil => rfl
  | cons hop rest ih =>
    obtain ⟨node, key⟩ := hop
    obtain ⟨htyped, hrest⟩ := List.forall_mem_cons.mp h
    obtain ⟨type, htype⟩ := Option.isSome_iff_exists.mp htyped
    rw [segments, resolve, htype, Option.some_or]
    simp [ih hrest]

theorem leftOut_eq_zero_of_typed {access : NodeId}
    (h : ∀ hop ∈ s.source.hops Limits.accessPath.depth access, (s.typeOf hop.1).isSome = true) :
    s.leftOut access = 0 := by
  have hlength := s.length_segments_of_typed (fun hop hhop => h hop (List.mem_reverse.mp hhop)) none
  rw [leftOut, accessPath, hlength, List.length_reverse, Nat.sub_self]

/-- The last segment of a path is the innermost hop that is not left out. -/
theorem hop_of_getLast?_accessPath {access : NodeId} {segment : Segment}
    (h : (s.accessPath access).getLast? = some segment) :
    (s.source.hops Limits.accessPath.depth access)[s.leftOut access]? = some segment.hop := by
  obtain ⟨left, hleft⟩ := s.segments_prefix none (s.source.hops Limits.accessPath.depth access).reverse
  obtain ⟨outer, hpath⟩ := List.getLast?_eq_some_iff.mp h
  rw [show s.segments none _ = s.accessPath access from rfl, hpath] at hleft
  have hhops : s.source.hops Limits.accessPath.depth access =
      left.reverse ++ segment.hop :: (outer.map Segment.hop).reverse := by
    simpa using (congrArg List.reverse hleft).symm
  have hcount : s.leftOut access = left.length := by
    rw [leftOut, hhops, hpath]
    simp
  rw [hcount, hhops, List.getElem?_append_right (by simp)]
  simp

/-- A value is written where the access is the left side of an assignment. -/
theorem assignment_of_writtenValue? {access value : NodeId} (h : s.writtenValue? access = some value) :
    ∃ assignment, s.source.node? (s.source.parent access) = some assignment ∧
      assignment.kind = .binaryExpression ∧ assignment.flags.assignment = true ∧
      assignment.child 0 = access ∧ assignment.child 1 = value := by
  obtain ⟨assignment, hparent, hvalue⟩ := Option.bind_eq_some_iff.mp h
  split at hvalue
  · rename_i hassigns
    exact ⟨assignment, hparent, hassigns.1, hassigns.2.1, hassigns.2.2, Option.some.inj hvalue⟩
  · simp at hvalue

/-- What a write records: the evidence about the last segment of the path, sorted as for a map if the type
of the segment has index signatures. -/
theorem recorded_of_explainWrite {r : Recorded} {e : Evidence} {kind : ConflictKind}
    (h : (s.explainWrite r).2.found = r.found ++ [(e, kind)]) :
    ∃ value type segment, s.writtenValue? s.root = some value ∧ s.typeOf value = some type ∧
      (s.accessPath s.root).getLast? = some segment ∧
      e =
        { conflict := s.placeholderConflict (s.breadcrumbs (s.accessPath s.root).dropLast) segment.node
            segment.type (describePlaceholder segment.key (s.types.renderWidened type)
              (s.source.link value) type) segment.key
          source := some value, target := some segment.node
          missingKey := some ⟨segment.key, segment.type⟩ } ∧
      kind = e.kind (r.missingIndex || !(s.types.indexes segment.type).isEmpty) := by
  unfold explainWrite at h
  split at h
  · simp at h
  rename_i value hvalue
  split at h
  · simp at h
  rename_i type htype
  dsimp only at h
  split at h
  · simp at h
  rename_i segment hsegment
  refine ⟨value, type, segment, hvalue, htype, hsegment, ?_⟩
  cases hindexes : (s.types.indexes segment.type).isEmpty with
  | false =>
    rw [hindexes, if_neg Bool.false_ne_true] at h
    obtain ⟨he, hkind⟩ := Recorded.eq_of_add rfl h
    exact ⟨he, by rw [hkind, Bool.not_false, Bool.or_true, he]⟩
  | true =>
    rw [hindexes, if_pos rfl] at h
    obtain ⟨he, hkind⟩ := Recorded.eq_of_add rfl h
    exact ⟨he, by rw [hkind, Bool.not_true, Bool.or_false, he]⟩

/-- What is recorded of a write is about the last segment of the path. -/
theorem evidence_of_explainWrite {r : Recorded} {e : Evidence} {kind : ConflictKind}
    (h : (s.explainWrite r).2.found = r.found ++ [(e, kind)]) :
    ∃ value segment, s.writtenValue? s.root = some value ∧
      (s.accessPath s.root).getLast? = some segment ∧ e.source = some value ∧
      e.target = some segment.node ∧ e.missingKey = some ⟨segment.key, segment.type⟩ ∧
      e.conflict.IsAbout segment.key := by
  obtain ⟨value, type, segment, hvalue, -, hsegment, rfl, -⟩ := s.recorded_of_explainWrite h
  exact ⟨value, segment, hvalue, hsegment, rfl, rfl, rfl, s.isAbout_placeholderConflict _ _ _ _ _⟩

/-- The explanation of a write is about the innermost object that is not left out of the path of the
access, and about the key that this object is asked for. If no object is left out, these are the object
and the key that are written to. -/
theorem explainWrite_about {s : Site} {r : Recorded} {e : Evidence} {kind : ConflictKind}
    (h : (s.explainWrite r).2.found = r.found ++ [(e, kind)]) :
    ∃ assignment object key type,
      s.source.node? (s.source.parent s.root) = some assignment ∧
        assignment.kind = .binaryExpression ∧ assignment.flags.assignment = true ∧
        assignment.child 0 = s.root ∧
      e.source = some (assignment.child 1) ∧ e.target = some object ∧
        e.missingKey = some ⟨key, type⟩ ∧ e.conflict.IsAbout key ∧
      (s.source.hops Limits.accessPath.depth s.root)[s.leftOut s.root]? = some (object, key) ∧
      (s.leftOut s.root = 0 → object = s.source.child s.root 0 ∧
        key = s.source.accessedName (s.source.child s.root 1)) := by
  obtain ⟨value, segment, hvalue, hsegment, hsource, htarget, hkey, habout⟩ :=
    s.evidence_of_explainWrite h
  obtain ⟨assignment, hparent, hkind, hflag, hleft, rfl⟩ := s.assignment_of_writtenValue? hvalue
  have hhop := s.hop_of_getLast?_accessPath hsegment
  refine ⟨assignment, segment.node, segment.key, segment.type, hparent, hkind, hflag, hleft, hsource,
    htarget, hkey, habout, hhop, fun hnone => ?_⟩
  rw [hnone, ← List.head?_eq_getElem?] at hhop
  exact Prod.mk.inj (SourceFile.eq_of_head?_hops hhop)

/-- The write `a.b.c.d = "s"`, flagged at the access. The types of `a` and `a.b.c` are known, and that of
`a.b` is as given. -/
def chainedWrite (between : Option TypeId) : Site :=
  let (t, outer) := Types.initial.object { properties := [{ name := "x", type := .string }] }
  let (t, inner) := t.object { properties := [{ name := "y", type := .number }] }
  let d : Draft := { name := "a.ts" }
  let (d, a) := d.identifier "a"
  let (d, b) := d.propertyAccess a "b"
  let (d, c) := d.propertyAccess b "c"
  let (d, access) := d.propertyAccess c "d"
  let (d, value) := d.stringLiteral "s"
  let (d, assignment) := d.assignment access value
  let (d, statement) := d.expressionStatement assignment
  let source := d.finish [statement]
  let file : FileId := ⟨0⟩
  let known := [((file, a), outer), ((file, c), inner), ((file, access), TypeId.any),
    ((file, value), TypeId.string)]
  let nodeTypes := known ++ between.toList.map fun type => ((file, b), type)
  { program := { types := t, files := [source], nodeTypes }, options := {}, file, source
    index := Index.build source, flagged := access, root := access }

/-- Where the type of `a.b` is not known, the explanation of the write is about the key `b` of `a`, not
about the key `d` of `a.b.c`. -/
theorem explainWrite_cutsAccess :
    let s := chainedWrite none
    s.source.child s.root 0 = ⟨4⟩ ∧ (s.typeOf ⟨4⟩).isSome = true ∧
      s.source.accessedName (s.source.child s.root 1) = "d" ∧
      (s.explainWrite {}).2.found.map
        (fun (e, _) => (e.source, e.target, e.missingKey.map MissingKey.key)) =
          [(some ⟨7⟩, some ⟨0⟩, some "b")] := by
  decide +kernel

/-- Where it is known, nothing is left out, and the explanation is about the write. -/
theorem explainWrite_about_chainedWrite :
    let s := chainedWrite (some .object)
    ∃ e kind, (s.explainWrite {}).2.found = [(e, kind)] ∧ s.leftOut s.root = 0 ∧
      ∃ assignment object key type, s.source.node? (s.source.parent s.root) = some assignment ∧
        e.source = some (assignment.child 1) ∧ e.target = some object ∧
        e.missingKey = some ⟨key, type⟩ ∧ e.conflict.IsAbout key ∧ object = ⟨4⟩ ∧ key = "d" := by
  intro s
  have hfound : (s.explainWrite {}).2.found.length = 1 := by decide +kernel
  obtain ⟨⟨e, kind⟩, hfound⟩ := List.length_eq_one_iff.mp hfound
  have hleft : s.leftOut s.root = 0 := s.leftOut_eq_zero_of_typed (by decide +kernel)
  obtain ⟨assignment, object, key, type, hparent, -, -, -, hsource, htarget, hkey, habout, -, hwritten⟩ :=
    explainWrite_about (r := {}) hfound
  obtain ⟨hobject, hname⟩ := hwritten hleft
  exact ⟨e, kind, hfound, hleft, assignment, object, key, type, hparent, hsource, htarget, hkey, habout,
    hobject.trans (by decide +kernel), hname.trans (by decide +kernel)⟩

end Site

end Misfit
