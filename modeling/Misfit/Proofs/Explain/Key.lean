import Misfit.Proofs.Explain.Write
import Misfit.Proofs.Types.Operations

/-!
# Keys that maps accept

An index signature accepts a key as a whole: for its text, with a literal in place of which stands the type
it belongs to, or because it is a number where strings are asked for. A union has no category of its members
and is not widened, so it is accepted where the signature is for `any` or prints the same, whatever becomes
of its members one by one. This is asked when a map is read from, and not when a property is written to: a
write to a property that is not declared misses an index wherever there are index signatures.
-/
namespace Misfit

namespace Types

variable {t : Types} {signature key : TypeId}

theorem categories_of_isUnion (h : t.isUnion key = true) : t.categories key = [.union] := by
  unfold isUnion at h
  split at h
  · rename_i list hlist
    simp [categories, hlist, TypeData.categories]
  · simp at h

/-- A union is not widened. -/
theorem renderWidened_of_isUnion (h : t.isUnion key = true) : t.renderWidened key = t.render key := by
  simp [renderWidened, isOneOf, categories_of_isUnion h, Category.stringLike, Category.numberLike,
    Category.booleanLike, Category.bigintLike]

/-- A union is accepted by its own text only, or by `any`. -/
theorem Sound.acceptsKey_of_isUnion (hs : t.Sound) (h : t.isUnion key = true) :
    t.acceptsKey signature key = true ↔
      signature = TypeId.any ∨ t.render signature = t.render key := by
  have hany : key ≠ TypeId.any := by
    rintro rfl
    simp [hs.isUnion_any] at h
  have hnumber : t.isOneOf key Category.numberLike = false := by
    simp [isOneOf, categories_of_isUnion h, Category.numberLike]
  simp [acceptsKey, hany, hnumber, renderWidened_of_isUnion h]

/-- Strings are accepted by signatures that print as `string`, and by `any`. -/
theorem Sound.acceptsKey_string (hs : t.Sound) :
    t.acceptsKey signature TypeId.string = true ↔
      signature = TypeId.any ∨ t.render signature = "string" := by
  have hmem : (TypeId.string, TypeData.intrinsic .string) ∈ reservedData := by decide
  have hcategories : t.categories TypeId.string = [.string] := by
    simp [categories, hs.get?_of_mem_reservedData hmem, TypeData.categories, Intrinsic.category]
  have hwidened : t.renderWidened TypeId.string = "string" := by
    simp [renderWidened, isOneOf, hcategories, Category.stringLike]
  have hany : TypeId.string ≠ TypeId.any := by decide
  have hnumber : t.isOneOf TypeId.string Category.numberLike = false := by
    simp [isOneOf, hcategories, Category.numberLike]
  simp [acceptsKey, hany, hnumber, hwidened]

end Types

namespace Site

variable (s : Site)

/-- A conflict about a key is sorted by whether the object has the key, and if it does not, by whether it
counts as a map. -/
theorem kind_placeholderConflict (base : Trail) (node : NodeId) (target : TypeId)
    (placeholder : Description) (key : String) (indexed : Bool) :
    (s.placeholderConflict base node target placeholder key).clash.kind indexed =
      if key ∈ (s.types.properties target).map Member.name then .propMismatch
      else if indexed then .missingIndex else .targetPropMissing := by
  by_cases hkey : key ∈ (s.types.properties target).map Member.name
  · simp [placeholderConflict, Clash.kind, ShapeClash.kind, ShapeClash.surplusMissing, hkey]
  · cases indexed <;>
      simp [placeholderConflict, Clash.kind, ShapeClash.kind, ShapeClash.surplusMissing, hkey]

/-- The kind of a conflict about a key tells which of the three it was. -/
theorem kind_about_key_iff {declared : Prop} [Decidable declared] {signatures : List IndexSignature}
    {kind : ConflictKind} (h : kind = if declared then .propMismatch
      else if !signatures.isEmpty then .missingIndex else .targetPropMissing) :
    (kind = .missingIndex ↔ signatures ≠ [] ∧ ¬declared) ∧
      (kind = .targetPropMissing ↔ signatures = [] ∧ ¬declared) ∧ (kind = .propMismatch ↔ declared) := by
  subst h
  by_cases hdeclared : declared
  · simp [hdeclared]
  · cases signatures <;> simp [hdeclared]

/-! ### Writing to a property -/

/-- A write is sorted by what the type of the object has. It misses an index exactly if the type has index
signatures and does not declare the key. That they reject strings is not asked for; they do unless one of
them is for `any` or prints as `string`. -/
theorem explainWrite_kind {s : Site} (hbuilt : s.program.types.Built) {e : Evidence} {kind : ConflictKind}
    (h : (s.explainWrite {}).2.found = [(e, kind)]) :
    ∃ key type, e.missingKey = some ⟨key, type⟩ ∧
      (kind = .missingIndex ↔
        s.types.indexes type ≠ [] ∧ key ∉ (s.types.properties type).map Member.name) ∧
      (kind = .targetPropMissing ↔
        s.types.indexes type = [] ∧ key ∉ (s.types.properties type).map Member.name) ∧
      (kind = .propMismatch ↔ key ∈ (s.types.properties type).map Member.name) ∧
      ((∀ signature ∈ s.types.indexes type, s.types.acceptsKey signature.key TypeId.string = false) ↔
        ∀ signature ∈ s.types.indexes type,
          signature.key ≠ TypeId.any ∧ s.types.render signature.key ≠ "string") := by
  obtain ⟨value, type, segment, -, -, -, he, hkind⟩ := s.recorded_of_explainWrite (r := {}) h
  have hsorted : kind = if segment.key ∈ (s.types.properties segment.type).map Member.name then .propMismatch
      else if !(s.types.indexes segment.type).isEmpty then .missingIndex else .targetPropMissing := by
    rw [hkind, he, Evidence.kind, Clash.classify_none, kind_placeholderConflict]
    rfl
  have hrejects : (∀ signature ∈ s.types.indexes segment.type,
        s.types.acceptsKey signature.key TypeId.string = false) ↔
      ∀ signature ∈ s.types.indexes segment.type,
        signature.key ≠ TypeId.any ∧ s.types.render signature.key ≠ "string" := by
    refine forall₂_congr fun signature _ => ?_
    rw [← Bool.not_eq_true, types, hbuilt.sound.acceptsKey_string, not_or]
  obtain ⟨hindex, hmissing, hmismatch⟩ := kind_about_key_iff hsorted
  exact ⟨segment.key, segment.type, by rw [he], hindex, hmissing, hmismatch, hrejects⟩

/-- The write `table.size = true` to a map of the given shape, flagged at the access. -/
def mapWrite (shape : ObjectShape) : Site :=
  let (t, map) := Types.initial.object shape
  let d : Draft := { name := "a.ts" }
  let (d, table) := d.identifier "table"
  let (d, access) := d.propertyAccess table "size"
  let (d, value) := d.booleanLiteral true
  let (d, assignment) := d.assignment access value
  let (d, statement) := d.expressionStatement assignment
  let source := d.finish [statement]
  let file : FileId := ⟨0⟩
  let nodeTypes := [((file, table), map), ((file, access), TypeId.any), ((file, value), .booleanTrue)]
  { program := { types := t, files := [source], nodeTypes }, options := {}, file, source
    index := Index.build source, flagged := access, root := access }

theorem built_mapWrite (shape : ObjectShape) : (mapWrite shape).program.types.Built :=
  Types.Built.initial.object shape

/-- A write to a map for strings misses an index, though the map accepts strings. -/
theorem explainWrite_passesIndex :
    let s := mapWrite { indexes := [⟨TypeId.string, TypeId.number⟩] }
    (s.explainWrite {}).2.found.map (fun (e, kind) => (e.missingKey, kind)) =
        [(some ⟨"size", ⟨15⟩⟩, .missingIndex)] ∧
      (s.types.indexes ⟨15⟩).any (s.types.acceptsKey ·.key TypeId.string) = true := by
  decide +kernel

/-- A write to a map for numbers misses an index that rejects strings. -/
theorem explainWrite_kind_mapWrite :
    let s := mapWrite { indexes := [⟨TypeId.number, TypeId.number⟩] }
    s.program.types.Built ∧ ∃ e kind, (s.explainWrite {}).2.found = [(e, kind)] ∧ kind = .missingIndex ∧
      ∀ signature ∈ s.types.indexes ⟨15⟩, s.types.acceptsKey signature.key TypeId.string = false := by
  intro s
  have hbuilt : s.program.types.Built := built_mapWrite _
  have hone : (s.explainWrite {}).2.found.length = 1 := by decide +kernel
  obtain ⟨⟨e, kind⟩, hfound⟩ := List.length_eq_one_iff.mp hone
  obtain ⟨key, type, hkey, hindex, -, -, hrejects⟩ := explainWrite_kind hbuilt hfound
  have hevidence : (s.explainWrite {}).2.found.map (fun (e, _) => e.missingKey) = [some ⟨"size", ⟨15⟩⟩] := by
    decide +kernel
  obtain ⟨rfl, rfl⟩ : key = "size" ∧ type = ⟨15⟩ := by simpa [hfound, hkey] using hevidence
  exact ⟨hbuilt, e, kind, hfound, hindex.mpr (by decide +kernel), hrejects.mpr (by decide +kernel)⟩

/-! ### Reading from a map -/

/-- A read by a key that the map rejects is about the text of the key. -/
theorem evidence_of_rejectedKey? {access : NodeId} {map key : TypeId} {e : Evidence}
    (hmap : s.typeOf (s.source.child access 0) = some map)
    (hkey : s.typeOf (s.source.child access 1) = some key) (h : s.rejectedKey? access = some e) :
    let text := "[key: " ++ s.types.renderWidened key ++ "]"
    e =
      { conflict := s.placeholderConflict Trail.empty (s.source.child access 0) map
          (describePlaceholder text "any" (s.source.link (s.source.child access 1)) TypeId.any) text
        source := some (s.source.child access 1), target := some (s.source.child access 0)
        missingKey := some ⟨text, map⟩ } := by
  simp only [rejectedKey?, hmap, hkey] at h
  split at h
  · simp at h
  · exact (Option.some.inj h).symm

/-- A read is not rejected if the key is accepted by one of the signatures, or if there are none. -/
theorem rejectedKey?_eq_none_iff {access : NodeId} {map key : TypeId}
    (hmap : s.typeOf (s.source.child access 0) = some map)
    (hkey : s.typeOf (s.source.child access 1) = some key) :
    s.rejectedKey? access = none ↔ s.types.indexes map = [] ∨
      ∃ signature ∈ s.types.indexes map, s.types.acceptsKey signature.key key = true := by
  simp only [rejectedKey?, hmap, hkey]
  split
  · rename_i haccepted
    simpa using haccepted
  · rename_i hrejected
    simpa using hrejected

/-- A read from a map by a key that is one of several types is passed over exactly if a signature of the
map is for `any` or prints as the union does. Otherwise it is explained by the text of the union, and no
question is asked about the members. -/
theorem rejectedKey?_of_isUnion {s : Site} (hbuilt : s.program.types.Built) {access : NodeId}
    {map key : TypeId} (hmap : s.typeOf (s.source.child access 0) = some map)
    (hkey : s.typeOf (s.source.child access 1) = some key) (hindexed : s.types.indexes map ≠ [])
    (hunion : s.types.isUnion key = true) :
    let text := "[key: " ++ s.types.render key ++ "]"
    (s.rejectedKey? access = none ↔ ∃ signature ∈ s.types.indexes map,
      signature.key = TypeId.any ∨ s.types.render signature.key = s.types.render key) ∧
    ∀ e, s.rejectedKey? access = some e →
      e.source = some (s.source.child access 1) ∧ e.target = some (s.source.child access 0) ∧
        e.missingKey = some ⟨text, map⟩ ∧
        e.kind true = if text ∈ (s.types.properties map).map Member.name then .propMismatch
          else .missingIndex := by
  intro text
  have haccepts : ∀ signature : IndexSignature, s.types.acceptsKey signature.key key = true ↔
      signature.key = TypeId.any ∨ s.types.render signature.key = s.types.render key :=
    fun signature => hbuilt.sound.acceptsKey_of_isUnion hunion
  constructor
  · rw [s.rejectedKey?_eq_none_iff hmap hkey, or_iff_right hindexed]
    exact exists_congr fun signature => and_congr_right fun _ => haccepts signature
  · intro e he
    have heq := s.evidence_of_rejectedKey? hmap hkey he
    rw [Types.renderWidened_of_isUnion hunion] at heq
    refine ⟨by rw [heq], by rw [heq], by rw [heq], ?_⟩
    rw [heq, Evidence.kind, Clash.classify_none, kind_placeholderConflict, if_pos rfl]

/-- The declaration `const label: string = table[name]`, where `table` is a map with a signature for the
given keys, and `name` is `"a"` or `"b"`. -/
def mapRead (signature : TypeId) : Site :=
  let (t, a) := Types.initial.literal (.string "a")
  let (t, b) := t.literal (.string "b")
  let (t, union) := t.union [a, b]
  let (t, map) := t.object { indexes := [⟨signature, TypeId.string⟩] }
  let d : Draft := { name := "a.ts" }
  let (d, table) := d.identifier "table"
  let (d, name) := d.identifier "name"
  let (d, access) := d.elementAccess table name
  let (d, declaration) := d.variableDeclaration "label" (some "string") (some access)
  let (d, statement) := d.variableStatement declaration
  let source := d.finish [statement]
  let file : FileId := ⟨0⟩
  let nodeTypes := [((file, table), map), ((file, name), union), ((file, access), TypeId.string),
    ((file, declaration), TypeId.string)]
  { program := { types := t, files := [source], nodeTypes }, options := {}, file, source
    index := Index.build source, flagged := access, root := declaration }

theorem built_mapRead (signature : TypeId) : (mapRead signature).program.types.Built :=
  (((Types.Built.initial.literal (.string "a")).literal (.string "b")).union [⟨15⟩, ⟨16⟩]).object
    { indexes := [⟨signature, TypeId.string⟩] }

/-- A map for strings accepts either text as a key, and rejects a key that is one of them. -/
theorem rejectedKey?_eitherText :
    let s := mapRead TypeId.string
    s.types.isUnion ⟨17⟩ = true ∧
      (∀ member ∈ s.types.members ⟨17⟩, ∃ signature ∈ s.types.indexes ⟨18⟩,
        s.types.acceptsKey signature.key member = true) ∧
      (s.rejectedKey? ⟨2⟩).map (fun e => (e.missingKey, e.kind true)) =
        some (some ⟨"[key: \"a\" | \"b\"]", ⟨18⟩⟩, .missingIndex) := by
  decide +kernel

/-- A map for such keys does not reject them, and one for strings does. -/
theorem rejectedKey?_of_isUnion_mapRead :
    (mapRead ⟨17⟩).rejectedKey? ⟨2⟩ = none ∧ (mapRead TypeId.string).rejectedKey? ⟨2⟩ ≠ none := by
  have hmap (signature : TypeId) : (mapRead signature).typeOf
      ((mapRead signature).source.child ⟨2⟩ 0) = some ⟨18⟩ := rfl
  have hkey (signature : TypeId) : (mapRead signature).typeOf
      ((mapRead signature).source.child ⟨2⟩ 1) = some ⟨17⟩ := rfl
  constructor
  · have h := rejectedKey?_of_isUnion (built_mapRead ⟨17⟩) (hmap ⟨17⟩) (hkey ⟨17⟩) (by decide) (by decide)
    exact h.1.mpr ⟨⟨⟨17⟩, TypeId.string⟩, by decide, Or.inr rfl⟩
  · have h := rejectedKey?_of_isUnion (built_mapRead TypeId.string) (hmap TypeId.string)
      (hkey TypeId.string) (by decide) (by decide)
    rw [Ne, h.1]
    decide +kernel

end Site

end Misfit
