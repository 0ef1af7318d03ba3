import Misfit.Proofs.Compare.Place
import Misfit.Proofs.Types.Operations

/-!
# What the kind of a type clash tells

A type clash is sorted into its kind by a few facts that were recorded of each side, in an order that ends
in a catch-all. Read back, the kind tells what the two types are. Two things go into this: how a kind is
chosen, and that a comparison only reports a clash between types that have nothing to do with each other,
so that an array is never reported against a union with an array among its members.

The catch-all tells less than its name says. Everything that is not simple ends up there, and that includes
`undefined`, `null` and a union that is a member of another union.
-/
namespace Misfit

namespace Types

variable (t : Types)

/-- What the kind of a clash tells of the target and the source that clash. -/
structure ToldBy (kind : ConflictKind) (target source : TypeId) : Prop where
  objectToSimple : kind = .objectToSimple →
    (t.object? source).isSome = true ∨ t.isFunction source = true ∨ source = TypeId.undefined ∨
      source = TypeId.null ∨ t.isUnion source = true ∧ ∃ i, t.isUnion i = true ∧ source ∈ t.members i
  simpleToObject : kind = .simpleToObject → t.isSimple source = true ∧ t.isSimple target = false
  arrayToNonArray : kind = .arrayToNonArray →
    t.isArray source = true ∧ t.isArray target = false ∧ ∀ k ∈ t.members target, t.isArray k = false
  nonArrayToArray : kind = .nonArrayToArray → t.isArray target = true ∧ t.isArray source = false

variable {t} {i : TypeId}

theorem isSimple_eq_of_not_isUnion (h : t.isUnion i = false) :
    t.isSimple i = !t.isOneOf i Category.notSimple := by
  unfold isSimple isSimpleWithin
  split
  · rename_i list hi
    simp [isUnion, hi] at h
  · rfl

/-- Only unions, types with parts, `undefined`, `null` and `never` are not simple. -/
theorem Sound.cases_of_not_isSimple (h : t.Sound) (hs : t.isSimple i = false) :
    t.isUnion i = true ∨ t.isArray i = true ∨ (t.object? i).isSome = true ∨ t.isFunction i = true ∨
      i = TypeId.undefined ∨ i = TypeId.null ∨ i = TypeId.never := by
  cases hu : t.isUnion i with
  | true => exact Or.inl rfl
  | false =>
    rw [isSimple_eq_of_not_isUnion hu, Bool.not_eq_false'] at hs
    cases hd : t.get? i with
    | none => simp [isOneOf, categories, hd, Category.notSimple] at hs
    | some d =>
      cases d with
      | array element => simp [isArray, element?, hd]
      | object id => simp [object?, hd]
      | function id => simp [isFunction, function?, hd]
      | union list => simp [isUnion, hd] at hu
      | literal value =>
        cases value <;>
          simp [isOneOf, categories, hd, TypeData.categories, Literal.category, Category.notSimple] at hs
      | enumMember enum member value =>
        cases value <;>
          simp [isOneOf, categories, hd, TypeData.categories, Literal.category, Category.notSimple] at hs
      | intrinsic kind =>
        -- The reserved id is the only one that stands for a built-in type.
        have hreserved : ∀ j, (j, TypeData.intrinsic kind) ∈ reservedData → i = j := fun j hj =>
          h.id_inj hd (h.get?_of_mem_reservedData hj)
        cases kind with
        | undefined => simp [hreserved TypeId.undefined (by decide)]
        | null => simp [hreserved TypeId.null (by decide)]
        | never => simp [hreserved TypeId.never (by decide)]
        | _ =>
          simp [isOneOf, categories, hd, TypeData.categories, Intrinsic.category,
            Category.notSimple] at hs

theorem Sound.isNever_never (h : t.Sound) : t.isNever TypeId.never = true := by
  simp [isNever, element?, h.get?_never]

end Types

/-- The facts from which the kinds that name a sort of types are chosen. -/
theorem TypeClash.facts_of_kind (clash : TypeClash) :
    (clash.kind = .objectToSimple → clash.source.isNever = false ∧ clash.source.isSimple = false ∧
        clash.source.isArray = clash.target.isArray) ∧
      (clash.kind = .simpleToObject → clash.source.isSimple = true ∧ clash.target.isSimple = false) ∧
      (clash.kind = .arrayToNonArray → clash.source.isArray = true ∧ clash.target.isArray = false) ∧
      (clash.kind = .nonArrayToArray → clash.target.isArray = true ∧ clash.source.isArray = false) := by
  unfold TypeClash.kind
  grind

namespace Comparison

variable {c : Comparison} {target source : TypeId} {trail : Trail} {w : Walk} {conflict : Conflict}

/-- The kind of a clash between a target and a type that has nothing to do with its members tells what the
two are. -/
theorem toldBy_kind_typeClash {wide : Bool} {m : TypeId} (hs : c.program.types.Sound)
    (hm : m ∈ c.program.types.members source)
    (h : ∀ k ∈ c.program.types.members target, c.Unrelated wide k m) :
    c.program.types.ToldBy (c.program.typeClash target m).kind target m := by
  obtain ⟨hobject, hsimple, harray, hnonArray⟩ := TypeClash.facts_of_kind (c.program.typeClash target m)
  have hnoArray : c.program.types.isArray m = true →
      ∀ k ∈ c.program.types.members target, c.program.types.isArray k = false := by
    intro ha k hk
    simpa [ha] using (h k hk).isArray
  refine ⟨fun hkind => ?_, hsimple, fun hkind => ?_, hnonArray⟩
  · obtain ⟨hnever, hnotSimple, heq⟩ := hobject hkind
    rcases hs.cases_of_not_isSimple hnotSimple with hu | ha | ho | hf | hundefined | hnull | hn
    · refine .inr (.inr (.inr (.inr ⟨hu, source, ?_, hm⟩)))
      -- A type that is not a union has no member but itself.
      by_contra hsource
      obtain rfl := Types.eq_of_mem_members (by simpa using hsource) hm
      exact hsource hu
    · have hta : c.program.types.isArray target = true := heq.symm.trans ha
      have hno := hnoArray ha target (by
        simp [Types.members_eq_of_not_isUnion (Types.isUnion_eq_false_of_isArray hta)])
      simp [hta] at hno
    · exact .inl ho
    · exact .inr (.inl hf)
    · exact .inr (.inr (.inl hundefined))
    · exact .inr (.inr (.inr (.inl hnull)))
    · simp [Program.typeClash, Types.facts, hn, hs.isNever_never] at hnever
  · obtain ⟨ha, hta⟩ := harray hkind
    exact ⟨ha, hta, hnoArray ha⟩

/-- A conflict between two types as a whole names a target and a source, and its kind tells what they
are. -/
theorem toldBy_classify (hs : c.program.types.Sound)
    (h : (c.compare target source trail w).1 = some conflict) {clash : TypeClash}
    (hclash : conflict.clash = .types clash) :
    ∃ t s, clash.targetSide.type = some t ∧ clash.sourceSide.type = some s ∧
      c.program.types.ToldBy (conflict.clash.classify none false) t s := by
  obtain ⟨last, hexplains⟩ := explains_of_compare h
  rw [hclash] at hexplains ⊢
  cases hexplains with
  | @types t s m hr hm hunrelated =>
    refine ⟨t, m, rfl, rfl, ?_⟩
    simpa [Clash.kind] using toldBy_kind_typeClash hs hm hunrelated

variable (c) in
/-- The comparison ends in a clash whose kind is said to be an object that should be simple, though the
source that it names is no object, function or array. -/
def TakesForObject (target source named : TypeId) (trail : Trail) : Prop :=
  (c.conflict? target source trail).any (fun conflict =>
    conflict.clash.classify none false = .objectToSimple &&
      match conflict.clash with
      | .types clash => clash.sourceSide.type = some named
      | _ => false) = true ∧
    c.program.types.object? named = none ∧ c.program.types.isFunction named = false ∧
      c.program.types.isArray named = false

instance (target source named : TypeId) (trail : Trail) :
    Decidable (c.TakesForObject target source named trail) :=
  inferInstanceAs (Decidable (_ ∧ _))

/-- A union that was entered before the union among its members, which has the member `null`. -/
def nullableInUnion : Types :=
  let (t, _) := Types.initial.union [⟨16⟩, TypeId.boolean]
  (t.union [TypeId.string, TypeId.null]).1

/-- `undefined`, `null` and a union among the members of a union are taken for objects. -/
theorem takesForObject_nullable :
    let c : Comparison := ⟨{ types := nullableInUnion }, {}⟩
    c.TakesForObject TypeId.string TypeId.undefined TypeId.undefined Trail.empty ∧
      c.TakesForObject TypeId.string TypeId.null TypeId.null Trail.empty ∧
      c.TakesForObject TypeId.number ⟨15⟩ ⟨16⟩ Trail.empty := by
  decide

/-- An object type, an array type, and a union that has no array among its members. -/
def objectArrayAndUnion : List Types.Operation :=
  [.object { properties := [{ name := "x", type := TypeId.number }] }, .array TypeId.string,
    .union [TypeId.string, TypeId.number]]

/-- The object should be simple, and the array should be no array. -/
theorem toldBy_classify_objectArrayAndUnion :
    let c : Comparison := ⟨{ types := Types.initial.performAll objectArrayAndUnion }, {}⟩
    (∃ conflict clash, (c.compare TypeId.string ⟨15⟩ Trail.empty Walk.start).1 = some conflict ∧
      conflict.clash = .types clash ∧ conflict.clash.classify none false = .objectToSimple ∧
      ∃ t s, clash.targetSide.type = some t ∧ clash.sourceSide.type = some s ∧
        c.program.types.ToldBy .objectToSimple t s) ∧
    ∃ conflict clash, (c.compare ⟨17⟩ ⟨16⟩ Trail.empty Walk.start).1 = some conflict ∧
      conflict.clash = .types clash ∧ conflict.clash.classify none false = .arrayToNonArray ∧
      ∃ t s, clash.targetSide.type = some t ∧ clash.sourceSide.type = some s ∧
        c.program.types.ToldBy .arrayToNonArray t s := by
  intro c
  have hsound : c.program.types.Sound := (Types.Built.initial.performAll objectArrayAndUnion).sound
  have hkind : ∀ {target source kind},
      (c.compare target source Trail.empty Walk.start).1.map (fun conflict =>
        (conflict.clash matches .types _, conflict.clash.classify none false)) = some (true, kind) →
      ∃ conflict clash, (c.compare target source Trail.empty Walk.start).1 = some conflict ∧
        conflict.clash = .types clash ∧ conflict.clash.classify none false = kind ∧
        ∃ t s, clash.targetSide.type = some t ∧ clash.sourceSide.type = some s ∧
          c.program.types.ToldBy kind t s := by
    intro target source kind h
    obtain ⟨conflict, hconflict, heq⟩ := Option.map_eq_some_iff.mp h
    obtain ⟨hmatch, rfl⟩ := Prod.mk.inj heq
    cases hclash : conflict.clash with
    | types clash =>
      have htold := toldBy_classify hsound hconflict hclash
      rw [hclash] at htold
      exact ⟨conflict, clash, hconflict, hclash, hclash ▸ rfl, htold⟩
    | _ => simp [hclash] at hmatch
  exact ⟨hkind (by decide), hkind (by decide)⟩

end Comparison

end Misfit
