import Misfit.Proofs.Compare.Kinds
import Misfit.Proofs.Compare.Symmetry
import Misfit.Proofs.Types.NormalForm

/-!
# Comparisons with `never`

Nothing fits `never`, and `never` fits nothing, apart from `any` and what prints like it. Whatever the
other type is, no member of it has anything to do with `never`, so the comparison ends where it began, in
a clash of two types. One of them is `never`, which tells that the source needs a declaration.
-/
namespace Misfit

namespace Types

variable {t : Types} {i : TypeId}

theorem Sound.shape_never (h : t.Sound) : t.shape TypeId.never = .never := by
  simp [shape, h.get?_never]

theorem Sound.isArray_never (h : t.Sound) : t.isArray TypeId.never = false := by
  simp [← isArray_shape, h.shape_never, Shape.isArray]

theorem Sound.render_never (h : t.Sound) : t.render TypeId.never = "never" := by
  simp only [render, renderWithin, List.not_mem_nil, if_false, renderWith, h.get?_never, Intrinsic.name]

/-- `never` belongs to no family. -/
theorem Sound.areLike_never (h : t.Sound) (i : TypeId) : t.areLike TypeId.never i = false := by
  simp [areLike, isOneOf, categories, h.get?_never, TypeData.categories, Intrinsic.category,
    Category.families, Category.stringLike, Category.numberLike, Category.booleanLike,
    Category.bigintLike]

theorem Sound.triviallyFits_never (h : t.Sound) (hany : i ≠ TypeId.any) (htext : t.render i ≠ "never") :
    t.triviallyFits TypeId.never i = false := by
  have hne : TypeId.never ≠ i := by
    rintro rfl
    exact htext h.render_never
  have hnever : TypeId.never ≠ TypeId.any := by decide
  simp [triviallyFits, hany, hne, hnever, h.render_never, htext.symm]

end Types

namespace Comparison

variable (c : Comparison)

/-- The comparison ends at the trail where it began, in a clash of the given types, which says that the
source needs a declaration. -/
structure NeedsDeclaration (target source : TypeId) (trail : Trail) (t s : TypeId) : Prop where
  conflict : c.conflict? target source trail = some ⟨trail, .types (c.program.typeClash t s)⟩
  kind : ∀ indexed,
    (Clash.types (c.program.typeClash t s)).classify none indexed = .mustDeclare

variable {c} {target source m i : TypeId} {trail : Trail}

section Rounds

variable {ω : Type} {inner : Comparer ω} {w : ω}

/-- A member that has nothing to do with any of the targets leaves no explanation. -/
theorem firstMatch_of_unrelated {targets : List TypeId} {found : Candidates}
    (h : ∀ k ∈ targets, c.Unrelated (c.widens trail) k m) :
    c.firstMatch inner trail m targets found w = (.error found, w) := by
  induction targets with
  | nil => rfl
  | cons k rest ih =>
    obtain ⟨hfits, harray, hproperties⟩ := h k List.mem_cons_self
    have hrest := ih fun other hother => h other (List.mem_cons_of_mem k hother)
    simp only [firstMatch, matchMember_of_not_isArray hfits harray, hproperties, Bool.false_eq_true,
      if_false, hrest]

/-- Where the first member of the source has nothing to do with the target, the round ends with it. -/
theorem compareEntered_of_unrelated {rest : List TypeId}
    (hf : c.program.types.triviallyFits target source = false)
    (ha : (c.program.types.isArray target && c.program.types.isArray source) = false)
    (hm : c.program.types.members source = m :: rest)
    (h : ∀ k ∈ c.program.types.members target, c.Unrelated (c.widens trail) k m) :
    c.compareEntered inner target source trail w =
      (some ⟨trail, .types (c.program.typeClash target m)⟩, w) := by
  rw [compareEntered_of_not_isArray hf ha]
  split
  · rename_i hagainst
    -- Neither type is a union then, so the member is the source itself.
    obtain ⟨-, -, hunion⟩ := Shape.of_arrayAgainstOther hagainst
    rw [Types.isUnion_shape] at hunion
    have hself : source = m := by
      have hmembers := Types.members_eq_of_not_isUnion hunion
      rw [hm] at hmembers
      exact (List.cons.inj hmembers).1.symm
    rw [hself]
  · simp only [hm, matchAll, firstMatch_of_unrelated h, explain]

end Rounds

theorem conflict?_of_unrelated {rest : List TypeId}
    (hf : c.program.types.triviallyFits target source = false)
    (ha : (c.program.types.isArray target && c.program.types.isArray source) = false)
    (hm : c.program.types.members source = m :: rest)
    (h : ∀ k ∈ c.program.types.members target, c.Unrelated (c.widens trail) k m) :
    c.conflict? target source trail = some ⟨trail, .types (c.program.typeClash target m)⟩ := by
  rw [conflict?_eq_compareEntered, compareEntered_of_unrelated hf ha hm h]

/-- Nothing is like `never`, except `any` and what prints like it. -/
theorem unrelated_never (hs : c.program.types.Sound) (hany : i ≠ TypeId.any)
    (htext : c.program.types.render i ≠ "never") (wide : Bool) :
    c.Unrelated wide TypeId.never i ∧ c.Unrelated wide i TypeId.never := by
  have hfits := hs.triviallyFits_never hany htext
  have hlike := hs.areLike_never i
  have harray := hs.isArray_never
  have hproperties : (c.program.types.shape TypeId.never).hasProperties = false := by
    simp [hs.shape_never, Shape.hasProperties]
  constructor
  · refine ⟨?_, by simp [harray], by simp [haveProperties, hproperties]⟩
    simp [fitsAtOnce, hfits, Types.areLike_comm _ i, hlike]
  · refine ⟨?_, by simp [harray], by simp [haveProperties, hproperties]⟩
    simp [fitsAtOnce, Types.triviallyFits_comm _ i, hfits, hlike]

/-- A clash with `never` on either side says that the source needs a declaration. -/
theorem classify_typeClash_never (hs : c.program.types.Sound) {t s : TypeId}
    (h : t = TypeId.never ∨ s = TypeId.never) (indexed : Bool) :
    (Clash.types (c.program.typeClash t s)).classify none indexed = .mustDeclare := by
  have hnever : c.program.types.isNever s = true ∨ c.program.types.isNever t = true := by
    rcases h with rfl | rfl
    · exact Or.inr hs.isNever_never
    · exact Or.inl hs.isNever_never
  simp [Clash.kind, TypeClash.kind, Program.typeClash, Types.facts, hnever]

/-- A type other than `any` does not fit `never`, nor the other way round, unless it or a member of it
prints like `never`. Either comparison ends where it began, and says that the source needs a
declaration. -/
theorem needsDeclaration_never (hb : c.program.types.Built) (hany : i ≠ TypeId.any)
    (htext : ∀ k ∈ i :: c.program.types.members i, c.program.types.render k ≠ "never") (trail : Trail) :
    (∃ m ∈ c.program.types.members i, c.NeedsDeclaration TypeId.never i trail TypeId.never m) ∧
      c.NeedsDeclaration i TypeId.never trail i TypeId.never := by
  have hs := hb.sound
  have hnever : c.program.types.members TypeId.never = [TypeId.never] := by
    simp [Types.members, hs.get?_never]
  have harray := hs.isArray_never
  have hfits := hs.triviallyFits_never hany (htext i List.mem_cons_self)
  have hunrelated : ∀ m ∈ c.program.types.members i,
      c.Unrelated (c.widens trail) TypeId.never m ∧ c.Unrelated (c.widens trail) m TypeId.never := by
    intro m hm
    refine unrelated_never hs ?_ (htext m (List.mem_cons_of_mem i hm)) _
    cases hu : c.program.types.isUnion i with
    | true => exact ((hb.areProper_members hu).isProper m hm).ne_any
    | false => rwa [Types.eq_of_mem_members hu hm]
  constructor
  · obtain ⟨m, rest, hmembers⟩ :=
      List.exists_cons_of_ne_nil (List.ne_nil_of_mem (hs.exists_mem_members i).choose_spec)
    have hm : m ∈ c.program.types.members i := hmembers ▸ List.mem_cons_self
    refine ⟨m, hm, conflict?_of_unrelated hfits (by simp [harray]) hmembers ?_,
      classify_typeClash_never hs (Or.inl rfl)⟩
    simpa [hnever] using (hunrelated m hm).1
  · rw [Types.triviallyFits_comm] at hfits
    exact ⟨conflict?_of_unrelated hfits (by simp [harray]) hnever fun k hk => (hunrelated k hk).2,
      classify_typeClash_never hs (Or.inr rfl)⟩

/-- An object type, an array, a function whose result is `never`, and a union of them and a literal. -/
def neverBeside : List Types.Operation :=
  [.object { properties := [{ name := "x", type := TypeId.never }] }, .array TypeId.never,
    .function { result := TypeId.never }, .literal (.string "a"), .union [⟨16⟩, ⟨18⟩, ⟨15⟩, ⟨17⟩]]

/-- The union and `never` need a declaration, in a call as well, though parts of it mention `never`. -/
theorem needsDeclaration_never_neverBeside :
    let c : Comparison := ⟨{ types := Types.initial.performAll neverBeside }, Mode.call⟩
    let trail := Trail.empty.push ⟨{}, .node {}⟩
    (∃ m ∈ c.program.types.members ⟨19⟩, c.NeedsDeclaration TypeId.never ⟨19⟩ trail TypeId.never m) ∧
      c.NeedsDeclaration ⟨19⟩ TypeId.never trail ⟨19⟩ TypeId.never := by
  intro c trail
  have hb : c.program.types.Built := Types.Built.initial.performAll neverBeside
  exact needsDeclaration_never hb (by decide) (by decide) trail

end Comparison

end Misfit
