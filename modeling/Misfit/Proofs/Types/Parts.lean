import Misfit.Types.Query
import Mathlib.Data.List.Nodup
import Mathlib.Data.List.Perm.Subperm
import Mathlib.Logic.Relation

/-!
# What types are made of

A type is printed from the texts of its parts, along a path of types that are being printed already. A
path has no repetitions, so it is no longer than the table, and the text of a type does not depend on the
depth that is allowed for it as long as that is enough for such a path. Nor does it depend on the path
itself, if nothing inside the type is on it.
-/
namespace Misfit

namespace ObjectShape

/-- The types of the properties and those of the index signatures. -/
def parts (s : ObjectShape) : List TypeId :=
  s.properties.map Member.type ++ s.indexes.flatMap fun index => [index.key, index.value]

end ObjectShape

namespace FunctionShape

/-- The types of the parameters and the result. -/
def parts (s : FunctionShape) : List TypeId := s.parameters.map Member.type ++ [s.result]

end FunctionShape

namespace Types

variable (t : Types)

/-- The id has been handed out. -/
def Knows (i : TypeId) : Prop := i.raw < t.size

instance (i : TypeId) : Decidable (t.Knows i) := inferInstanceAs (Decidable (_ < _))

/-- The types that a type is made of. -/
def parts (i : TypeId) : List TypeId :=
  match t.get? i with
  | some (.array element) => [element]
  | some (.union list) => t.listAt list
  | some (.object id) => (t.objectAt id).parts
  | some (.function id) => (t.functionAt id).parts
  | _ => []

/-- A type has another one among its parts. -/
def HasPart (i j : TypeId) : Prop := j ∈ t.parts i

instance (i j : TypeId) : Decidable (t.HasPart i j) := inferInstanceAs (Decidable (_ ∈ _))

/-- The parts of every type are known. -/
def Closed : Prop := ∀ i, ∀ j ∈ t.parts i, t.Knows j

/-- Everything that has the property is known and has parts with the property. -/
def Holds (P : TypeId → Prop) : Prop := ∀ i, P i → t.Knows i ∧ ∀ j ∈ t.parts i, P j

/-- Known types without repetitions. -/
structure IsPath (path : List TypeId) : Prop where
  nodup : path.Nodup
  knows : ∀ i ∈ path, t.Knows i

variable {t} {i j : TypeId} {path : List TypeId}

theorem knows_of_get? {d : TypeData} (h : t.get? i = some d) : t.Knows i := by
  by_contra hi
  simp [get?_eq_none_iff.mpr (Nat.le_of_not_lt hi)] at h

theorem parts_eq_nil_of_not_knows (h : ¬t.Knows i) : t.parts i = [] := by
  simp only [parts, get?_eq_none_iff.mpr (Nat.le_of_not_lt h)]

instance : Decidable t.Closed :=
  decidable_of_iff (∀ n < t.size, ∀ j ∈ t.parts ⟨n⟩, t.Knows j)
    ⟨fun h i j hj => by
      by_cases hi : t.Knows i
      · exact h i.raw hi j hj
      · simp [parts_eq_nil_of_not_knows hi] at hj,
    fun h n _ => h ⟨n⟩⟩

theorem Closed.holds_knows (h : t.Closed) : t.Holds t.Knows := fun i hi => ⟨hi, h i⟩

theorem isPath_nil : t.IsPath [] := ⟨List.nodup_nil, by simp⟩

theorem IsPath.cons (h : t.IsPath path) (hi : t.Knows i) (hn : i ∉ path) : t.IsPath (i :: path) :=
  ⟨List.nodup_cons.mpr ⟨hn, h.nodup⟩, List.forall_mem_cons.mpr ⟨hi, h.knows⟩⟩

/-- A path is no longer than the table. -/
theorem IsPath.length_le (h : t.IsPath path) : path.length ≤ t.size := by
  have hraw : Function.Injective TypeId.raw := fun a b hab => by
    cases a
    exact congrArg TypeId.mk hab
  have hsub : path.map TypeId.raw ⊆ List.range t.size := by
    intro n hn
    obtain ⟨i, hi, rfl⟩ := List.mem_map.mp hn
    exact List.mem_range.mpr (h.knows i hi)
  simpa using ((h.nodup.map hraw).subperm hsub).length_le

/-- Only the texts of its parts decide the text of a type. -/
theorem renderWith_congr {f g : TypeId → String} (h : ∀ j ∈ t.parts i, f j = g j) :
    t.renderWith f i = t.renderWith g i := by
  have hmember : ∀ members : List Member, (∀ j ∈ members.map Member.type, f j = g j) →
      members.map (Member.render f) = members.map (Member.render g) := fun members hm =>
    List.map_congr_left fun m hmem => by
      simp only [Member.render, hm m.type (List.mem_map_of_mem hmem)]
  unfold parts at h
  unfold renderWith
  cases hd : t.get? i with
  | none => rfl
  | some d =>
    simp only [hd] at h
    cases d with
    | intrinsic | literal | enumMember => rfl
    | array element => simp only [h element (List.mem_singleton_self element)]
    | union list => simp only [List.map_congr_left h]
    | object id =>
      simp only [ObjectShape.parts, List.mem_append, or_imp, forall_and] at h
      have hindex : (t.objectAt id).indexes.map (IndexSignature.render f) =
          (t.objectAt id).indexes.map (IndexSignature.render g) := by
        refine List.map_congr_left fun index hmem => ?_
        have hkey := h.2 index.key (List.mem_flatMap.mpr ⟨index, hmem, by simp⟩)
        have hvalue := h.2 index.value (List.mem_flatMap.mpr ⟨index, hmem, by simp⟩)
        simp only [IndexSignature.render, hkey, hvalue]
      simp only [ObjectShape.render, hmember _ h.1, hindex]
    | function id =>
      simp only [FunctionShape.parts, List.mem_append, or_imp, forall_and] at h
      simp only [FunctionShape.render, hmember _ h.1, h.2 _ (List.mem_singleton_self _)]

/-- Where two tables print a type alike given the texts of its parts, they print it alike along two paths
if the types inside it are on both paths or on neither. By induction on the depth. -/
theorem renderWithin_congr {t' : Types} {P : TypeId → Prop} (hP : t.Holds P)
    (hw : ∀ i, P i → ∀ f, t'.renderWith f i = t.renderWith f i) {m n : Nat}
    {path path' : List TypeId} (hp : t.IsPath path) (hp' : t.IsPath path') (hi : P i)
    (hn : t.size < n + path.length) (hm : t.size < m + path'.length)
    (hpaths : ∀ j, Relation.ReflTransGen t.HasPart i j → (j ∈ path' ↔ j ∈ path)) :
    t'.renderWithin m path' i = t.renderWithin n path i := by
  induction n generalizing m path path' i with
  | zero =>
    have := hp.length_le
    omega
  | succ n ih =>
    cases m with
    | zero =>
      have := hp'.length_le
      omega
    | succ m =>
      simp only [renderWithin, hpaths i .refl]
      by_cases h : i ∈ path
      · simp only [if_pos h]
      · simp only [if_neg h]
        rw [hw i hi]
        refine renderWith_congr fun j hj => ?_
        refine ih (hp.cons (hP i hi).1 h) (hp'.cons (hP i hi).1 fun h' => h ((hpaths i .refl).mp h'))
          ((hP i hi).2 j hj) (by simp only [List.length_cons]; omega)
          (by simp only [List.length_cons]; omega) fun k hk => ?_
        simp only [List.mem_cons, hpaths k (.head hj hk)]

/-- A type that does not contain itself is printed from the texts of its parts. -/
theorem render_eq_renderWith {P : TypeId → Prop} (hP : t.Holds P) (hi : P i)
    (hacyclic : ¬Relation.TransGen t.HasPart i i) : t.render i = t.renderWith t.render i := by
  have hstep : t.render i = t.renderWith (t.renderWithin t.size [i]) i := by
    simp [render, renderWithin]
  rw [hstep]
  refine renderWith_congr fun j hj => ?_
  refine renderWithin_congr hP (fun _ _ _ => rfl) isPath_nil
    (isPath_nil.cons (hP i hi).1 (by simp)) ((hP i hi).2 j hj) (by simp) (by simp) fun k hk => ?_
  have hne : k ≠ i := fun heq => hacyclic (Relation.TransGen.head' hj (heq ▸ hk))
  simp [hne]

end Types

end Misfit
