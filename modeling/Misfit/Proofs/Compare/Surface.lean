import Misfit.Compare.Basic
import Mathlib.Tactic.Lemma

/-!
# What two types show on the surface

A round of a comparison takes what it can from the two types themselves before it asks about the pairs
below them. Here the functions that make up a round are put into the words of that surface: what fits
at once, which shapes agree, and which pairs of properties are left open where they do.
-/
namespace Misfit

namespace Comparison

variable (c : Comparison)

/-- Literals fit targets of their family in the layer that the trail ends with. -/
def widens (trail : Trail) : Bool := c.mode.callArgument && trail.length = 1

/-- No parts have to be compared: the types fit trivially, or a literal is widened. -/
def fitsAtOnce (wide : Bool) (target source : TypeId) : Bool :=
  c.program.types.triviallyFits target source ||
    (wide && c.program.types.isLiteral source && c.program.types.areLike source target)

/-- Both types are objects or functions. -/
def haveProperties (target source : TypeId) : Bool :=
  (c.program.types.shape target).hasProperties && (c.program.types.shape source).hasProperties

/-- The properties of two shapes show a problem, in a direction that is compared. -/
def shapesDiffer (target source : TypeId) : Bool :=
  (c.program.diffProperties target source).hasProblem ||
    (c.mode.bothWays && (c.program.diffProperties source target).hasProblem)

/-- What two shapes that differ are reported as. -/
def clashOf (target source : TypeId) : ShapeClash :=
  c.program.shapeClash target source (c.program.diffProperties target source)
    (if c.mode.bothWays then some (c.program.diffProperties source target) else none)

/-- A member of the source agrees with a member of the target, as far as can be said before any
pairs of properties are compared. -/
def agrees (wide : Bool) (target source : TypeId) : Bool :=
  c.fitsAtOnce wide target source || (c.haveProperties target source && !c.shapesDiffer target source)

/-- The pairs of properties that are left open where two members agree. -/
def openPairs (wide : Bool) (target source : TypeId) : List NestedPair :=
  if c.fitsAtOnce wide target source then [] else (c.program.diffProperties target source).nested

/-- How two types meet: they fit at once, they are both arrays, or they are set against each other as a
whole. -/
inductive Meeting (fits : Bool) (target source : TypeId) : Prop
  | atOnce (hf : fits = true)
  | elements {te se : TypeId} (hf : fits = false)
      (ht : c.program.types.element? target = some te)
      (hs : c.program.types.element? source = some se)
  | whole (hf : fits = false)
      (ha : (c.program.types.isArray target && c.program.types.isArray source) = false)

theorem meeting (fits : Bool) (target source : TypeId) : c.Meeting fits target source := by
  cases fits with
  | true => exact .atOnce rfl
  | false =>
    cases ha : c.program.types.isArray target && c.program.types.isArray source with
    | false => exact .whole rfl ha
    | true =>
      obtain ⟨ht, hs⟩ := Bool.and_eq_true_iff.mp ha
      obtain ⟨te, hte⟩ := Types.isArray_iff.mp ht
      obtain ⟨se, hse⟩ := Types.isArray_iff.mp hs
      exact .elements rfl hte hse

variable {c}

theorem matchShapes_eq (target source : TypeId) :
    c.matchShapes target source =
      if c.shapesDiffer target source then .shape (c.clashOf target source)
      else .satisfied (c.program.diffProperties target source).nested := by
  unfold matchShapes shapesDiffer clashOf
  by_cases h : c.mode.bothWays = true
  · simp [h]
  · simp [h]

/-- Two types that are not both arrays are compared member by member if an array among them is set
against a union. -/
theorem arrayAgainstOther_eq_false_iff {target source : TypeId}
    (h : (c.program.types.isArray target && c.program.types.isArray source) = false) :
    (c.program.types.shape target).arrayAgainstOther (c.program.types.shape source) = false ↔
      (c.program.types.isArray target = true → c.program.types.isUnion source = true) ∧
        (c.program.types.isArray source = true → c.program.types.isUnion target = true) := by
  have hs := Shape.arrayAgainstOther_eq_false_iff (a := c.program.types.shape target)
    (b := c.program.types.shape source) (by simpa using h)
  simpa using hs

@[simp] theorem fitsAtOnce_false (target source : TypeId) :
    c.fitsAtOnce false target source = c.program.types.triviallyFits target source := by
  simp [fitsAtOnce]

theorem fitsAtOnce_of_triviallyFits {target source : TypeId}
    (h : c.program.types.triviallyFits target source = true) (wide : Bool) :
    c.fitsAtOnce wide target source = true := by
  simp [fitsAtOnce, h]

/-- Members that agree before any literal is widened agree after it. -/
theorem agrees_widen {target source : TypeId} (h : c.agrees false target source = true) (wide : Bool) :
    c.agrees wide target source = true := by
  rcases Bool.or_eq_true_iff.mp h with hf | hs
  · simp [agrees, fitsAtOnce_of_triviallyFits (by simpa using hf) wide]
  · simp [agrees, hs]

/-- The first target that a member agrees with was the first one before widening as well, if the member
agrees with it by its properties. -/
theorem find?_agrees_false {wide : Bool} {targets : List TypeId} {member first : TypeId}
    (h : targets.find? (c.agrees wide · member) = some first)
    (hf : c.fitsAtOnce wide first member = false) :
    targets.find? (c.agrees false · member) = some first := by
  obtain ⟨hagrees, before, after, happ, hbefore⟩ := List.find?_eq_some_iff_append.mp h
  have hshapes : c.agrees false first member = true := by
    rcases Bool.or_eq_true_iff.mp hagrees with hfit | hs
    · simp [hf] at hfit
    · simp [agrees, hs]
  refine List.find?_eq_some_iff_append.mpr ⟨hshapes, before, after, happ, fun other hother => ?_⟩
  have hno := hbefore other hother
  cases ho : c.agrees false other member with
  | false => rfl
  | true => simp [agrees_widen ho wide] at hno

/-- Only the literals of a primitive family are widened, so objects, functions and arrays are not. -/
theorem fitsAtOnce_of_categories {target source : TypeId}
    (h : c.program.types.categories target = [.object] ∨ c.program.types.categories source = [.object])
    (wide : Bool) : c.fitsAtOnce wide target source = c.program.types.triviallyFits target source := by
  have hlike : c.program.types.areLike source target = false := by
    rcases h with ht | hs
    · rw [Types.areLike_comm]
      exact Types.areLike_eq_false_of_categories ht source
    · exact Types.areLike_eq_false_of_categories hs target
  simp [fitsAtOnce, hlike]

theorem fitsAtOnce_of_isArray {target source : TypeId}
    (h : c.program.types.isArray target = true ∨ c.program.types.isArray source = true) (wide : Bool) :
    c.fitsAtOnce wide target source = c.program.types.triviallyFits target source := by
  have hcategories : ∀ i, c.program.types.isArray i = true → c.program.types.categories i = [.object] :=
    fun i hi => (Types.isArray_iff.mp hi).elim fun _ he => Types.categories_of_element? he
  exact fitsAtOnce_of_categories (h.imp (hcategories target) (hcategories source)) wide

/-- A member that agrees with some target has a first one to commit to. -/
theorem exists_find?_agrees {wide : Bool} {targets : List TypeId} {target source : TypeId}
    (ht : target ∈ targets) (ha : c.agrees wide target source = true) :
    ∃ first, targets.find? (c.agrees wide · source) = some first :=
  Option.isSome_iff_exists.mp (List.find?_isSome.mpr ⟨target, ht, ha⟩)

/-- Only where two members agree by their properties are pairs left open. -/
theorem of_mem_openPairs {wide : Bool} {target source : TypeId} {pair : NestedPair}
    (ha : c.agrees wide target source = true) (hp : pair ∈ c.openPairs wide target source) :
    c.haveProperties target source = true ∧ c.shapesDiffer target source = false ∧
      pair ∈ (c.program.diffProperties target source).nested := by
  unfold openPairs at hp
  split at hp
  · simp at hp
  · rename_i hf
    have hsame : c.haveProperties target source = true ∧ c.shapesDiffer target source = false := by
      simpa [agrees, hf] using ha
    exact ⟨hsame.1, hsame.2, hp⟩

section Surface

variable {ω : Type} {inner : Comparer ω} {trail : Trail} {target source : TypeId} {w : ω}

/-- An object or a function is neither an array nor a union. -/
theorem of_hasProperties {i : TypeId} (h : (c.program.types.shape i).hasProperties = true) :
    c.program.types.isArray i = false ∧ c.program.types.isUnion i = false := by
  have hshape : (c.program.types.shape i).isArray = false ∧
      (c.program.types.shape i).isUnion = false := by
    cases hs : c.program.types.shape i <;> simp_all [Shape.hasProperties, Shape.isArray, Shape.isUnion]
  simpa using hshape

theorem categories_of_hasProperties {i : TypeId}
    (h : (c.program.types.shape i).hasProperties = true) :
    c.program.types.categories i = [.object] := by
  unfold Types.shape at h
  cases hd : c.program.types.get? i with
  | none =>
    simp only [hd] at h
    split at h <;> simp [Shape.hasProperties] at h
  | some d =>
    simp only [hd] at h
    cases d with
    | object _ | function _ => simp [Types.categories, hd, TypeData.categories]
    | array _ | union _ => simp [Shape.hasProperties] at h
    | _ =>
      dsimp only at h
      split at h <;> simp [Shape.hasProperties] at h

theorem fitsAtOnce_of_hasProperties (h : (c.program.types.shape target).hasProperties = true ∨
      (c.program.types.shape source).hasProperties = true) (wide : Bool) :
    c.fitsAtOnce wide target source = c.program.types.triviallyFits target source :=
  fitsAtOnce_of_categories (h.imp categories_of_hasProperties categories_of_hasProperties) wide

/-- An array has no properties to compare. -/
theorem haveProperties_of_isArray {target source : TypeId}
    (h : c.program.types.isArray target = true ∨ c.program.types.isArray source = true) :
    c.haveProperties target source = false := by
  cases hp : c.haveProperties target source with
  | false => rfl
  | true =>
    obtain ⟨ht, hs⟩ := Bool.and_eq_true_iff.mp hp
    rcases h with h | h
    · simp [(of_hasProperties ht).1] at h
    · simp [(of_hasProperties hs).1] at h

theorem matchMember_of_fitsAtOnce (h : c.fitsAtOnce (c.widens trail) target source = true) :
    c.matchMember inner trail target source w = (.satisfied [], w) := by
  have h' : (c.program.types.triviallyFits target source ||
      c.fitsAsArgument target source trail) = true := h
  simp only [matchMember, h', if_true]

theorem matchMember_of_elements {te se : TypeId}
    (h : c.fitsAtOnce (c.widens trail) target source = false)
    (ht : c.program.types.element? target = some te)
    (hs : c.program.types.element? source = some se) :
    c.matchMember inner trail target source w =
      match inner te se trail w with
      | (none, w) => (.satisfied [], w)
      | (some conflict, w) => (.nested conflict, w) := by
  have h' : ¬(c.program.types.triviallyFits target source ||
      c.fitsAsArgument target source trail) = true := Bool.eq_false_iff.mp h
  dsimp only [matchMember]
  rw [Types.shape_eq_arrayOf_iff.2 ht, Types.shape_eq_arrayOf_iff.2 hs]
  exact if_neg h'

/-- Unless both are arrays, setting two members against each other asks the comparer nothing. -/
theorem matchMember_of_not_isArray
    (h : c.fitsAtOnce (c.widens trail) target source = false)
    (ha : (c.program.types.isArray target && c.program.types.isArray source) = false) :
    c.matchMember inner trail target source w =
      (if c.haveProperties target source then
        if c.shapesDiffer target source then .shape (c.clashOf target source)
        else .satisfied (c.program.diffProperties target source).nested
      else .unrelated, w) := by
  have h' : (c.program.types.triviallyFits target source ||
      c.fitsAsArgument target source trail) = false := h
  have hne : ∀ te se, c.program.types.shape target = .arrayOf te →
      c.program.types.shape source = .arrayOf se → False := by
    intro te se ht hs
    rw [Types.shape_eq_arrayOf_iff] at ht hs
    simp [Types.isArray, ht, hs] at ha
  simp only [matchMember, h', Bool.false_eq_true, if_false]
  by_cases hp : c.haveProperties target source = true
  · rw [if_pos hp, ← matchShapes_eq]
    unfold haveProperties at hp
    simp only [hp, if_true]
  · rw [if_neg hp]
    unfold haveProperties at hp
    simp only [hp]
    rfl

theorem firstMatch_cons_of_fitsAtOnce {targets : List TypeId} {found : Candidates}
    (h : c.fitsAtOnce (c.widens trail) target source = true) :
    c.firstMatch inner trail source (target :: targets) found w = (.ok [], w) := by
  simp only [firstMatch, matchMember_of_fitsAtOnce h]

theorem firstMatch_cons_of_elements {te se : TypeId} {targets : List TypeId} {found : Candidates}
    (h : c.fitsAtOnce (c.widens trail) target source = false)
    (ht : c.program.types.element? target = some te)
    (hs : c.program.types.element? source = some se) :
    c.firstMatch inner trail source (target :: targets) found w =
      match inner te se trail w with
      | (none, w) => (.ok [], w)
      | (some conflict, w) => c.firstMatch inner trail source targets
          { found with nested := found.nested.or (some conflict) } w := by
  simp only [firstMatch, matchMember_of_elements h ht hs]
  cases inner te se trail w with
  | mk result w => cases result <;> rfl

/-- An array passes over what is not an array. -/
theorem firstMatch_cons_of_isArray {targets : List TypeId} {found : Candidates}
    (hs : c.program.types.isArray source = true)
    (h : c.fitsAtOnce (c.widens trail) target source = false)
    (ha : (c.program.types.isArray target && c.program.types.isArray source) = false) :
    c.firstMatch inner trail source (target :: targets) found w =
      c.firstMatch inner trail source targets found w := by
  have hp : c.haveProperties target source = false := haveProperties_of_isArray (Or.inr hs)
  simp only [firstMatch, matchMember_of_not_isArray h ha, hp, Bool.false_eq_true, if_false]

/-- Among the members of a union, one that is not an array is matched without asking the comparer:
it commits to the first target it agrees with. -/
theorem firstMatch_of_not_isArray {member : TypeId} (h : c.program.types.isArray member = false)
    (targets : List TypeId) (found : Candidates) :
    c.firstMatch inner trail member targets found w =
      (match targets.find? (c.agrees (c.widens trail) · member) with
        | some target => .ok (c.openPairs (c.widens trail) target member)
        | none => .error { found with shapes := found.shapes ++
            (targets.filter (c.haveProperties · member)).map (c.clashOf · member) }, w) := by
  induction targets generalizing found with
  | nil => simp [firstMatch]
  | cons target rest ih =>
    by_cases hf : c.fitsAtOnce (c.widens trail) target member = true
    · have ha : c.agrees (c.widens trail) target member = true := by simp [agrees, hf]
      simp only [firstMatch, matchMember_of_fitsAtOnce hf, List.find?_cons, ha, openPairs, hf, if_true]
    · have hf' : c.fitsAtOnce (c.widens trail) target member = false := by simpa using hf
      simp only [firstMatch, matchMember_of_not_isArray hf' (by simp [h])]
      by_cases hp : c.haveProperties target member = true
      · by_cases hd : c.shapesDiffer target member = true
        · have ha : c.agrees (c.widens trail) target member = false := by simp [agrees, hf', hd]
          simp only [hp, hd, if_true, ih, List.find?_cons, ha, List.filter_cons,
            List.map_cons, List.append_assoc, List.singleton_append]
        · have ha : c.agrees (c.widens trail) target member = true := by simp [agrees, hp, hd]
          simp only [hp, hd, if_true, List.find?_cons, ha, openPairs, hf', Bool.false_eq_true, if_false]
      · have ha : c.agrees (c.widens trail) target member = false := by simp [agrees, hf', hp]
        simp only [hp, ih, List.find?_cons, ha, List.filter_cons, Bool.false_eq_true,
          if_false]

theorem compareEntered_of_triviallyFits
    (h : c.program.types.triviallyFits target source = true) :
    c.compareEntered inner target source trail w = (none, w) := by
  simp only [compareEntered, h, if_true]

theorem compareEntered_of_elements {te se : TypeId}
    (h : c.program.types.triviallyFits target source = false)
    (ht : c.program.types.element? target = some te)
    (hs : c.program.types.element? source = some se) :
    c.compareEntered inner target source trail w = inner te se trail w := by
  simp only [compareEntered, h, Types.shape_eq_arrayOf_iff.2 ht, Types.shape_eq_arrayOf_iff.2 hs,
    Bool.false_eq_true, if_false]

theorem compareEntered_of_not_isArray
    (h : c.program.types.triviallyFits target source = false)
    (ha : (c.program.types.isArray target && c.program.types.isArray source) = false) :
    c.compareEntered inner target source trail w =
      if (c.program.types.shape target).arrayAgainstOther (c.program.types.shape source) then
        (some ⟨trail, .types (c.program.typeClash target source)⟩, w)
      else
        match c.matchAll inner trail target (c.program.types.members target)
          (c.program.types.members source) w with
        | (.error conflict, w) => (some conflict, w)
        | (.ok pairs, w) => compareOpen inner trail pairs w := by
  have hne : ∀ te se, c.program.types.shape target = .arrayOf te →
      c.program.types.shape source = .arrayOf se → False := by
    intro te se ht hs
    rw [Types.shape_eq_arrayOf_iff] at ht hs
    simp [Types.isArray, ht, hs] at ha
  have h' : ¬c.program.types.triviallyFits target source = true := Bool.eq_false_iff.mp h
  dsimp only [compareEntered]
  rw [if_neg h']
  split
  · rename_i te se ht hs
    exact (hne te se ht hs).elim
  · exact rfl

end Surface

end Comparison

end Misfit
