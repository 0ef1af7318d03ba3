import Misfit.Proofs.Compare.Depth
import Mathlib.Data.List.Nodup
import Mathlib.Logic.Relation

/-!
# Comparing both ways is symmetric

Where no union is met, a comparison in both directions treats target and source alike: the same shapes
differ, and the pairs left open are the same ones, turned around and in another order. The order does not
matter to what is accepted, and neither does a cycle or the end of the path, since the path is turned
around along with the pairs. Only the attempts can run out sooner in one direction than in the other.
-/
namespace Misfit

namespace Types

variable (t : Types)

/-- The types inside a type that a comparison gets to: its element type and the types of its properties.
The parameters and results of functions and the index signatures of objects are not compared. -/
def innerTypes (i : TypeId) : List TypeId :=
  (t.element? i).toList ++ (t.properties i).map Member.type

/-- A type leaves nothing to choose: it is not a union, and no two of its properties share a name. -/
structure NoChoiceAt (i : TypeId) : Prop where
  not_union : t.isUnion i = false
  nodup_names : ((t.properties i).map Member.name).Nodup

instance (i : TypeId) : Decidable (t.NoChoiceAt i) :=
  decidable_of_iff (t.isUnion i = false ∧ ((t.properties i).map Member.name).Nodup)
    ⟨fun h => ⟨h.1, h.2⟩, fun h => ⟨h.not_union, h.nodup_names⟩⟩

/-- Neither the type nor any type inside it leaves anything to choose. -/
def NoChoiceIn (i : TypeId) : Prop :=
  ∀ j, Relation.ReflTransGen (fun a b => b ∈ t.innerTypes a) i j → t.NoChoiceAt j

variable {t} {i j : TypeId}

theorem NoChoiceIn.at (h : t.NoChoiceIn i) : t.NoChoiceAt i := h i .refl

theorem NoChoiceIn.inner (h : t.NoChoiceIn i) (hj : j ∈ t.innerTypes i) : t.NoChoiceIn j :=
  fun k hk => h k (.head hj hk)

/-- Some types that hold everything inside them show what is reached from each of them. -/
theorem noChoiceIn_of_list {l : List TypeId}
    (hl : ∀ k ∈ l, t.NoChoiceAt k ∧ ∀ j ∈ t.innerTypes k, j ∈ l) (hi : i ∈ l) : t.NoChoiceIn i := by
  have hmem : ∀ j, Relation.ReflTransGen (fun a b => b ∈ t.innerTypes a) i j → j ∈ l := by
    intro j hj
    induction hj with
    | refl => exact hi
    | tail _ hstep ih => exact (hl _ ih).2 _ hstep
  exact fun j hj => (hl j (hmem j hj)).1

theorem mem_innerTypes_of_element? (h : t.element? i = some j) : j ∈ t.innerTypes i := by
  simp [innerTypes, h]

theorem mem_innerTypes_of_properties {m : Member} (h : m ∈ t.properties i) :
    m.type ∈ t.innerTypes i :=
  List.mem_append_right _ (List.mem_map_of_mem h)

/-- Where no two properties share a name, each is found under its own. -/
theorem property?_of_mem_properties {m : Member} (hn : ((t.properties i).map Member.name).Nodup)
    (hm : m ∈ t.properties i) : t.property? i m.name = some m := by
  cases hobject : t.object? i with
  | none => simp [properties, hobject] at hm
  | some shape =>
    simp only [properties, hobject, Option.elim_some] at hn hm
    obtain ⟨found, hfound⟩ := Option.isSome_iff_exists.mp
      (List.find?_isSome.mpr ⟨m, hm, decide_eq_true rfl⟩ :
        (shape.properties.find? (·.name = m.name)).isSome)
    obtain ⟨hname, hmem⟩ := Member.name_of_property? hfound
    have heq : found = m := List.inj_on_of_nodup_map hn hmem hm hname
    simp only [property?, hobject, Option.bind_some, ObjectShape.property?, hfound, heq]

theorem triviallyFits_comm (t : Types) (a b : TypeId) :
    t.triviallyFits a b = t.triviallyFits b a := by
  simp only [triviallyFits, eq_comm (a := a) (b := b), eq_comm (a := t.render a)]
  congr 1
  rw [Bool.or_assoc, Bool.or_assoc, Bool.or_comm (decide (a = TypeId.any))]

end Types

namespace Comparison

variable {c : Comparison} {target source : TypeId}

theorem agrees_comm (hb : c.mode.bothWays = true) (target source : TypeId) :
    c.agrees false target source = c.agrees false source target := by
  have hprops : c.haveProperties target source = c.haveProperties source target := Bool.and_comm _ _
  have hdiffer : c.shapesDiffer target source = c.shapesDiffer source target := by
    simp [shapesDiffer, hb, Bool.or_comm]
  simp only [agrees, fitsAtOnce_false, Types.triviallyFits_comm _ target, hprops, hdiffer]

/-- Turned around, the pairs that two types leave open are the pairs that they leave open turned
around. -/
theorem swap_mem_openPairs
    (hs : c.program.types.NoChoiceAt source) {pair : NestedPair}
    (hp : pair ∈ c.openPairs false source target) :
    pair.source ∈ c.program.types.innerTypes target ∧
      pair.target ∈ c.program.types.innerTypes source ∧
        LeftOpen (c.openPairs false target source) pair.source pair.target := by
  unfold openPairs at hp
  split at hp
  · simp at hp
  rename_i hf
  obtain ⟨p, hps, q, hq, hmatch, rfl⟩ := Program.mem_nested_diffProperties.mp hp
  obtain ⟨hqt, hname⟩ := Types.mem_properties_of_property? hq
  have hback : c.program.types.property? source q.name = some p :=
    hname ▸ Types.property?_of_mem_properties hs.nodup_names hps
  have hf' : c.fitsAtOnce false target source = false := by
    simpa [Types.triviallyFits_comm _ target source] using hf
  refine ⟨Types.mem_innerTypes_of_properties hqt, Types.mem_innerTypes_of_properties hps,
    ⟨q.type, p.type, ⟨c.program.describeMember q, .node (c.program.describeMember p)⟩⟩, ?_, rfl, rfl⟩
  rw [openPairs, hf']
  exact Program.mem_nested_diffProperties.mpr
    ⟨q, hqt, p, hback, (Types.propertyMatch_comm _ _ _).trans hmatch, rfl⟩

/-- The rules of a round that looks both ways are met the other way round if the pairs inside fit the
other way round. -/
theorem Round.swap (hb : c.mode.bothWays = true) {X X' : TypeId → TypeId → Prop}
    (ht : c.program.types.NoChoiceAt target) (hs : c.program.types.NoChoiceAt source)
    (hX : ∀ a ∈ c.program.types.innerTypes target, ∀ b ∈ c.program.types.innerTypes source,
      X a b → X' b a)
    (h : c.Round false X X target source) : c.Round false X' X' source target := by
  cases h with
  | trivial h => exact .trivial ((Types.triviallyFits_comm _ _ _).trans h)
  | elements hte hse h =>
    exact .elements hse hte
      (hX _ (Types.mem_innerTypes_of_element? hte) _ (Types.mem_innerTypes_of_element? hse) h)
  | members hta hsa h =>
    -- An array would have to be set against a union.
    have htarget : c.program.types.isArray target = false := by
      simpa [hs.not_union] using hta
    have hsource : c.program.types.isArray source = false := by
      simpa [ht.not_union] using hsa
    refine .members (by simp [hsource]) (by simp [htarget]) fun member hmember => ?_
    rw [Types.eq_of_mem_members ht.not_union hmember, Types.members_eq_of_not_isUnion hs.not_union]
    cases h source (by simp [Types.members_eq_of_not_isUnion hs.not_union]) with
    | array ha _ _ => simp [hsource] at ha
    | @other k _ hfind h =>
      obtain rfl : target = k :=
        (Types.eq_of_mem_members ht.not_union (List.mem_of_find?_eq_some hfind)).symm
      have hagrees := List.find?_some hfind
      have hfind' : [source].find? (c.agrees false · target) = some source := by
        simpa [agrees_comm hb source] using hagrees
      refine .other htarget hfind' fun pair hp => ?_
      obtain ⟨hin, hin', other, hother, hotarget, hosource⟩ := swap_mem_openPairs hs hp
      have hx := h other hother
      rw [hotarget, hosource] at hx
      exact hX _ hin _ hin' hx

/-- What fits within a depth fits the other way round, on a path turned around. By induction on the
depth. -/
theorem FitsWithin.swap (hb : c.mode.bothWays = true) {n : Nat} {P P' : TypeId → TypeId → Prop}
    (ht : c.program.types.NoChoiceIn target) (hs : c.program.types.NoChoiceIn source)
    (hP : ∀ a b, P a b → P' b a) (h : c.FitsWithin n P target source) :
    c.FitsWithin n P' source target := by
  induction n generalizing target source P P' with
  | zero => trivial
  | succ n ih =>
    rcases h with h | h
    · exact Or.inl (hP target source h)
    · have hpaths : ∀ a b, withPair P target source a b → withPair P' source target b a := by
        rintro a b (⟨rfl, rfl⟩ | h)
        · exact Or.inl ⟨rfl, rfl⟩
        · exact Or.inr (hP a b h)
      exact Or.inr (h.swap hb ht.at hs.at fun a ha b hb' hfits =>
        ih (ht.inner ha) (hs.inner hb') hpaths hfits)

/-- A comparison both ways is symmetric between types that leave nothing to choose. It may reach the end
of its path, but neither direction may run out of attempts. -/
theorem conflict?_eq_none_comm {trail trail' : Trail} (hb : c.mode.bothWays = true)
    (hmode : c.mode.callArgument = false) (ht : c.program.types.NoChoiceIn target)
    (hs : c.program.types.NoChoiceIn source) (ha : c.StaysWithinAttempts target source trail)
    (ha' : c.StaysWithinAttempts source target trail') :
    c.conflict? target source trail = none ↔ c.conflict? source target trail' = none := by
  rw [conflict?_eq_none_iff_fitsWithin (Or.inl hmode) ha,
    conflict?_eq_none_iff_fitsWithin (Or.inl hmode) ha']
  exact ⟨FitsWithin.swap hb ht hs fun _ _ => id, FitsWithin.swap hb hs ht fun _ _ => id⟩

/-- Two named types that mention themselves, with the same properties in another order, and a third one
whose last property differs. -/
def mirroredTypes : Types :=
  let (t, left) := Types.initial.declareObject "Left"
  let (t, right) := t.declareObject "Right"
  let (t, other) := t.declareObject "Other"
  let (t, lefts) := t.array left
  let (t, rights) := t.array right
  let member (name : String) (type : TypeId) : Member := { name, type }
  let t := (t.defineObject left { name := some "Left", properties :=
    [member "next" left, member "parts" lefts, member "size" TypeId.number] }).getD t
  let t := (t.defineObject right { name := some "Right", properties :=
    [member "size" TypeId.number, member "parts" rights, member "next" right] }).getD t
  (t.defineObject other { name := some "Other", properties :=
    [member "next" left, member "parts" rights, member "size" TypeId.string] }).getD t

/-- The first two types fit each other, and the third fits neither way. -/
theorem conflict?_comm_mirroredTypes :
    let c : Comparison := ⟨{ types := mirroredTypes }, {}⟩
    (c.conflict? ⟨15⟩ ⟨16⟩ Trail.empty = none ∧ c.conflict? ⟨16⟩ ⟨15⟩ Trail.empty = none) ∧
      c.conflict? ⟨15⟩ ⟨17⟩ Trail.empty ≠ none ∧ c.conflict? ⟨17⟩ ⟨15⟩ Trail.empty ≠ none := by
  intro c
  have hclosed : ∀ k ∈ [15, 16, 17, 18, 19, 6, 7].map TypeId.mk, c.program.types.NoChoiceAt k ∧
      ∀ j ∈ c.program.types.innerTypes k, j ∈ [15, 16, 17, 18, 19, 6, 7].map TypeId.mk := by decide
  have hleft : c.program.types.NoChoiceIn ⟨15⟩ := Types.noChoiceIn_of_list hclosed (by decide)
  have hright : c.program.types.NoChoiceIn ⟨16⟩ := Types.noChoiceIn_of_list hclosed (by decide)
  have hother : c.program.types.NoChoiceIn ⟨17⟩ := Types.noChoiceIn_of_list hclosed (by decide)
  have hfits : c.conflict? ⟨15⟩ ⟨16⟩ Trail.empty = none := by decide
  have hclash : c.conflict? ⟨15⟩ ⟨17⟩ Trail.empty ≠ none := by decide
  refine ⟨⟨hfits, ?_⟩, hclash, ?_⟩
  · exact (conflict?_eq_none_comm rfl rfl hleft hright (by decide) (by decide)).mp hfits
  · exact fun h => hclash ((conflict?_eq_none_comm rfl rfl hleft hother (by decide) (by decide)).mpr h)

end Comparison

end Misfit
