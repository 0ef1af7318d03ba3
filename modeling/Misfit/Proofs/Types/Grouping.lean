import Misfit.Proofs.Types.Requests

/-!
# Unions of unions

How types are grouped when they are united makes no difference, because all that counts of them is the list
that they flatten to. Flattening is done piece by piece. A union stands for its members there, unless `any`
or `unknown` has taken the place of all of them, which it then does to the other types as well. And once a
union has been entered, whatever flattens to its members finds it.
-/
namespace Misfit

namespace Types

/-- What counts of a flattened list: `any` takes the place of everything, and `unknown` of everything but
`any`. -/
def absorb (flat : List TypeId) : List TypeId :=
  if TypeId.any ∈ flat then [TypeId.any]
  else if TypeId.unknown ∈ flat then [TypeId.unknown]
  else flat

variable (t : Types)

/-- The union of the unions of two lists of types, which are entered before it. -/
def unionOfUnions (xs ys : List TypeId) : Types × TypeId :=
  let first := t.union xs
  let second := first.1.union ys
  second.1.union [first.2, second.2]

/-- Types that stay as they are when they are flattened. -/
structure IsFlat (flat : List TypeId) : Prop where
  nodup : flat.Nodup
  not_union : ∀ m ∈ flat, t.isUnion m = false
  ne_never : TypeId.never ∉ flat

variable {t} {t' : Types} {i u v : TypeId} {flat members xs ys front back : List TypeId}

/-! ### Repetitions -/

theorem dedup_of_nodup (h : xs.Nodup) : dedup xs = xs := by
  induction xs with
  | nil => rfl
  | cons x xs ih =>
    obtain ⟨hx, hxs⟩ := List.nodup_cons.mp h
    have hne : ∀ y ∈ xs, y ≠ x := fun y hy heq => hx (heq ▸ hy)
    rw [dedup, ih hxs, List.filter_eq_self.mpr fun y hy => decide_eq_true (hne y hy)]

/-- What the second list adds is what does not occur in the first one. -/
theorem dedup_append (xs ys : List TypeId) :
    dedup (xs ++ ys) = dedup xs ++ dedup (ys.filter (· ∉ xs)) := by
  simp only [dedup_eq_eraseDups, List.eraseDups_append]
  congr 2
  exact List.filter_congr fun y _ => by simp

theorem dedup_dedup_append (xs ys : List TypeId) : dedup (dedup xs ++ dedup ys) = dedup (xs ++ ys) := by
  rw [dedup_append, dedup_append, dedup_of_nodup (nodup_dedup xs), ← filter_dedup, ← filter_dedup,
    dedup_of_nodup (nodup_dedup ys)]
  congr 1
  exact List.filter_congr fun y _ => by simp [mem_dedup]

/-- What occurs before adds nothing. -/
theorem dedup_append_of_subset (h : ys ⊆ xs) (zs : List TypeId) :
    dedup (xs ++ (ys ++ zs)) = dedup (xs ++ zs) := by
  have hnone : ys.filter (· ∉ xs) = [] := List.filter_eq_nil_iff.mpr fun y hy => by simp [h hy]
  rw [dedup_append, dedup_append xs zs, List.filter_append, hnone, List.nil_append]

/-! ### Flattening piece by piece -/

theorem flatten_eq_dedup (t : Types) (members : List TypeId) :
    t.flatten members = dedup ((members.flatMap t.members).filter (· ≠ TypeId.never)) :=
  filter_dedup _ _

theorem flatten_append (t : Types) (xs ys : List TypeId) :
    t.flatten (xs ++ ys) = dedup (t.flatten xs ++ t.flatten ys) := by
  simp only [flatten_eq_dedup, List.flatMap_append, List.filter_append, dedup_dedup_append]

/-- Repeating a type adds nothing. -/
theorem flatten_repeat (hi : i ∈ front) : t.flatten (front ++ i :: back) = t.flatten (front ++ back) := by
  have hsubset : t.members i ⊆ front.flatMap t.members := fun m hm => List.mem_flatMap.mpr ⟨i, hi, hm⟩
  simp only [flatten, List.flatMap_append, List.flatMap_cons, dedup_append_of_subset hsubset]

/-- No reserved type is a union. -/
theorem Sound.members_of_isReserved (h : t.Sound) (hi : i.isReserved = true) : t.members i = [i] := by
  have hinitial : ∀ n < TypeId.firstFree, initial.isUnion ⟨n⟩ = false := by decide
  have hraw : i.raw < TypeId.firstFree := of_decide_eq_true hi
  have hget : t.get? i = initial.get? i := getElem?_of_prefix_of_lt h.reserved hraw
  refine members_eq_of_not_isUnion ?_
  rw [isUnion, hget]
  exact hinitial i.raw hraw

theorem Sound.flatten_never (h : t.Sound) (front back : List TypeId) :
    t.flatten (front ++ TypeId.never :: back) = t.flatten (front ++ back) := by
  have hnever : t.members TypeId.never = [TypeId.never] := h.members_of_isReserved rfl
  simp [flatten_eq_dedup, List.filter_append, hnever]

theorem IsFlat.filter_ne_never (h : t.IsFlat flat) : flat.filter (· ≠ TypeId.never) = flat := by
  refine List.filter_eq_self.mpr fun m hm => decide_eq_true ?_
  rintro rfl
  exact h.ne_never hm

theorem IsFlat.flatten_eq (h : t.IsFlat flat) : t.flatten flat = flat := by
  have hmembers : flat.flatMap t.members = flat := by
    rw [List.flatMap_congr fun m hm => members_eq_of_not_isUnion (h.not_union m hm)]
    simp
  rw [flatten_eq_dedup, hmembers, h.filter_ne_never, dedup_of_nodup h.nodup]

theorem IsNormalUnion.isFlat (h : t.IsNormalUnion members) : t.IsFlat members :=
  ⟨h.nodup, h.not_union, h.ne_never⟩

theorem UnionsNormal.isFlat_flatten (h : t.UnionsNormal) (hk : ∀ m ∈ members, t.Knows m) :
    t.IsFlat (t.flatten members) where
  nodup := (nodup_dedup _).filter _
  not_union _ hm := (h.of_mem_flatten hk hm).2
  ne_never hnever := (mem_flatten.mp hnever).1 rfl

theorem Extends.flatten (h : t.Extends t') (hs : t.Sound) (hk : ∀ m ∈ members, t.Knows m) :
    t'.flatten members = t.flatten members := by
  have hmembers : members.flatMap t'.members = members.flatMap t.members :=
    List.flatMap_congr fun m hm => h.members hs (hk m hm)
  simp only [Types.flatten, hmembers]

/-! ### What takes the place of the others -/

theorem absorb_of_any (h : TypeId.any ∈ flat) : absorb flat = [TypeId.any] := if_pos h

theorem absorb_of_unknown (hany : TypeId.any ∉ flat) (h : TypeId.unknown ∈ flat) :
    absorb flat = [TypeId.unknown] := by
  rw [absorb, if_neg hany, if_pos h]

theorem absorb_of_neither (hany : TypeId.any ∉ flat) (hunknown : TypeId.unknown ∉ flat) :
    absorb flat = flat := by
  rw [absorb, if_neg hany, if_neg hunknown]

theorem any_mem_absorb : TypeId.any ∈ absorb flat ↔ TypeId.any ∈ flat := by
  by_cases hany : TypeId.any ∈ flat
  · simp [absorb_of_any hany, hany]
  by_cases hunknown : TypeId.unknown ∈ flat
  · have hne : TypeId.any ≠ TypeId.unknown := by decide
    simp [absorb_of_unknown hany hunknown, hany, hne]
  · rw [absorb_of_neither hany hunknown]

theorem unknown_mem_absorb (hany : TypeId.any ∉ flat) :
    TypeId.unknown ∈ absorb flat ↔ TypeId.unknown ∈ flat := by
  by_cases hunknown : TypeId.unknown ∈ flat
  · simp [absorb_of_unknown hany hunknown, hunknown]
  · rw [absorb_of_neither hany hunknown]

/-- Whether something takes the place of the others before two lists are put together or after makes no
difference. -/
theorem absorb_dedup_append (xs ys : List TypeId) :
    absorb (dedup (absorb xs ++ absorb ys)) = absorb (dedup (xs ++ ys)) := by
  by_cases hany : TypeId.any ∈ xs ∨ TypeId.any ∈ ys
  · rw [absorb_of_any, absorb_of_any]
    · simpa [mem_dedup] using hany
    · simpa [mem_dedup, any_mem_absorb] using hany
  obtain ⟨hxs, hys⟩ := not_or.mp hany
  by_cases hunknown : TypeId.unknown ∈ xs ∨ TypeId.unknown ∈ ys
  · rw [absorb_of_unknown, absorb_of_unknown]
    · simpa [mem_dedup] using hany
    · simpa [mem_dedup] using hunknown
    · simpa [mem_dedup, any_mem_absorb] using hany
    · simpa [mem_dedup, unknown_mem_absorb hxs, unknown_mem_absorb hys] using hunknown
  · obtain ⟨hxs', hys'⟩ := not_or.mp hunknown
    rw [absorb_of_neither hxs hxs', absorb_of_neither hys hys']

/-- Types come to the same if the same counts of what they flatten to. -/
theorem union_congr (h : absorb (t.flatten xs) = absorb (t.flatten ys)) : t.union xs = t.union ys := by
  have hany : TypeId.any ∈ t.flatten xs ↔ TypeId.any ∈ t.flatten ys := by
    rw [← any_mem_absorb, h, any_mem_absorb]
  by_cases hxs : TypeId.any ∈ t.flatten xs
  · rw [union_of_any hxs, union_of_any (hany.mp hxs)]
  have hys : TypeId.any ∉ t.flatten ys := mt hany.mpr hxs
  have hunknown : TypeId.unknown ∈ t.flatten xs ↔ TypeId.unknown ∈ t.flatten ys := by
    rw [← unknown_mem_absorb hxs, h, unknown_mem_absorb hys]
  by_cases hxs' : TypeId.unknown ∈ t.flatten xs
  · rw [union_of_unknown hxs hxs', union_of_unknown hys (hunknown.mp hxs')]
  · rw [absorb_of_neither hxs hxs', absorb_of_neither hys (mt hunknown.mpr hxs')] at h
    simp only [Types.union, h]

/-! ### The members of a union -/

/-- What is left of some types is what their union has for members. -/
theorem IsFlat.members_union (h : t.IsFlat (t.flatten members)) (hs : t.InStep)
    (hne : t.flatten members ≠ []) (hany : TypeId.any ∉ t.flatten members)
    (hunknown : TypeId.unknown ∉ t.flatten members) :
    (t.union members).1.members (t.union members).2 = t.flatten members := by
  match hflat : t.flatten members with
  | [] => exact absurd hflat hne
  | [single] =>
    rw [union_of_single hflat]
    exact members_eq_of_not_isUnion (h.not_union single (by simp [hflat]))
  | first :: second :: rest =>
    rw [union_of_two_le hany hunknown (by simp [hflat]), ← hflat]
    simp only [Types.members, hs.get?_enterUnion, hs.listAt_enterUnion]

/-- What a union counts for when it is united with other types. -/
theorem IsFlat.filter_members_union (h : t.IsFlat (t.flatten members)) (hb : t.Built) :
    ((t.union members).1.members (t.union members).2).filter (· ≠ TypeId.never) =
      absorb (t.flatten members) := by
  have hs : t.Sound := hb.sound
  by_cases hany : TypeId.any ∈ t.flatten members
  · rw [union_of_any hany, absorb_of_any hany, hs.members_of_isReserved rfl]
    rfl
  by_cases hunknown : TypeId.unknown ∈ t.flatten members
  · rw [union_of_unknown hany hunknown, absorb_of_unknown hany hunknown,
      hs.members_of_isReserved rfl]
    rfl
  rw [absorb_of_neither hany hunknown]
  by_cases hnil : t.flatten members = []
  · rw [union_of_nil hnil, hnil, hs.members_of_isReserved rfl]
    rfl
  · rw [h.members_union hb.inStep hnil hany hunknown, h.filter_ne_never]

/-! ### Finding a union again -/

theorem InStep.enterUnion_again (hs : t.InStep) (hs' : t'.InStep)
    (h : (t.enterUnion flat).1.Extends t') : t'.enterUnion flat = (t', (t.enterUnion flat).2) := by
  have hlist : t'.internList flat = (t', (t.internList flat).2) := by
    rw [internList_eq_enter, hs.lists.enter_again hs'.lists h.lists]
    rfl
  rw [enterUnion, hlist, intern_eq_enter, (hs.internList flat).data.enter_again hs'.data h.data]
  rfl

/-- Types that have been united are answered with the same type ever after. -/
theorem Built.union_again (hb : t.Built) (hs' : t'.InStep) (hk : ∀ m ∈ members, t.Knows m)
    (h : (t.union members).1.Extends t') : t'.union members = (t', (t.union members).2) := by
  have hflat : t'.flatten members = t.flatten members :=
    ((t.extends_perform (.union members)).trans h).flatten hb.sound hk
  rcases t.union_cases members with ⟨k, -, hk⟩ | ⟨-, hunion⟩
  · rw [hk t' hflat, hk t rfl]
  · rw [hunion t rfl] at h ⊢
    rw [hunion t' hflat]
    exact hb.inStep.enterUnion_again hs' h

/-- A union that is there is found by its members. -/
theorem Built.enterUnion_of_get? (h : t.Built) {list : ListId} (hi : t.get? i = some (.union list)) :
    t.enterUnion (t.listAt list) = (t, i) := by
  have hlt := h.sound.list_lt list (mem_data_of_get? hi)
  have hlist : t.lists[list.raw]? = some (t.listAt list) := by
    simp [listAt, Array.getD, hlt]
  have hfound : t.internList (t.listAt list) = (t, list) := by
    rw [internList_eq_enter, h.inStep.lists.enter_of_getElem? hlist]
  rw [enterUnion, hfound]
  exact h.inStep.intern_of_get? hi

theorem IsFlat.flatten_singleton (h : t.IsFlat (t.members u)) : t.flatten [u] = t.members u := by
  rw [flatten_eq_dedup, List.flatMap_singleton, h.filter_ne_never, dedup_of_nodup h.nodup]

theorem Sound.union_singleton_of_not_isUnion (h : t.Sound) (hu : t.isUnion u = false) :
    t.union [u] = (t, u) := by
  by_cases hnever : u = TypeId.never
  · subst hnever
    exact union_of_nil (h.flatten_never [] [])
  · have hflat : t.IsFlat [u] :=
      ⟨List.nodup_singleton u, List.forall_mem_singleton.mpr hu, by simpa using Ne.symm hnever⟩
    exact union_of_single hflat.flatten_eq

/-- The union of a single type is that type, whether it is known or not. -/
theorem InOrder.union_singleton (h : t.InOrder) (u : TypeId) : t.union [u] = (t, u) := by
  cases hu : t.isUnion u with
  | false => exact h.built.sound.union_singleton_of_not_isUnion hu
  | true =>
    obtain ⟨list, hlist, hmembers⟩ := exists_list_of_isUnion hu
    have hnormal := h.normal u list hlist
    have hflat : t.flatten [u] = t.listAt list :=
      hmembers ▸ IsFlat.flatten_singleton (hmembers.symm ▸ hnormal.isFlat)
    rw [union_of_two_le (hflat ▸ hnormal.ne_any) (hflat ▸ hnormal.ne_unknown)
      (hflat ▸ hnormal.two_le_length), hflat]
    exact h.built.enterUnion_of_get? hlist

/-! ### Grouping -/

/-- In a table that has the unions of two lists, their union is that of both lists together. -/
theorem InOrder.union_pair (h : t.InOrder) (hxs : ∀ m ∈ xs, t.Knows m) (hys : ∀ m ∈ ys, t.Knows m)
    (hu : t.union xs = (t, u)) (hv : t.union ys = (t, v)) : t.union [u, v] = t.union (xs ++ ys) := by
  have hleft := (h.normal.isFlat_flatten hxs).filter_members_union h.built
  have hright := (h.normal.isFlat_flatten hys).filter_members_union h.built
  rw [hu] at hleft
  rw [hv] at hright
  have hflat : t.flatten [u, v] = dedup (absorb (t.flatten xs) ++ absorb (t.flatten ys)) := by
    rw [flatten_eq_dedup, ← hleft, ← hright, ← List.filter_append]
    simp
  refine union_congr ?_
  rw [hflat, flatten_append, absorb_dedup_append]

theorem extends_unions (t : Types) (xs ys : List TypeId) :
    t.Extends ((t.union xs).1.union ys).1 :=
  (t.extends_perform (.union xs)).trans (extends_perform _ (.union ys))

theorem InOrder.union (h : t.InOrder) (hk : ∀ m ∈ members, t.Knows m) : (t.union members).1.InOrder :=
  h.perform (.union members) hk

/-- Once the unions of two lists have been entered, the union of these is that of all types together. -/
theorem InOrder.unionOfUnions_eq (h : t.InOrder) (hxs : ∀ m ∈ xs, t.Knows m)
    (hys : ∀ m ∈ ys, t.Knows m) :
    t.unionOfUnions xs ys = ((t.union xs).1.union ys).1.union (xs ++ ys) := by
  have hys' : ∀ m ∈ ys, (t.union xs).1.Knows m := fun m hm =>
    (t.extends_perform (.union xs)).knows (hys m hm)
  have hlater := t.extends_unions xs ys
  have horder := (h.union hxs).union hys'
  refine horder.union_pair (fun m hm => hlater.knows (hxs m hm))
    (fun m hm => hlater.knows (hys m hm)) ?_ ?_
  · exact h.built.union_again horder.built.inStep hxs (extends_perform _ (.union ys))
  · exact (h.union hxs).built.union_again horder.built.inStep hys' (.refl _)

/-- In a table that has only been given known ids, types can be united in any grouping: whichever is asked
for first, the union of two lists together and the union of their unions are answered with the same type,
and the answer stays the same for good. The union of a single type is that type, and neither repeating a
type nor putting `never` in anywhere makes a difference. -/
theorem union_groups {rs : List Request} (h : EachIs IsGivenKnown initial rs) :
    let t := initial.serveAll rs
    (∀ xs ys, (∀ m ∈ xs ++ ys, t.Knows m) →
      ((t.union (xs ++ ys)).1.unionOfUnions xs ys).2 = (t.union (xs ++ ys)).2 ∧
      ((t.unionOfUnions xs ys).1.union (xs ++ ys)).2 = (t.unionOfUnions xs ys).2) ∧
    (∀ members, (∀ m ∈ members, t.Knows m) → ∀ more,
      (((t.union members).1.serveAll more).union members).2 = (t.union members).2) ∧
    (∀ u, t.union [u] = (t, u)) ∧
    (∀ front back, ∀ i ∈ front, t.union (front ++ i :: back) = t.union (front ++ back)) ∧
    ∀ front back, t.union (front ++ TypeId.never :: back) = t.union (front ++ back) := by
  intro t
  have horder : t.InOrder := inOrder_initial.serveAll h
  have hb : t.Built := horder.built
  refine ⟨fun xs ys hk => ?_, fun members hk more => ?_, horder.union_singleton,
    fun front back i hi => ?_, fun front back => ?_⟩
  · obtain ⟨hxs, hys⟩ := List.forall_mem_append.mp hk
    constructor
    · have hextends : t.Extends (t.union (xs ++ ys)).1 := t.extends_perform (.union (xs ++ ys))
      have hlater := ((hb.union (xs ++ ys)).union xs).union ys
      rw [(horder.union hk).unionOfUnions_eq (fun m hm => hextends.knows (hxs m hm))
        fun m hm => hextends.knows (hys m hm), hb.union_again hlater.inStep hk (extends_unions _ xs ys)]
    · have hlater := t.extends_unions xs ys
      have horder' : ((t.union xs).1.union ys).1.InOrder := (horder.union hxs).union fun m hm =>
        (t.extends_perform (.union xs)).knows (hys m hm)
      rw [horder.unionOfUnions_eq hxs hys,
        horder'.built.union_again (horder'.built.union _).inStep (fun m hm => hlater.knows (hk m hm))
          (.refl _)]
  · have hlater : ((t.union members).1.serveAll more).InStep := (hb.union members).inStep.serveAll more
    rw [hb.union_again hlater hk (extends_serveAll _ more)]
  · exact union_congr (congrArg absorb (flatten_repeat hi))
  · exact union_congr (congrArg absorb (hb.sound.flatten_never front back))

/-- A union with `undefined`, an array of it that is entered just as it is, and the data of the union once
more. -/
def optionalStrings : List Request :=
  [.perform (.union [TypeId.string, TypeId.undefined]), .intern (.array ⟨15⟩), .intern (.union ⟨0⟩)]

/-- A union that is taken apart, a repetition and `never` make no difference in either grouping. Which ids
are new depends on what is asked for first. -/
theorem union_groups_optionalStrings :
    let t := initial.serveAll optionalStrings
    let xs := [⟨15⟩, TypeId.number]
    let ys := [TypeId.never, TypeId.string, ⟨16⟩]
    EachIs IsGivenKnown initial optionalStrings ∧ (t.union (xs ++ ys)).2 = ⟨17⟩ ∧
      ((t.union (xs ++ ys)).1.unionOfUnions xs ys).2 = ⟨17⟩ ∧
      (t.unionOfUnions xs ys).2 = ⟨19⟩ ∧ ((t.unionOfUnions xs ys).1.union (xs ++ ys)).2 = ⟨19⟩ ∧
      t.union [⟨15⟩] = (t, ⟨15⟩) ∧ t.union (xs ++ TypeId.number :: ys) = t.union (xs ++ ys) := by
  intro t xs ys
  have hknown : EachIs IsGivenKnown initial optionalStrings := by decide
  obtain ⟨hgroups, -, hsingle, hrepeat, -⟩ := union_groups hknown
  obtain ⟨hwhole, hgrouped⟩ := hgroups xs ys (by decide)
  have hid : (t.union (xs ++ ys)).2 = ⟨17⟩ := by decide
  have hid' : (t.unionOfUnions xs ys).2 = ⟨19⟩ := by decide
  exact ⟨hknown, hid, hwhole.trans hid, hid', hgrouped.trans hid', hsingle _,
    hrepeat xs ys _ (by decide)⟩

end Types

end Misfit
