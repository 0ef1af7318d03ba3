import Misfit.Proofs.Types.Grouping

/-!
# Taking `undefined` out of a union

What is left of a union without `undefined` is entered as a union of its own. That this takes nothing else
out, puts nothing in and keeps the order rests on the normal form of the union that it is taken out of: its
other members are flat, and neither of `any` and `unknown` is there to take their place.
-/
namespace Misfit

namespace Types

/-- A union with `undefined` among its members. -/
def HoldsUndefined (t : Types) (i : TypeId) : Prop :=
  t.isUnion i = true ∧ TypeId.undefined ∈ t.members i

instance (t : Types) (i : TypeId) : Decidable (t.HoldsUndefined i) :=
  inferInstanceAs (Decidable (t.isUnion i = true ∧ TypeId.undefined ∈ t.members i))

/-- The members of a type other than `undefined`. -/
def membersLeft (t : Types) (i : TypeId) : List TypeId :=
  (t.members i).filter (· ≠ TypeId.undefined)

variable {t : Types} {i : TypeId} {flat members : List TypeId}

/-! ### Whether anything is taken out -/

theorem withoutUndefined_of_not (hi : ¬t.HoldsUndefined i) :
    t.withoutUndefined i = (t, i, false) := by
  have hskip : (t.members i).length < 2 ∨ TypeId.undefined ∉ t.members i := by
    cases hu : t.isUnion i with
    | false => simp [members_eq_of_not_isUnion hu]
    | true => exact Or.inr fun hmem => hi ⟨hu, hmem⟩
  simp only [withoutUndefined, if_pos hskip]

theorem Sound.withoutUndefined_of_holds (h : t.Sound) (hi : t.HoldsUndefined i) :
    t.withoutUndefined i = ((t.union (t.membersLeft i)).1, (t.union (t.membersLeft i)).2, true) := by
  have hlength := h.two_le_length_members hi.1
  have hgo : ¬((t.members i).length < 2 ∨ TypeId.undefined ∉ t.members i) := by
    rw [not_or, not_not]
    exact ⟨Nat.not_lt_of_le hlength, hi.2⟩
  simp only [withoutUndefined, if_neg hgo, membersLeft]

/-! ### What is left -/

theorem UnionsNormal.isNormalUnion_members (h : t.UnionsNormal) (hu : t.isUnion i = true) :
    t.IsNormalUnion (t.members i) := by
  obtain ⟨list, hlist, hmembers⟩ := exists_list_of_isUnion hu
  exact hmembers ▸ h i list hlist

theorem IsFlat.filter (h : t.IsFlat flat) (p : TypeId → Bool) : t.IsFlat (flat.filter p) where
  nodup := h.nodup.filter p
  not_union m hm := h.not_union m (List.mem_filter.mp hm).1
  ne_never hm := h.ne_never (List.mem_filter.mp hm).1

/-- A union has more than one member. -/
theorem IsNormalUnion.exists_ne (h : t.IsNormalUnion members) (i : TypeId) : ∃ m ∈ members, m ≠ i := by
  by_contra hall
  have heq : ∀ m ∈ members, m = i := fun m hm => by_contra fun hne => hall ⟨m, hm, hne⟩
  have hnodup := h.nodup
  rw [List.eq_replicate_of_mem heq, List.nodup_replicate] at hnodup
  exact absurd h.two_le_length (Nat.not_le_of_lt (Nat.lt_succ_of_le hnodup))

theorem mem_membersLeft {m : TypeId} :
    m ∈ t.membersLeft i ↔ m ∈ t.members i ∧ m ≠ TypeId.undefined := by
  simp [membersLeft]

/-- What is left is entered as it is. -/
theorem InOrder.members_union_membersLeft (h : t.InOrder) (hi : t.HoldsUndefined i) :
    (t.union (t.membersLeft i)).1.members (t.union (t.membersLeft i)).2 = t.membersLeft i := by
  have hnormal := h.normal.isNormalUnion_members hi.1
  have hflat : t.IsFlat (t.membersLeft i) := hnormal.isFlat.filter _
  obtain ⟨m, hm, hne⟩ := hnormal.exists_ne TypeId.undefined
  have hleft : t.flatten (t.membersLeft i) = t.membersLeft i := hflat.flatten_eq
  have hunion := IsFlat.members_union (hleft.symm ▸ hflat) h.built.inStep
  rw [hleft] at hunion
  refine hunion (List.ne_nil_of_mem (mem_membersLeft.mpr ⟨hm, hne⟩)) ?_ ?_
  · exact fun hany => hnormal.ne_any (mem_membersLeft.mp hany).1
  · exact fun hunknown => hnormal.ne_unknown (mem_membersLeft.mp hunknown).1

/-! ### Putting `undefined` back -/

theorem InOrder.knows_union (h : t.InOrder) (hk : ∀ m ∈ members, t.Knows m) :
    (t.union members).1.Knows (t.union members).2 := by
  rcases t.union_cases members with ⟨k, hmember, hunion⟩ | ⟨-, hunion⟩
  · rw [hunion t rfl]
    rcases hmember with rfl | hmember
    · exact h.built.sound.knows_of_isReserved rfl
    · exact (h.normal.of_mem_flatten hk hmember).1
  · rw [hunion t rfl]
    exact (h.built.inStep.internList _).knows_intern _

/-- What is left and `undefined` flatten to the members of the union that it was taken out of. -/
theorem InOrder.mem_flatten_putBack (h : t.InOrder) (hi : t.HoldsUndefined i) {m : TypeId} :
    let r := t.union (t.membersLeft i)
    m ∈ r.1.flatten [r.2, TypeId.undefined] ↔ m ∈ t.members i := by
  intro r
  have hnormal := h.normal.isNormalUnion_members hi.1
  have hundefined : r.1.members TypeId.undefined = [TypeId.undefined] :=
    (h.built.union _).sound.members_of_isReserved rfl
  have hleft : r.1.members r.2 = t.membersLeft i := h.members_union_membersLeft hi
  rw [mem_flatten, List.exists_mem_cons_iff, List.exists_mem_cons_iff, hleft, hundefined,
    mem_membersLeft, List.mem_singleton]
  constructor
  · rintro ⟨-, ⟨hm, -⟩ | rfl | ⟨_, hnone, -⟩⟩
    · exact hm
    · exact hi.2
    · exact absurd hnone List.not_mem_nil
  · intro hm
    refine ⟨fun heq => hnormal.ne_never (heq ▸ hm), ?_⟩
    by_cases heq : m = TypeId.undefined
    · exact Or.inr (Or.inl heq)
    · exact Or.inl ⟨hm, heq⟩

/-- The union of what is left with `undefined` has the members that there were. -/
theorem InOrder.mem_members_putBack (h : t.InOrder) (hi : t.HoldsUndefined i) {m : TypeId} :
    let r := t.union (t.membersLeft i)
    let back := r.1.union [r.2, TypeId.undefined]
    m ∈ back.1.members back.2 ↔ m ∈ t.members i := by
  intro r back
  have hnormal := h.normal.isNormalUnion_members hi.1
  have hknown : ∀ m ∈ t.membersLeft i, t.Knows m := fun m hm =>
    hnormal.knows m (mem_membersLeft.mp hm).1
  have horder : r.1.InOrder := h.union hknown
  have hflat : ∀ m, m ∈ r.1.flatten [r.2, TypeId.undefined] ↔ m ∈ t.members i := fun m =>
    h.mem_flatten_putBack hi
  have hback : ∀ m ∈ [r.2, TypeId.undefined], r.1.Knows m := by
    rw [List.forall_mem_cons, List.forall_mem_singleton]
    exact ⟨h.knows_union hknown, horder.built.sound.knows_of_isReserved rfl⟩
  rw [(horder.normal.isFlat_flatten hback).members_union horder.built.inStep, hflat]
  · exact List.ne_nil_of_mem ((hflat _).mpr hi.2)
  · exact fun hany => hnormal.ne_any ((hflat _).mp hany)
  · exact fun hunknown => hnormal.ne_unknown ((hflat _).mp hunknown)

/-- Taking `undefined` out of a union that has it for a member leaves the other members in their order, and
the union of what is left with `undefined` has all of them again. Where `undefined` is not among the members
of a union, nothing is taken out and nothing entered. Either way there is no `undefined` to be taken out any
more. -/
theorem withoutUndefined_narrows {rs : List Request} (h : EachIs IsGivenKnown initial rs)
    (i : TypeId) :
    let t := initial.serveAll rs
    let r := t.withoutUndefined i
    (t.HoldsUndefined i → r.2.2 = true ∧
      r.1.members r.2.1 = (t.members i).filter (· ≠ TypeId.undefined) ∧
      let back := r.1.union [r.2.1, TypeId.undefined]
      ∀ m, m ∈ back.1.members back.2 ↔ m ∈ t.members i) ∧
    (¬t.HoldsUndefined i → r = (t, i, false)) ∧
    ¬r.1.HoldsUndefined r.2.1 ∧ r.1.withoutUndefined r.2.1 = (r.1, r.2.1, false) := by
  intro t r
  have horder : t.InOrder := inOrder_initial.serveAll h
  have htaken : t.HoldsUndefined i →
      r = ((t.union (t.membersLeft i)).1, (t.union (t.membersLeft i)).2, true) :=
    horder.built.sound.withoutUndefined_of_holds
  have hdone : ¬r.1.HoldsUndefined r.2.1 := by
    by_cases hi : t.HoldsUndefined i
    · rw [htaken hi]
      rintro ⟨-, hmem⟩
      rw [horder.members_union_membersLeft hi] at hmem
      exact (mem_membersLeft.mp hmem).2 rfl
    · have hsame : r = (t, i, false) := withoutUndefined_of_not hi
      rwa [hsame]
  refine ⟨fun hi => ?_, withoutUndefined_of_not, hdone, withoutUndefined_of_not hdone⟩
  rw [htaken hi]
  exact ⟨rfl, horder.members_union_membersLeft hi, fun m => horder.mem_members_putBack hi⟩

/-- A literal, its union with `undefined` and a number, and the one with `undefined` alone. -/
def optionalLiterals : List Request :=
  [.perform (.literal (.string "a")), .perform (.union [⟨15⟩, TypeId.undefined, TypeId.number]),
    .perform (.union [TypeId.undefined, ⟨15⟩])]

/-- What is left of the larger union is a new one; of the smaller one the literal is left. The literal
itself stays as it is. -/
theorem withoutUndefined_narrows_optionalLiterals :
    let t := initial.serveAll optionalLiterals
    let r := t.withoutUndefined ⟨16⟩
    let single := t.withoutUndefined ⟨17⟩
    EachIs IsGivenKnown initial optionalLiterals ∧
      (t.HoldsUndefined ⟨16⟩ ∧ r.2.1 = ⟨18⟩ ∧ r.1.members ⟨18⟩ = [⟨15⟩, TypeId.number]) ∧
      (t.HoldsUndefined ⟨17⟩ ∧ single.2.1 = ⟨15⟩ ∧ single.1.members ⟨15⟩ = [⟨15⟩]) ∧
      t.withoutUndefined ⟨15⟩ = (t, ⟨15⟩, false) := by
  intro t r single
  have hknown : EachIs IsGivenKnown initial optionalLiterals := by decide
  have hlarge : t.HoldsUndefined ⟨16⟩ := by decide
  have hsmall : t.HoldsUndefined ⟨17⟩ := by decide
  have hid : r.2.1 = ⟨18⟩ := by decide
  have hid' : single.2.1 = ⟨15⟩ := by decide
  obtain ⟨-, hleft, -⟩ := (withoutUndefined_narrows hknown ⟨16⟩).1 hlarge
  obtain ⟨-, hleft', -⟩ := (withoutUndefined_narrows hknown ⟨17⟩).1 hsmall
  have hsame := (withoutUndefined_narrows hknown ⟨15⟩).2.1 (by decide)
  refine ⟨hknown, ⟨hlarge, hid, ?_⟩, ⟨hsmall, hid', ?_⟩, hsame⟩
  · rw [← hid]
    exact hleft.trans (by decide)
  · rw [← hid']
    exact hleft'.trans (by decide)

end Types

end Misfit
