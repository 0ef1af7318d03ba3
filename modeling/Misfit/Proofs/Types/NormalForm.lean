import Misfit.Proofs.Types.Operations

/-!
# Unions in normal form

A union is flattened only one level deep when it is entered. This is enough, because every union that has
been entered before is flat already: as long as operations are given ids that are known, no member of a
union is a union, `never`, `any` or `unknown`, and none occurs twice. So what the union of some types
comes to can be read off the members that are left when unions are replaced by their members, and
repetitions and `never` are left out.
-/
namespace Misfit

namespace Types

/-- The ids that an operation is given. -/
def Operation.ids : Operation → List TypeId
  | .array element => [element]
  | .object shape => shape.parts
  | .function shape => shape.parts
  | .defineObject i shape => i :: shape.parts
  | .union members => members
  | .withoutUndefined i => [i]
  | _ => []

/-- Every operation is given ids that are known by then. -/
def PassesKnown (t : Types) : List Operation → Prop
  | [] => True
  | op :: ops => (∀ i ∈ op.ids, t.Knows i) ∧ PassesKnown (t.perform op).1 ops

instance decidablePassesKnown (t : Types) : ∀ ops, Decidable (t.PassesKnown ops)
  | [] => isTrue trivial
  | op :: ops =>
    have := decidablePassesKnown (t.perform op).1 ops
    inferInstanceAs (Decidable ((∀ i ∈ op.ids, t.Knows i) ∧ PassesKnown (t.perform op).1 ops))

/-- Members that a union in normal form can have. -/
structure IsNormalUnion (t : Types) (members : List TypeId) : Prop where
  two_le_length : 2 ≤ members.length
  nodup : members.Nodup
  knows : ∀ m ∈ members, t.Knows m
  not_union : ∀ m ∈ members, t.isUnion m = false
  ne_never : TypeId.never ∉ members
  ne_any : TypeId.any ∉ members
  ne_unknown : TypeId.unknown ∉ members

/-- Every union of the table is in normal form. -/
def UnionsNormal (t : Types) : Prop :=
  ∀ i list, t.get? i = some (.union list) → t.IsNormalUnion (t.listAt list)

/-- What is left of some types when they are united: each one once, where it occurs first, with unions
replaced by their members and `never` left out. -/
def leftOf (t : Types) (members : List TypeId) : List TypeId :=
  (members.flatMap t.members).eraseDups.filter (· ≠ TypeId.never)

/-- What the union of some types comes to: the table after it and the id that is answered. -/
structure UnitesTo (t : Types) (members : List TypeId) (r : Types × TypeId) : Prop where
  flat : ∀ m ∈ t.leftOf members, t.Knows m ∧ t.isUnion m = false
  any : TypeId.any ∈ t.leftOf members → r = (t, TypeId.any)
  unknown : TypeId.any ∉ t.leftOf members → TypeId.unknown ∈ t.leftOf members →
    r = (t, TypeId.unknown)
  none_left : t.leftOf members = [] → r = (t, TypeId.never)
  one_left : ∀ single, t.leftOf members = [single] → r = (t, single)
  more_left : TypeId.any ∉ t.leftOf members → TypeId.unknown ∉ t.leftOf members →
    2 ≤ (t.leftOf members).length →
    ∃ list, r.1.get? r.2 = some (.union list) ∧ r.1.listAt list = t.leftOf members

/-- Not one of the types that a union never has among its members. -/
structure IsProper (i : TypeId) : Prop where
  ne_any : i ≠ TypeId.any
  ne_unknown : i ≠ TypeId.unknown
  ne_never : i ≠ TypeId.never

instance (i : TypeId) : Decidable (IsProper i) :=
  decidable_of_iff (i ≠ TypeId.any ∧ i ≠ TypeId.unknown ∧ i ≠ TypeId.never)
    ⟨fun h => ⟨h.1, h.2.1, h.2.2⟩, fun h => ⟨h.ne_any, h.ne_unknown, h.ne_never⟩⟩

/-- Members that a union has in any table that is built, whatever ids the operations were given. -/
structure AreProper (members : List TypeId) : Prop where
  nodup : members.Nodup
  isProper : ∀ m ∈ members, IsProper m

/-- The members of a type are those of some types together. -/
def Gathers (t : Types) (types : List TypeId) (united : TypeId) : Prop :=
  ∀ m, m ∈ t.members united ↔ ∃ i ∈ types, m ∈ t.members i

variable {t t' : Types} {i j : TypeId} {members : List TypeId} {op : Operation}

/-! ### Flattening -/

theorem filter_dedup (p : TypeId → Bool) (xs : List TypeId) :
    (dedup xs).filter p = dedup (xs.filter p) := by
  induction xs with
  | nil => rfl
  | cons x xs ih =>
    have hcomm : (dedup xs).filter (fun y => p y && decide (y ≠ x)) =
        (dedup (xs.filter p)).filter (· ≠ x) := by
      rw [← ih, List.filter_filter]
      exact List.filter_congr fun y _ => Bool.and_comm _ _
    by_cases hx : p x = true
    · simp only [dedup, List.filter_cons_of_pos hx, List.filter_filter, hcomm]
    · have hskip : (dedup xs).filter (fun y => p y && decide (y ≠ x)) = (dedup xs).filter p :=
        List.filter_congr fun y _ => by
          by_cases heq : y = x <;> simp [heq, hx]
      simp only [dedup, List.filter_cons_of_neg hx, List.filter_filter, hskip, ih]

/-- By induction on the length: what is left of a list without its first element is no longer. -/
theorem dedup_eq_eraseDups (xs : List TypeId) : dedup xs = xs.eraseDups := by
  induction hn : xs.length using Nat.strong_induction_on generalizing xs with
  | _ n ih =>
    cases xs with
    | nil => rfl
    | cons x xs =>
      have hlt : (xs.filter (· ≠ x)).length < n := by
        have hle := List.length_filter_le (· ≠ x) xs
        simp only [List.length_cons] at hn
        omega
      rw [dedup, filter_dedup, ih _ hlt _ rfl, List.eraseDups_cons]
      congr 3
      funext y
      by_cases heq : y = x <;> simp [heq]

theorem flatten_eq_leftOf (t : Types) (members : List TypeId) :
    t.flatten members = t.leftOf members := by
  rw [flatten, leftOf, dedup_eq_eraseDups]

/-- The members of a known type are known, and none of them is a union. -/
theorem UnionsNormal.of_mem_members (h : t.UnionsNormal) (hi : t.Knows i) (hj : j ∈ t.members i) :
    t.Knows j ∧ t.isUnion j = false := by
  unfold Types.members at hj
  split at hj
  · rename_i list hlist
    have hnormal := h i list hlist
    exact ⟨hnormal.knows j hj, hnormal.not_union j hj⟩
  · rename_i hnot
    obtain rfl := List.mem_singleton.mp hj
    refine ⟨hi, ?_⟩
    unfold isUnion
    split
    · rename_i list hlist
      exact (hnot list hlist).elim
    · rfl

theorem UnionsNormal.of_mem_flatten (h : t.UnionsNormal) (hk : ∀ m ∈ members, t.Knows m)
    (hj : j ∈ t.flatten members) : t.Knows j ∧ t.isUnion j = false := by
  obtain ⟨-, m, hm, hj⟩ := mem_flatten.mp hj
  exact h.of_mem_members (hk m hm) hj

/-- What known types flatten to can be the members of a union. -/
theorem UnionsNormal.isNormalUnion_flatten (h : t.UnionsNormal) (hk : ∀ m ∈ members, t.Knows m)
    (hany : TypeId.any ∉ t.flatten members) (hunknown : TypeId.unknown ∉ t.flatten members)
    (hlength : 2 ≤ (t.flatten members).length) : t.IsNormalUnion (t.flatten members) where
  two_le_length := hlength
  nodup := (nodup_dedup _).filter _
  knows _ hm := (h.of_mem_flatten hk hm).1
  not_union _ hm := (h.of_mem_flatten hk hm).2
  ne_never hnever := (mem_flatten.mp hnever).1 rfl
  ne_any := hany
  ne_unknown := hunknown

/-! ### Operations keep unions in normal form -/

theorem IsNormalUnion.extends (h : t.IsNormalUnion members) (ht : t.Extends t') :
    t'.IsNormalUnion members :=
  { h with
    knows := fun m hm => ht.knows (h.knows m hm)
    not_union := fun m hm => (ht.isUnion (h.knows m hm)).trans (h.not_union m hm) }

/-- Where the table is extended, only unions that are new have to be looked at. -/
theorem UnionsNormal.extends (h : t.UnionsNormal) (hs : t.Sound) (ht : t.Extends t')
    (hnew : ∀ i list, ¬t.Knows i → t'.get? i = some (.union list) →
      t'.IsNormalUnion (t'.listAt list)) : t'.UnionsNormal := by
  intro i list hi
  by_cases hknows : t.Knows i
  · have hold : t.get? i = some (.union list) := (ht.get? hknows).symm.trans hi
    rw [ht.listAt (hs.list_lt list (mem_data_of_get? hold))]
    exact (h i list hold).extends ht
  · exact hnew i list hknows hi

/-- A type that is found where none was known is the one that has been entered. -/
theorem eq_of_get?_intern {u : Types} {d e : TypeData} (hu : u.data = t.data) (hi : ¬t.Knows i)
    (h : (u.intern d).1.get? i = some e) : e = d :=
  eq_of_getElem?_enter (hu ▸ Nat.le_of_not_lt hi) h

theorem InStep.listAt_enterUnion (h : t.InStep) (members : List TypeId) :
    (t.enterUnion members).1.listAt (t.internList members).2 = members :=
  h.listAt_internList members

theorem InStep.get?_enterUnion (h : t.InStep) (members : List TypeId) :
    (t.enterUnion members).1.get? (t.enterUnion members).2 =
      some (.union (t.internList members).2) :=
  (h.internList members).get?_intern _

theorem UnionsNormal.knows_united (h : t.UnionsNormal) (hk : ∀ i ∈ op.ids, t.Knows i) :
    ∀ m ∈ t.united op, t.Knows m := by
  intro m hm
  cases op with
  | union members => exact hk m hm
  | withoutUndefined i =>
    have hi : t.Knows i := hk i (List.mem_singleton_self i)
    exact (h.of_mem_members hi (List.mem_filter.mp hm).1).1
  | _ => exact (List.not_mem_nil hm).elim

/-- What one operation keeps. -/
theorem UnionsNormal.perform (h : t.UnionsNormal) (hb : t.Built) (hk : ∀ i ∈ op.ids, t.Knows i) :
    (t.perform op).1.UnionsNormal := by
  have hs := hb.sound
  have hperformed := t.performed op
  have hextends := t.extends_perform op
  generalize t.perform op = r at hperformed hextends
  cases hperformed with
  | nothing hu =>
    refine h.extends hs hextends fun i list hi hget => ?_
    have hsame : t.get? i = some (.union list) := by rwa [Types.get?, ← hu.data_eq]
    exact (hi (knows_of_get? hsame)).elim
  | entered hu hd =>
    refine h.extends hs hextends fun i list hi hget => ?_
    exact (hd list (eq_of_get?_intern hu.data_eq hi hget).symm).elim
  | union hany hunknown hlength =>
    refine h.extends hs hextends fun i list hi hget => ?_
    have hdata : (t.internList (t.flatten (t.united op))).1.data = t.data := rfl
    obtain rfl := TypeData.union.inj (eq_of_get?_intern hdata hi hget)
    have hlist := hb.inStep.listAt_enterUnion (t.flatten (t.united op))
    have hnormal := h.isNormalUnion_flatten (h.knows_united hk) hany hunknown hlength
    simpa only [perform.answer, hlist] using hnormal.extends hextends

/-- What any operations keep, by induction on them. -/
theorem UnionsNormal.performAll (h : t.UnionsNormal) (hb : t.Built) {ops : List Operation}
    (hk : t.PassesKnown ops) : (t.performAll ops).UnionsNormal := by
  induction ops generalizing t with
  | nil => exact h
  | cons op ops ih => exact ih (h.perform hb hk.1) (hb.perform op) hk.2

theorem unionsNormal_initial : initial.UnionsNormal := by
  intro i list hi
  have hlt := sound_initial.list_lt list (mem_data_of_get? hi)
  exact (Nat.not_lt_zero _ hlt).elim

/-! ### What no union has among its members -/

theorem areProper_flatten (hany : TypeId.any ∉ t.flatten members)
    (hunknown : TypeId.unknown ∉ t.flatten members) : AreProper (t.flatten members) where
  nodup := (nodup_dedup _).filter _
  isProper _ hm :=
    { ne_any := fun heq => hany (heq ▸ hm)
      ne_unknown := fun heq => hunknown (heq ▸ hm)
      ne_never := (mem_flatten.mp hm).1 }

/-- By induction on the operations; only those that unite types enter a list. -/
theorem Built.areProper_of_mem_lists (h : t.Built) : ∀ list ∈ t.lists.toList, AreProper list := by
  refine Built.of_perform (P := fun t => ∀ list ∈ t.lists.toList, AreProper list)
    (by simp [Types.initial]) (fun t op ih => ?_) h
  have hperformed := t.performed op
  generalize t.perform op = r at hperformed
  cases hperformed with
  | nothing hu => exact hu.lists_eq ▸ ih
  | @entered u d hu _ =>
    have hlists : (u.intern d).1.lists = t.lists := hu.lists_eq
    exact hlists ▸ ih
  | union hany hunknown _ =>
    intro list hlist
    rcases mem_or_eq_of_mem_enter hlist with hlist | rfl
    · exact ih list hlist
    · exact areProper_flatten hany hunknown

theorem Built.areProper_members (h : t.Built) (hi : t.isUnion i = true) : AreProper (t.members i) := by
  obtain ⟨list, hlist, hmembers⟩ := exists_list_of_isUnion hi
  have hlt := h.sound.list_lt list (mem_data_of_get? hlist)
  refine hmembers ▸ h.areProper_of_mem_lists _ ?_
  simp [listAt, Array.getD, hlt]

theorem Built.isProper_of_mem_members (h : t.Built) (hi : IsProper i) (hj : j ∈ t.members i) :
    IsProper j := by
  cases hu : t.isUnion i with
  | false => exact eq_of_mem_members hu hj ▸ hi
  | true => exact (h.areProper_members hu).isProper j hj

theorem Built.mem_flatten_iff (h : t.Built) (hp : ∀ m ∈ members, IsProper m) :
    j ∈ t.flatten members ↔ ∃ m ∈ members, j ∈ t.members m := by
  rw [mem_flatten]
  refine and_iff_right_of_imp ?_
  rintro ⟨m, hm, hj⟩
  exact (h.isProper_of_mem_members (hp m hm) hj).ne_never

theorem Built.isProper_of_mem_flatten (h : t.Built) (hp : ∀ m ∈ members, IsProper m)
    (hj : j ∈ t.flatten members) : IsProper j := by
  obtain ⟨m, hm, hj⟩ := (h.mem_flatten_iff hp).mp hj
  exact h.isProper_of_mem_members (hp m hm) hj

/-! ### What a union comes to -/

theorem UnionsNormal.unitesTo (h : t.UnionsNormal) (hs : t.InStep) (hk : ∀ m ∈ members, t.Knows m) :
    t.UnitesTo members (t.union members) := by
  have hleft := t.flatten_eq_leftOf members
  refine ⟨fun m hm => ?_, fun hany => ?_, fun hany hunknown => ?_, fun hnil => ?_,
    fun single hsingle => ?_, fun hany hunknown hlength => ?_⟩
  · exact h.of_mem_flatten hk (hleft ▸ hm)
  · exact union_of_any (hleft ▸ hany)
  · exact union_of_unknown (hleft ▸ hany) (hleft ▸ hunknown)
  · exact union_of_nil (hleft.trans hnil)
  · exact union_of_single (hleft.trans hsingle)
  · rw [← hleft] at hany hunknown hlength ⊢
    rw [union_of_two_le hany hunknown hlength]
    exact ⟨_, hs.get?_enterUnion _, hs.listAt_enterUnion _⟩

/-- A type is not a union if it is all that some types flatten to, because a union has two members. -/
theorem Built.isUnion_of_flatten_eq_singleton (h : t.Built) {single : TypeId}
    (hp : ∀ m ∈ members, IsProper m) (hsingle : t.flatten members = [single]) :
    t.isUnion single = false := by
  obtain ⟨m, hm, hmem⟩ := (h.mem_flatten_iff hp).mp (by simp [hsingle] : single ∈ t.flatten members)
  cases hu : t.isUnion m with
  | false => rwa [eq_of_mem_members hu hmem]
  | true =>
    have hall : ∀ k ∈ t.members m, k = single := fun k hk => by
      simpa [hsingle] using (h.mem_flatten_iff hp).mpr ⟨m, hm, hk⟩
    have hnodup := (h.areProper_members hu).nodup
    rw [List.eq_replicate_of_mem hall, List.nodup_replicate] at hnodup
    have hlength := h.sound.two_le_length_members hu
    omega

/-- The union of types that are neither left out of it nor all that is left of it has the members that
they have. -/
theorem Built.gathers_union (h : t.Built) (hc : t.Closed) (hne : members ≠ [])
    (hk : ∀ m ∈ members, t.Knows m) (hp : ∀ m ∈ members, IsProper m) :
    (t.union members).1.Gathers members (t.union members).2 := by
  have hgrows : t.Grows (t.union members).1 :=
    ((h.settled hc).entersOnce_union hk).grows
  suffices hflat : (t.union members).1.members (t.union members).2 = t.flatten members by
    intro j
    rw [hflat, h.mem_flatten_iff hp]
    exact exists_congr fun m => and_congr_right fun hm => by rw [hgrows.members (hk m hm)]
  have hany : TypeId.any ∉ t.flatten members := fun hj =>
    (h.isProper_of_mem_flatten hp hj).ne_any rfl
  have hunknown : TypeId.unknown ∉ t.flatten members := fun hj =>
    (h.isProper_of_mem_flatten hp hj).ne_unknown rfl
  match hlist : t.flatten members with
  | [] =>
    obtain ⟨m, hm⟩ := List.exists_mem_of_ne_nil members hne
    obtain ⟨j, hj⟩ := h.sound.exists_mem_members m
    have hmem := (h.mem_flatten_iff hp).mpr ⟨m, hm, hj⟩
    simp [hlist] at hmem
  | [single] =>
    rw [union_of_single hlist]
    exact members_eq_of_not_isUnion (h.isUnion_of_flatten_eq_singleton hp hlist)
  | first :: second :: rest =>
    rw [union_of_two_le hany hunknown (by simp [hlist]), ← hlist]
    simp only [Types.members, h.inStep.get?_enterUnion, h.inStep.listAt_enterUnion]

/-- After any operations that were given known ids, every union is in normal form, and the union of
known types comes to what is left of them: `any` or `unknown` if they are left, `never` if nothing is,
the single type that is left, or else the union of exactly these members. -/
theorem unions_normal {ops : List Operation} (h : initial.PassesKnown ops) :
    (initial.performAll ops).UnionsNormal ∧
      ∀ members, (∀ m ∈ members, (initial.performAll ops).Knows m) →
        (initial.performAll ops).UnitesTo members ((initial.performAll ops).union members) := by
  have hnormal := unionsNormal_initial.performAll Built.initial h
  have hstep : (initial.performAll ops).InStep := (Built.initial.performAll ops).inStep
  exact ⟨hnormal, fun members hk => hnormal.unitesTo hstep hk⟩

/-- A union, the union of it with other types, that one without `undefined`, and a type declared in
between whose property is a union. -/
def reunions : List Operation :=
  [.union [.string, .undefined], .union [.number, ⟨15⟩, .never, .string], .declareObject "Node",
    .withoutUndefined ⟨16⟩, .defineObject ⟨17⟩ { properties := [{ name := "next", type := ⟨16⟩ }] }]

/-- `number | string | undefined` is a union in normal form, and with the object and itself it unites to
a union of four. -/
theorem unions_normal_reunions :
    let t := initial.performAll reunions
    initial.PassesKnown reunions ∧ t.IsNormalUnion [.number, .string, .undefined] ∧
      t.UnitesTo [⟨17⟩, ⟨16⟩, .never, ⟨16⟩] (t.union [⟨17⟩, ⟨16⟩, .never, ⟨16⟩]) ∧
      t.leftOf [⟨17⟩, ⟨16⟩, .never, ⟨16⟩] = [⟨17⟩, .number, .string, .undefined] := by
  intro t
  have hknown : initial.PassesKnown reunions := by decide
  obtain ⟨hnormal, hunites⟩ := unions_normal hknown
  exact ⟨hknown, hnormal ⟨16⟩ ⟨1⟩ (by decide), hunites _ (by decide), by decide⟩

end Types

end Misfit
