import Misfit.Proofs.Types.Parts

/-!
# Recursion into the parts of types

The text of a type is made from the texts of its parts, and a union is simple if its members are. Where
no type leads back to itself through types without a name, such a recursion ends by itself: every call is
for a part, a type that has a name is printed without any, and a call for a type under way would close
a cycle. So the bounds that the text and the simplicity of a type are computed with are never met there.
-/
namespace Misfit

namespace Types

/-- A recursive function of types: the types that it asks for on the way to its value at a type, all of
them parts, and the value that it has there, given those at the types asked for. -/
structure Recursion (t : Types) (α : Type) where
  asks : TypeId → TypeId → Prop
  step : (TypeId → α) → TypeId → α
  hasPart_of_asks {i j : TypeId} : asks i j → t.HasPart i j
  step_congr {f g : TypeId → α} {i : TypeId} : (∀ j, asks i j → f j = g j) → step f i = step g i

namespace Recursion

variable {t : Types} {α : Type} (r : t.Recursion α)

/-- The recursion ends at every type, and `f` is what it computes. -/
structure Computes (f : TypeId → α) : Prop where
  wellFounded : WellFounded fun j i => r.asks i j
  eq_step : ∀ i, f i = r.step f i

/-- No type is asked for on the way to its own value. -/
def NeverReturns : Prop := ∀ i, ¬Relation.TransGen r.asks i i

/-- A path of the recursion from a type on it to the types asked for next. -/
structure Leads (path : List TypeId) (i : TypeId) : Prop where
  isPath : t.IsPath path
  reaches : ∀ k ∈ path, Relation.TransGen r.asks k i

variable {r} {i j : TypeId} {path : List TypeId}

theorem knows_of_asks (h : r.asks i j) : t.Knows i := by
  by_contra hi
  have hpart := r.hasPart_of_asks h
  simp [HasPart, parts_eq_nil_of_not_knows hi] at hpart

theorem leads_nil (i : TypeId) : r.Leads [] i := ⟨isPath_nil, by simp⟩

theorem Leads.notMem (hr : r.NeverReturns) (h : r.Leads path i) : i ∉ path :=
  fun hi => hr i (h.reaches i hi)

/-- The path goes on with every type that is asked for. -/
theorem Leads.cons (hr : r.NeverReturns) (h : r.Leads path i) (hj : r.asks i j) :
    r.Leads (i :: path) j where
  isPath := h.isPath.cons (knows_of_asks hj) (h.notMem hr)
  reaches := by
    refine List.forall_mem_cons.mpr ⟨.single hj, fun k hk => ?_⟩
    exact (h.reaches k hk).tail hj

/-- By induction on the number of types that are not on the path. -/
theorem Leads.acc (hr : r.NeverReturns) {n : Nat} (h : r.Leads path i) (hn : t.size ≤ path.length + n) :
    Acc (fun j i => r.asks i j) i := by
  induction n generalizing path i with
  | zero =>
    refine .intro i fun j hj => ?_
    have hlength := (h.cons hr hj).isPath.length_le
    rw [List.length_cons] at hlength
    omega
  | succ n ih =>
    refine .intro i fun j hj => ?_
    apply ih (h.cons hr hj)
    rw [List.length_cons]
    omega

theorem wellFounded_asks (hr : r.NeverReturns) : WellFounded fun j i => r.asks i j :=
  ⟨fun i => (leads_nil i).acc hr (n := t.size) (by simp)⟩

/-- A bounded form of the recursion: it goes along a path, and takes a step at every type that is not on
it, while it may. -/
def BoundedBy (r : t.Recursion α) (within : Nat → List TypeId → TypeId → α) : Prop :=
  ∀ depth path i, i ∉ path → within (depth + 1) path i = r.step (within depth (i :: path)) i

/-- Where the recursion never returns, the bound makes no difference to its value as long as it is wide
enough for the paths through the table. By induction on the calls. -/
theorem Leads.within_eq (hr : r.NeverReturns) {within : Nat → List TypeId → TypeId → α}
    (hw : r.BoundedBy within) {path' : List TypeId} {m n : Nat} (h : r.Leads path i)
    (h' : r.Leads path' i) (hm : t.size < m + path.length) (hn : t.size < n + path'.length) :
    within m path i = within n path' i := by
  induction i using (wellFounded_asks hr).induction generalizing path path' m n with
  | h i ih =>
    have hlength := h.isPath.length_le
    have hlength' := h'.isPath.length_le
    obtain ⟨m, rfl⟩ : ∃ k, m = k + 1 := ⟨m - 1, by omega⟩
    obtain ⟨n, rfl⟩ : ∃ k, n = k + 1 := ⟨n - 1, by omega⟩
    rw [hw m path i (h.notMem hr), hw n path' i (h'.notMem hr)]
    refine r.step_congr fun j hj => ?_
    apply ih j hj (h.cons hr hj) (h'.cons hr hj)
    · rw [List.length_cons]
      omega
    · rw [List.length_cons]
      omega

/-- A bounded form that is wide enough for the table is what the recursion computes. -/
theorem computes_within (hr : r.NeverReturns) {within : Nat → List TypeId → TypeId → α}
    (hw : r.BoundedBy within) : r.Computes (within (t.size + 1) []) where
  wellFounded := wellFounded_asks hr
  eq_step i := by
    rw [hw t.size [] i List.not_mem_nil]
    refine r.step_congr fun j hj => ?_
    exact ((leads_nil i).cons hr hj).within_eq hr hw (leads_nil j) (by simp) (by simp)

end Recursion

variable (t : Types)

/-- The type is an object type that has a name. -/
def isNamed (i : TypeId) : Bool := ((t.object? i).bind ObjectShape.name).isSome

/-- Every cycle of types and their parts goes through a type that has a name. -/
def NamesCycles : Prop :=
  ∀ i, ¬Relation.TransGen (fun a b => t.HasPart a b ∧ t.isNamed a = false) i i

/-- Whether a type is simple, given which of its members are. -/
def judgeWith (judge : TypeId → Bool) (i : TypeId) : Bool :=
  match t.get? i with
  | some (.union list) => (t.listAt list).all judge
  | _ => !t.isOneOf i Category.notSimple

variable {t}

/-- A type with a name is printed as the name, whatever its parts. -/
theorem renderWith_of_isNamed {i : TypeId} (h : t.isNamed i = true) (f g : TypeId → String) :
    t.renderWith f i = t.renderWith g i := by
  obtain ⟨name, hname⟩ := Option.isSome_iff_exists.mp h
  obtain ⟨shape, hobject, hshape⟩ := Option.bind_eq_some_iff.mp hname
  unfold object? at hobject
  split at hobject
  · rename_i id hget
    obtain rfl := Option.some.inj hobject
    simp only [renderWith, hget, ObjectShape.render, hshape]
  · simp at hobject

theorem parts_of_isUnion {i : TypeId} (h : t.isUnion i = true) : t.parts i = t.members i := by
  obtain ⟨list, hget, hmembers⟩ := exists_list_of_isUnion h
  simp only [parts, hget, hmembers]

theorem judgeWith_of_isUnion {i : TypeId} (h : t.isUnion i = true) (judge : TypeId → Bool) :
    t.judgeWith judge i = (t.members i).all judge := by
  obtain ⟨list, hget, hmembers⟩ := exists_list_of_isUnion h
  simp only [judgeWith, hget, hmembers]

theorem judgeWith_of_not_isUnion {i : TypeId} (h : t.isUnion i = false) (judge : TypeId → Bool) :
    t.judgeWith judge i = !t.isOneOf i Category.notSimple := by
  unfold judgeWith
  split
  · rename_i list hget
    simp [isUnion, hget] at h
  · rfl

variable (t)

/-- Printing asks for the texts of all parts, unless the type has a name. -/
def printing : t.Recursion String where
  asks i j := t.HasPart i j ∧ t.isNamed i = false
  step := t.renderWith
  hasPart_of_asks h := h.1
  step_congr {f g i} h := by
    cases hi : t.isNamed i with
    | true => exact renderWith_of_isNamed hi f g
    | false => exact renderWith_congr fun j hj => h j ⟨hj, hi⟩

/-- Whether a union is simple is asked of its members. -/
def judging : t.Recursion Bool where
  asks i j := t.isUnion i = true ∧ j ∈ t.members i
  step := t.judgeWith
  hasPart_of_asks h := by
    rw [HasPart, parts_of_isUnion h.1]
    exact h.2
  step_congr {f g i} h := by
    cases hi : t.isUnion i with
    | false => rw [judgeWith_of_not_isUnion hi, judgeWith_of_not_isUnion hi]
    | true =>
      rw [judgeWith_of_isUnion hi, judgeWith_of_isUnion hi, Bool.eq_iff_iff, List.all_eq_true,
        List.all_eq_true]
      exact forall₂_congr fun j hj => by rw [h j ⟨hi, hj⟩]

variable {t}

theorem boundedBy_renderWithin : t.printing.BoundedBy t.renderWithin := by
  intro depth path i hi
  rw [renderWithin, if_neg hi]
  rfl

theorem boundedBy_isSimpleWithin : t.judging.BoundedBy t.isSimpleWithin := by
  intro depth path i hi
  simp only [isSimpleWithin, hi, decide_false, Bool.false_or]
  rfl

theorem NamesCycles.printing (h : t.NamesCycles) : t.printing.NeverReturns := h

/-- A union has no name. -/
theorem isNamed_of_isUnion {i : TypeId} (h : t.isUnion i = true) : t.isNamed i = false := by
  obtain ⟨list, hget, -⟩ := exists_list_of_isUnion h
  simp [isNamed, object?, hget]

theorem NamesCycles.judging (h : t.NamesCycles) : t.judging.NeverReturns := by
  intro i hi
  have hunnamed : ∀ a b, t.judging.asks a b → t.HasPart a b ∧ t.isNamed a = false :=
    fun a b hab => ⟨t.judging.hasPart_of_asks hab, isNamed_of_isUnion hab.1⟩
  exact h i (Relation.TransGen.mono hunnamed i i hi)

/-- Printing a type ends, and comes to its text. -/
theorem NamesCycles.computes_render (h : t.NamesCycles) : t.printing.Computes t.render :=
  Recursion.computes_within h.printing boundedBy_renderWithin

/-- Asking whether a type is simple ends, and comes to whether it is. -/
theorem NamesCycles.computes_isSimple (h : t.NamesCycles) : t.judging.Computes t.isSimple :=
  Recursion.computes_within h.judging boundedBy_isSimpleWithin

/-- A table in which every type without a name has parts with smaller ids only names its cycles. -/
theorem namesCycles_of_parts_lt
    (h : ∀ n < t.size, t.isNamed ⟨n⟩ = false → ∀ j ∈ t.parts ⟨n⟩, j.raw < n) : t.NamesCycles := by
  intro i hi
  have hlt : ∀ {a b : TypeId}, Relation.TransGen
      (fun a b => t.HasPart a b ∧ t.isNamed a = false) a b → b.raw < a.raw := by
    intro a b hab
    induction hab with
    | @single b hstep => exact h a.raw (Recursion.knows_of_asks (r := t.printing) hstep) hstep.2 b hstep.1
    | @tail b d _ hstep ih =>
      have hd := h b.raw (Recursion.knows_of_asks (r := t.printing) hstep) hstep.2 d hstep.1
      omega
  exact Nat.lt_irrefl _ (hlt hi)

end Types

end Misfit
