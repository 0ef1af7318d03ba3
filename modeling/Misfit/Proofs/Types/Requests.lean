import Misfit.Proofs.Types.NormalForm
import Misfit.Proofs.Types.Shapes

/-!
# Requests that are in order

Whoever has a table can enter any data in it just as it is, data that refers to what is not there
included. As long as all ids are known that are passed in, this comes to no more than an operation does,
or to nothing at all. So a table that has only been given known ids is built by its operations, and all
its unions are in normal form.
-/
namespace Misfit

namespace Types

variable (t : Types)

/-- The table after some requests, one after the other. -/
def serveAll (rs : List Request) : Types := rs.foldl serve t

/-- Every request is as asked, in the table in which it is made. -/
def EachIs (asked : Types → Request → Prop) : Types → List Request → Prop
  | _, [] => True
  | t, r :: rs => asked t r ∧ EachIs asked (t.serve r) rs

instance decidableEachIs (asked : Types → Request → Prop) [∀ t r, Decidable (asked t r)] :
    ∀ t rs, Decidable (EachIs asked t rs)
  | _, [] => isTrue trivial
  | t, r :: rs =>
    have := decidableEachIs asked (t.serve r) rs
    inferInstanceAs (Decidable (asked t r ∧ EachIs asked (t.serve r) rs))

/-- The request is given ids that are known. The id of a list or a shape is handed out as a part of the
type that it belongs to, so it is known if there is such a type. -/
def IsGivenKnown : Request → Prop
  | .perform op => ∀ i ∈ op.ids, t.Knows i
  | .intern (.array element) => t.Knows element
  | .intern (.union list) => .union list ∈ t.data.toList
  | .intern (.object shape) => .object shape ∈ t.data.toList
  | .intern (.function shape) => .function shape ∈ t.data.toList
  | .intern _ => True

instance decidableIsGivenKnown : ∀ r, Decidable (t.IsGivenKnown r)
  | .perform op => inferInstanceAs (Decidable (∀ i ∈ op.ids, t.Knows i))
  | .intern (.array element) => inferInstanceAs (Decidable (t.Knows element))
  | .intern (.union list) => inferInstanceAs (Decidable (.union list ∈ t.data.toList))
  | .intern (.object shape) => inferInstanceAs (Decidable (.object shape ∈ t.data.toList))
  | .intern (.function shape) => inferInstanceAs (Decidable (.function shape ∈ t.data.toList))
  | .intern (.intrinsic _) => isTrue trivial
  | .intern (.literal _) => isTrue trivial
  | .intern (.enumMember _ _ _) => isTrue trivial

/-- The table has been built by its operations, and its unions are in normal form. -/
structure InOrder : Prop where
  built : t.Built
  normal : t.UnionsNormal

variable {t} {d : TypeData} {r : Request} {asked : Types → Request → Prop}

theorem eachIs_append {rs more : List Request} :
    EachIs asked t (rs ++ more) ↔ EachIs asked t rs ∧ EachIs asked (t.serveAll rs) more := by
  induction rs generalizing t with
  | nil => simp [EachIs, serveAll]
  | cons r rs ih => simp only [List.cons_append, EachIs, ih, and_assoc, serveAll, List.foldl_cons]

/-- What every request that is as asked keeps, all of them keep. By induction on the requests. -/
theorem EachIs.keeps {kept : Types → Prop} {rs : List Request} (hrs : EachIs asked t rs)
    (hserve : ∀ {t r}, kept t → asked t r → kept (t.serve r)) (h : kept t) : kept (t.serveAll rs) := by
  induction rs generalizing t with
  | nil => exact h
  | cons r rs ih => exact ih hrs.2 (hserve h hrs.1)

theorem extends_serve (t : Types) (r : Request) : t.Extends (t.serve r) := by
  cases r with
  | perform op => exact t.extends_perform op
  | intern d => exact t.extends_intern d

/-- By induction on the requests. -/
theorem extends_serveAll (t : Types) (rs : List Request) : t.Extends (t.serveAll rs) := by
  induction rs generalizing t with
  | nil => exact .refl t
  | cons r rs ih => exact (t.extends_serve r).trans (ih _)

theorem InStep.serve (h : t.InStep) (r : Request) : (t.serve r).InStep := by
  cases r with
  | perform op => exact h.perform op
  | intern d => exact h.intern d

/-- Whatever is asked of a table, its records keep in step. By induction on the requests. -/
theorem InStep.serveAll (h : t.InStep) (rs : List Request) : (t.serveAll rs).InStep := by
  induction rs generalizing t with
  | nil => exact h
  | cons r rs ih => exact ih (h.serve r)

/-- Data that is there already is not entered again. -/
theorem InStep.intern_of_mem (h : t.InStep) (hd : d ∈ t.data.toList) : (t.intern d).1 = t := by
  obtain ⟨n, hn⟩ := List.mem_iff_getElem?.mp hd
  have hi : t.get? ⟨n⟩ = some d := by simpa [Types.get?] using hn
  rw [h.intern_of_get? hi]

theorem inOrder_initial : initial.InOrder := ⟨.initial, unionsNormal_initial⟩

theorem InOrder.perform (h : t.InOrder) (op : Operation) (hk : ∀ i ∈ op.ids, t.Knows i) :
    (t.perform op).1.InOrder :=
  ⟨h.built.perform op, h.normal.perform h.built hk⟩

/-- What one request keeps. Data without an id and data of arrays is entered by an operation as well; all
other data is there already. -/
theorem InOrder.serve (h : t.InOrder) (hr : t.IsGivenKnown r) : (t.serve r).InOrder := by
  cases r with
  | perform op => exact h.perform op hr
  | intern d =>
    cases d with
    | intrinsic kind => exact h.perform (.intrinsic kind) (by simp [Operation.ids])
    | literal value => exact h.perform (.internLiteral value) (by simp [Operation.ids])
    | enumMember enum member value =>
      exact h.perform (.enumMember enum member value) (by simp [Operation.ids])
    | array element => exact h.perform (.array element) (List.forall_mem_singleton.mpr hr)
    | union | object | function =>
      have hsame := h.built.inStep.intern_of_mem hr
      rw [Types.serve, hsame]
      exact h

theorem InOrder.serveAll (h : t.InOrder) {rs : List Request} (hrs : EachIs IsGivenKnown t rs) :
    (t.serveAll rs).InOrder :=
  hrs.keeps InOrder.serve h

end Types

end Misfit
