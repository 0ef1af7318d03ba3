import Misfit.Proofs.Compare.Answers
import Misfit.Proofs.Compare.Place
import Misfit.Proofs.Types.Recursion

/-!
# Comparisons end

A comparison asks for comparisons, and those for others, and nothing in the table of types keeps them from
coming back to where they were. What ends them is the guard: every pair that is entered makes the path
longer, and a path that is as long as it may be takes no pair. A comparison is put here as the calls that
it makes, one inside the other and one after the other, with no bound but the answers of the guard. It
ends, with the result that is computed along a bound.
-/
namespace Misfit

namespace Comparison

variable (c : Comparison)

/-- The dialogue is what a round on the pair amounts to, with any comparer. -/
def IsRound (target source : TypeId) (trail : Trail) (round : Dialogue (Option Conflict)) : Prop :=
  ∀ (ω : Type) (inner : Comparer ω) (w : ω),
    c.compareEntered inner target source trail w = round.run inner w

/-- A dialogue comes to its end when every question in it is a comparison that does, and at most so many
pairs are entered one inside the other. A pair that the guard turns away counts as fitting; one that it
lets in is on the path while its round is held. -/
inductive Ends : Nat → Dialogue (Option Conflict) → Walk → Option Conflict → Walk → Prop
  | done {n : Nat} {result : Option Conflict} {w : Walk} : Ends n (.done result) w result w
  | refused {n : Nat} {target source : TypeId} {trail : Trail}
      {next : Option Conflict → Dialogue (Option Conflict)} {result : Option Conflict} {w w' : Walk}
      (h : (w.enter (target, source)).1 ≠ .entered)
      (hnext : Ends n (next none) (w.enter (target, source)).2 result w') :
      Ends n (.ask target source trail next) w result w'
  | entered {n : Nat} {target source : TypeId} {trail : Trail}
      {next : Option Conflict → Dialogue (Option Conflict)} {round : Dialogue (Option Conflict)}
      {answer result : Option Conflict} {w v w' : Walk}
      (h : (w.enter (target, source)).1 = .entered) (hround : c.IsRound target source trail round)
      (hinner : Ends n round (w.enter (target, source)).2 answer v)
      (hnext : Ends (n + 1) (next answer) (v.leave (target, source)) result w') :
      Ends (n + 1) (.ask target source trail next) w result w'

/-- Two walks at the same place. -/
structure SamePlace (w w' : Walk) : Prop where
  path : w'.path = w.path
  depth : w'.depth = w.depth
  limits : w'.limits = w.limits

instance : IsPreorder Walk SamePlace where
  refl _ := ⟨rfl, rfl, rfl⟩
  trans _ _ _ h h' := ⟨h'.path.trans h.path, h'.depth.trans h.depth, h'.limits.trans h.limits⟩

variable {c} {target source : TypeId} {trail : Trail} {w w' : Walk}

/-- A comparison leaves the path as it was. -/
theorem moves_compareWithin (n : Nat) : Moves (c.compareWithin n) SamePlace := by
  intro target source trail w
  have hlater := moves_compareLogged (c := c) n target source trail ⟨w, []⟩
  obtain ⟨-, hwalk⟩ := simulates_compareLogged (c := c) n target source trail ⟨w, []⟩ w rfl
  rw [← hwalk]
  exact ⟨hlater.path, hlater.depth, hlater.limits⟩

theorem compare_of_refused (h : (w.enter (target, source)).1 ≠ .entered) :
    c.compare target source trail w = (none, (w.enter (target, source)).2) := by
  unfold compare
  cases w.limits.depth - w.depth with
  | zero => rw [compareWithin, Guard.enter_snd_of_ne h]
  | succ n =>
    rw [compareWithin]
    split
    · rename_i hv
      exact (h (congrArg Prod.fst hv)).elim
    · rename_i hv
      rw [hv]

/-- A path that takes a pair may still grow. -/
theorem depth_lt_of_entered (h : (w.enter (target, source)).1 = .entered) :
    w.depth < w.limits.depth := by
  apply Nat.lt_of_not_le
  intro hfull
  rcases Guard.enter_of_limits_depth_le hfull (target, source) with hd | hd
  · simp [h] at hd
  · simp [h] at hd

/-- The depth that is left makes no difference to a pair that is entered: its round is held with
comparisons. -/
theorem compare_of_entered (h : (w.enter (target, source)).1 = .entered) :
    c.compare target source trail w =
      ((c.compareEntered c.compare target source trail (w.enter (target, source)).2).1,
        (c.compareEntered c.compare target source trail
          (w.enter (target, source)).2).2.leave (target, source)) := by
  have hlt := depth_lt_of_entered h
  have hdepth : (w.enter (target, source)).2.depth = w.depth + 1 := Guard.depth_enter h
  have hlimits : (w.enter (target, source)).2.limits = w.limits := Guard.limits_enter _ _
  obtain ⟨n, hn⟩ : ∃ n, w.limits.depth - w.depth = n + 1 := ⟨_, (Nat.succ_pred (by omega)).symm⟩
  have hround : c.compareEntered c.compare target source trail (w.enter (target, source)).2 =
      c.compareEntered (c.compareWithin n) target source trail (w.enter (target, source)).2 := by
    apply compareEntered_congr (moves_compareWithin n)
    intro t s tr v hv
    have hleft : v.limits.depth - v.depth = n := by
      rw [hv.limits, hv.depth, hlimits, hdepth]
      omega
    rw [compare, hleft]
  have hentered : w.enter (target, source) = (.entered, (w.enter (target, source)).2) :=
    Prod.ext h rfl
  rw [hround, compare, hn, compareWithin, hentered]

/-- A dialogue that comes to its end comes to what it comes to with comparisons. By induction on the
calls. -/
theorem Ends.run_eq {n : Nat} {d : Dialogue (Option Conflict)} {result : Option Conflict}
    (h : c.Ends n d w result w') : d.run c.compare w = (result, w') := by
  induction h with
  | done => rfl
  | refused h _ ih =>
    rw [Dialogue.run, compare_of_refused h]
    exact ih
  | entered h hround _ _ ihinner ihnext =>
    rw [Dialogue.run, compare_of_entered h, hround, ihinner]
    exact ihnext

/-- Where at most so many pairs more can be entered, every dialogue comes to its end. By induction on their
number, and for each number on the dialogue. -/
theorem ends_run (n : Nat) (d : Dialogue (Option Conflict)) (w : Walk)
    (hn : w.limits.depth ≤ n + w.depth) :
    c.Ends n d w (d.run c.compare w).1 (d.run c.compare w).2 := by
  induction n using Nat.strongRecOn generalizing d w with
  | ind n ihn =>
  induction d generalizing w with
  | done result => exact .done
  | ask target source trail next ih =>
    have hmove := moves_compareWithin (c := c) (w.limits.depth - w.depth) target source trail w
    have hnext := ih (c.compare target source trail w).1 (c.compare target source trail w).2 (by
      rw [compare, hmove.limits, hmove.depth]
      exact hn)
    by_cases h : (w.enter (target, source)).1 = .entered
    · have hlt := depth_lt_of_entered h
      obtain ⟨m, rfl⟩ : ∃ m, n = m + 1 := ⟨n - 1, by omega⟩
      obtain ⟨round, hround⟩ := exists_dialogue_compareEntered (c := c) target source trail
      have hinner := ihn m (Nat.lt_succ_self m) round (w.enter (target, source)).2 (by
        rw [Guard.limits_enter, Guard.depth_enter h]
        omega)
      rw [compare_of_entered h, hround] at hnext
      rw [Dialogue.run, compare_of_entered h, hround]
      exact .entered h hround hinner hnext
    · rw [compare_of_refused h] at hnext
      rw [Dialogue.run, compare_of_refused h]
      exact .refused h hnext

/-- A comparison comes to its end with what it is computed to come to, and with nothing else. -/
theorem ends_ask_iff {n : Nat} {result : Option Conflict} (hn : w.limits.depth ≤ n + w.depth) :
    c.Ends n (.ask target source trail .done) w result w' ↔
      c.compare target source trail w = (result, w') := by
  constructor
  · exact Ends.run_eq
  · intro h
    have hends := ends_run (c := c) n (.ask target source trail .done) w hn
    simp only [Dialogue.run, h] at hends
    exact hends

/-- A conflict is less layers below its trail than there may be pairs on the path. -/
theorem length_lt_of_compare {conflict : Conflict}
    (h : (c.compare target source trail w).1 = some conflict) :
    trail.length ≤ conflict.trail.length ∧
      conflict.trail.length < trail.length + (w.limits.depth - w.depth) := by
  obtain ⟨layers, -, hdepth, hlayers, -⟩ := places_compareWithin _ target source trail w conflict h
  have hlength := congrArg List.length hlayers
  rw [List.length_append, Trail.length_layers, Trail.length_layers] at hlength
  omega

/-- Recursive types come to an end. Where every cycle of types and their parts goes through a type that has
a name, printing a type ends, and so does asking whether it is simple. A comparison ends as well, with at
most a hundred pairs entered one inside the other, and a conflict is at most ninety-nine layers below the
trail of the comparison. -/
theorem ends_of_namesCycles {p : Program} (h : p.types.NamesCycles) :
    p.types.printing.Computes p.types.render ∧ p.types.judging.Computes p.types.isSimple ∧
      ∀ (mode : Mode) (target source : TypeId) (trail : Trail) (attempts : Nat),
        let c : Comparison := ⟨p, mode⟩
        let w : Walk := { Walk.start with attempts }
        (∀ result w', c.Ends 100 (.ask target source trail .done) w result w' ↔
          c.compare target source trail w = (result, w')) ∧
        ∀ conflict, (c.compare target source trail w).1 = some conflict →
          trail.length ≤ conflict.trail.length ∧ conflict.trail.length ≤ trail.length + 99 := by
  refine ⟨h.computes_render, h.computes_isSimple, ?_⟩
  intro mode target source trail attempts c w
  have hdepth : w.depth = 0 := rfl
  have hlimits : w.limits.depth = 100 := rfl
  have hbound : w.limits.depth ≤ 100 + w.depth := by omega
  constructor
  · intro result w'
    exact ends_ask_iff hbound
  · intro conflict hconflict
    obtain ⟨hle, hlt⟩ := length_lt_of_compare hconflict
    omega

/-- Trees whose children are an array of trees or undefined, under two names and with different labels,
and a type without a name around each of them. -/
def treeTypes : Types :=
  let tree (t : Types) (name : String) (label : TypeId) : Types × TypeId :=
    let (t, id) := t.declareObject name
    let (t, list) := t.array id
    let (t, children) := t.union [list, TypeId.undefined]
    let label : Member := { name := "label", type := label }
    let t := (t.defineObject id
      { name := some name, properties := [{ name := "children", type := children }, label] }).getD t
    t.object { properties := [{ name := "tree", type := id }] }
  (tree (tree Types.initial "Left" TypeId.string).1 "Right" TypeId.number).1

/-- Every cycle among the trees goes through one of the names, and comparing the types around them ends
in a conflict one layer down. -/
theorem ends_treeTypes :
    let p : Program := { types := treeTypes }
    p.types.Closed ∧ p.types.NamesCycles ∧ Relation.TransGen p.types.HasPart ⟨15⟩ ⟨15⟩ ∧
      p.types.printing.Computes p.types.render ∧
      ∃ conflict w', (⟨p, {}⟩ : Comparison).Ends 100 (.ask ⟨18⟩ ⟨22⟩ Trail.empty .done) Walk.start
        (some conflict) w' ∧ conflict.trail.length = 1 := by
  intro p
  have hcycles : p.types.NamesCycles := Types.namesCycles_of_parts_lt (by decide)
  obtain ⟨hprinting, -, hends⟩ := ends_of_namesCycles (p := p) hcycles
  have hcycle : Relation.TransGen p.types.HasPart ⟨15⟩ ⟨15⟩ := by
    have hchildren : p.types.HasPart ⟨15⟩ ⟨17⟩ := by decide
    have hlist : p.types.HasPart ⟨17⟩ ⟨16⟩ := by decide
    have hself : p.types.HasPart ⟨16⟩ ⟨15⟩ := by decide
    exact ((Relation.TransGen.single hchildren).tail hlist).tail hself
  obtain ⟨hcomparison, -⟩ := hends {} ⟨18⟩ ⟨22⟩ Trail.empty 0
  have hlength : ((⟨p, {}⟩ : Comparison).compare ⟨18⟩ ⟨22⟩ Trail.empty Walk.start).1.map
      (·.trail.length) = some 1 := by decide
  obtain ⟨conflict, hconflict, hone⟩ := Option.map_eq_some_iff.mp hlength
  have hend := (hcomparison (some conflict) _).mpr (Prod.ext hconflict rfl)
  exact ⟨by decide, hcycles, hcycle, hprinting, conflict, _, hend, hone⟩

end Comparison

end Misfit
