import Misfit.Proofs.Compare.Compatible

/-!
# What a comparison accepts in a limited depth

A pair at the end of a path that is as long as it may be counts as fitting, and how long the path is does
not depend on the order in which pairs are compared. How many attempts have been made does. So as long as
the attempts last, what a comparison accepts is given by the rules alone: by recursion on the depth that
is left, with the pairs on the path taken for granted.
-/
namespace Misfit

namespace LoggedWalk

/-- No pair was turned away because there had been too many attempts. -/
def WithinAttempts (w : LoggedWalk) : Prop := Entry.attemptsExceeded ∉ w.answers

instance (w : LoggedWalk) : Decidable w.WithinAttempts := inferInstanceAs (Decidable (_ ∉ _))

theorem WithinAttempts.of_later {w w' : LoggedWalk} (h : w'.WithinAttempts) (hw : Later w w') :
    w.WithinAttempts :=
  fun ha => h (hw.answers.subset ha)

/-- Taking a pair off the path turns none away. -/
theorem withinAttempts_leave {w : LoggedWalk} {pair : TypeId × TypeId} :
    (w.leave pair).WithinAttempts ↔ w.WithinAttempts := Iff.rfl

/-- While the path may still grow and the attempts last, the only pairs turned away are those on the
path. -/
theorem onPath_of_refused_of_lt {w : LoggedWalk} {target source : TypeId}
    (hd : w.walk.depth < w.walk.limits.depth) (h : (w.enter (target, source)).1 ≠ .entered)
    (ha : (w.enter (target, source)).2.WithinAttempts) : w.OnPath target source := by
  have hanswer : (w.enter (target, source)).1 ∈ (w.enter (target, source)).2.answers :=
    List.mem_cons_self
  cases he : (w.enter (target, source)).1 with
  | entered => exact (h he).elim
  | cycle => exact Guard.mem_path_of_cycle he
  | depthExceeded =>
    have hfull := Guard.limits_depth_le_of_depthExceeded he
    omega
  | attemptsExceeded => exact (ha (he ▸ hanswer)).elim

end LoggedWalk

namespace Comparison

variable (c : Comparison)

/-- The pairs of `P` and one more. -/
def withPair (P : TypeId → TypeId → Prop) (target source t s : TypeId) : Prop :=
  (t = target ∧ s = source) ∨ P t s

/-- The source fits the target where the pairs of `P` are on the path and `n` more may be entered. -/
def FitsWithin : Nat → (TypeId → TypeId → Prop) → TypeId → TypeId → Prop
  | 0, _, _, _ => True
  | n + 1, P, target, source => P target source ∨
      c.Round false (FitsWithin n (withPair P target source)) (FitsWithin n (withPair P target source))
        target source

/-- A comparison in a walk of its own does not run out of attempts. It may reach the end of the path. -/
def StaysWithinAttempts (target source : TypeId) (trail : Trail) : Prop :=
  (c.compareLogged Limits.shapeComparison.depth target source trail .start).2.WithinAttempts

instance (target source : TypeId) (trail : Trail) :
    Decidable (c.StaysWithinAttempts target source trail) :=
  inferInstanceAs (Decidable (LoggedWalk.WithinAttempts _))

variable {c} {n : Nat} {target source : TypeId} {trail : Trail} {w : LoggedWalk}

theorem onPath_enter_eq (h : (w.enter (target, source)).1 = .entered) :
    (w.enter (target, source)).2.OnPath = withPair w.OnPath target source := by
  funext t s
  exact propext (LoggedWalk.onPath_enter h t s)

/-- What fits is accepted, whether or not the attempts last: a pair that is turned away is accepted. -/
theorem compareLogged_of_fitsWithin (h : c.FitsWithin n w.OnPath target source) :
    (c.compareLogged n target source trail w).1 = none := by
  induction n generalizing target source trail w with
  | zero => rfl
  | succ n ih =>
    by_cases hw : (w.enter (target, source)).1 = .entered
    · rw [compareLogged_of_entered hw]
      have hround := h.resolve_left (LoggedWalk.not_onPath_of_entered hw)
      rw [← onPath_enter_eq hw] at hround
      have hgrants : ∀ trail' : Trail, Grants (c.compareLogged n) LoggedWalk.Later trail'
          (w.enter (target, source)).2 (c.FitsWithin n (w.enter (target, source)).2.OnPath) := by
        intro trail' t s v hv hfits
        rw [← hv.onPath] at hfits
        exact ih hfits
      exact compareEntered_of_round (moves_compareLogged n) (hgrants trail)
        (fun trail' _ => hgrants trail') (hround.widen (c.widens trail))
    · rw [compareLogged_of_refused hw]

/-- What is accepted while the attempts last fits. By induction on the depth that is left. -/
theorem fitsWithin_of_compareLogged (hp : c.NeverWidens trail)
    (hd : n + w.walk.depth ≤ w.walk.limits.depth)
    (ha : (c.compareLogged n target source trail w).2.WithinAttempts)
    (h : (c.compareLogged n target source trail w).1 = none) :
    c.FitsWithin n w.OnPath target source := by
  induction n generalizing target source trail w with
  | zero => trivial
  | succ n ih =>
    by_cases hw : (w.enter (target, source)).1 = .entered
    · rw [compareLogged_of_entered hw] at ha h
      have hdepth := LoggedWalk.depth_enter hw
      have hlimits : (w.enter (target, source)).2.walk.limits = w.walk.limits := Guard.limits_enter _ _
      have hyields : ∀ trail' : Trail, c.NeverWidens trail' →
          Yields (c.compareLogged n) LoggedWalk.Later trail' (w.enter (target, source)).2
            (c.compareEntered (c.compareLogged n) target source trail
              (w.enter (target, source)).2).2
            (c.FitsWithin n (w.enter (target, source)).2.OnPath) := by
        intro trail' hp' t s v hv hv' hnone
        rw [← hv.onPath]
        refine ih hp' ?_
          (LoggedWalk.WithinAttempts.of_later (LoggedWalk.withinAttempts_leave.mp ha) hv') hnone
        rw [hv.limits, hv.depth, hlimits, hdepth]
        omega
      have hround := round_of_compareEntered (moves_compareLogged n) (hyields trail hp)
        (fun trail' hl => hyields trail' (hp.deeper hl)) (Prod.ext h rfl)
      rw [hp.widens_eq_false, onPath_enter_eq hw] at hround
      exact Or.inr hround
    · rw [compareLogged_of_refused hw] at ha
      exact Or.inl (LoggedWalk.onPath_of_refused_of_lt (by omega) hw ha)

/-- A comparison that widens no literals and does not run out of attempts accepts what fits within the
depth of its path. -/
theorem conflict?_eq_none_iff_fitsWithin (hp : c.NeverWidens trail)
    (ha : c.StaysWithinAttempts target source trail) :
    c.conflict? target source trail = none ↔
      c.FitsWithin Limits.shapeComparison.depth (fun _ _ => False) target source := by
  have hempty : LoggedWalk.start.OnPath = fun _ _ => False := by
    funext t s
    exact eq_false (LoggedWalk.not_onPath_start t s)
  rw [conflict?_eq_compareLogged, ← hempty]
  exact ⟨fitsWithin_of_compareLogged hp (Nat.le_refl _) ha, compareLogged_of_fitsWithin⟩

end Comparison

end Misfit
