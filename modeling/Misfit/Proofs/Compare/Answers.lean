import Misfit.Proofs.Compare.Records

/-!
# The answers of the guard

Whether a comparison ran into a limit cannot be told from its result, because a pair beyond a limit
counts as fitting. A logged walk keeps every answer of the guard on record. Comparisons on a logged
walk come to the same results as on the walk itself, and a comparison is known to have stayed within
its limits if no answer on record tells of one.
-/
namespace Misfit

/-- A walk with all answers of its guard, the latest first. -/
structure LoggedWalk where
  walk : Walk
  answers : List Entry := []

namespace LoggedWalk

/-- A walk before its first comparison. -/
def start : LoggedWalk := { walk := Walk.start }

/-- Tries to put a pair on the path, and records the answer. -/
def enter (w : LoggedWalk) (pair : TypeId × TypeId) : Entry × LoggedWalk :=
  ((w.walk.enter pair).1, ⟨(w.walk.enter pair).2, (w.walk.enter pair).1 :: w.answers⟩)

/-- Counts an attempt that is made beyond the depth allowed, and records the answer. -/
def count (w : LoggedWalk) (pair : TypeId × TypeId) : LoggedWalk :=
  ⟨w.walk.count, (w.walk.enter pair).1 :: w.answers⟩

/-- Takes a pair off the path. -/
def leave (w : LoggedWalk) (pair : TypeId × TypeId) : LoggedWalk :=
  { w with walk := w.walk.leave pair }

/-- The pair is on the path. -/
def OnPath (w : LoggedWalk) (target source : TypeId) : Prop := (target, source) ∈ w.walk.path

/-- No pair was turned away because of a limit. -/
def WithinLimits (w : LoggedWalk) : Prop :=
  Entry.depthExceeded ∉ w.answers ∧ Entry.attemptsExceeded ∉ w.answers

instance (w : LoggedWalk) : Decidable w.WithinLimits := inferInstanceAs (Decidable (_ ∧ _))

@[simp] theorem walk_enter (w : LoggedWalk) (pair : TypeId × TypeId) :
    (w.enter pair).2.walk = (w.walk.enter pair).2 := rfl

@[simp] theorem not_onPath_start (target source : TypeId) : ¬start.OnPath target source :=
  Std.ExtTreeSet.not_mem_empty

/-- A walk at the same place later on: the path is the same, and the log has grown. -/
structure Later (w w' : LoggedWalk) : Prop where
  path : w'.walk.path = w.walk.path
  depth : w'.walk.depth = w.walk.depth
  limits : w'.walk.limits = w.walk.limits
  answers : w.answers <:+ w'.answers

instance : IsPreorder LoggedWalk Later where
  refl _ := ⟨rfl, rfl, rfl, List.suffix_rfl⟩
  trans _ _ _ h h' :=
    ⟨h'.path.trans h.path, h'.depth.trans h.depth, h'.limits.trans h.limits,
      h.answers.trans h'.answers⟩

theorem Later.onPath {w w' : LoggedWalk} (h : Later w w') : w'.OnPath = w.OnPath := by
  funext target source
  rw [OnPath, h.path, OnPath]

theorem WithinLimits.of_later {w w' : LoggedWalk} (h : w'.WithinLimits) (hw : Later w w') :
    w.WithinLimits :=
  ⟨fun hd => h.1 (hw.answers.subset hd), fun ha => h.2 (hw.answers.subset ha)⟩

/-- Taking a pair off the path leaves the log as it is. -/
theorem withinLimits_leave {w : LoggedWalk} {pair : TypeId × TypeId} :
    (w.leave pair).WithinLimits ↔ w.WithinLimits := Iff.rfl

theorem depth_enter {w : LoggedWalk} {pair : TypeId × TypeId} (h : (w.enter pair).1 = .entered) :
    (w.enter pair).2.walk.depth = w.walk.depth + 1 := Guard.depth_enter h

/-- Entering a pair puts just that pair on the path. -/
theorem onPath_enter {w : LoggedWalk} {target source : TypeId}
    (h : (w.enter (target, source)).1 = .entered) (t s : TypeId) :
    (w.enter (target, source)).2.OnPath t s ↔ (t = target ∧ s = source) ∨ w.OnPath t s := by
  have hpath := Guard.path_enter w.walk (target, source)
  have hentered : (w.walk.enter (target, source)).1 = .entered := h
  rw [if_pos hentered] at hpath
  rw [OnPath, walk_enter, hpath, Std.ExtTreeSet.mem_insert, Std.LawfulEqCmp.compare_eq_iff_eq,
    Prod.mk.injEq, eq_comm, eq_comm (b := s)]
  rfl

/-- Within the limits, the only pairs turned away are those on the path. -/
theorem onPath_of_refused {w : LoggedWalk} {target source : TypeId}
    (h : (w.enter (target, source)).1 ≠ .entered) (hl : (w.enter (target, source)).2.WithinLimits) :
    w.OnPath target source := by
  have hanswer : (w.enter (target, source)).1 ∈ (w.enter (target, source)).2.answers :=
    List.mem_cons_self
  cases he : (w.enter (target, source)).1 with
  | entered => exact (h he).elim
  | cycle => exact Guard.mem_path_of_cycle he
  | depthExceeded => exact (hl.1 (he ▸ hanswer)).elim
  | attemptsExceeded => exact (hl.2 (he ▸ hanswer)).elim

/-- A path that is as long as it may be turns away every pair because of a limit. -/
theorem not_withinLimits_count {w : LoggedWalk} (h : w.walk.limits.depth ≤ w.walk.depth)
    (pair : TypeId × TypeId) : ¬(w.count pair).WithinLimits := by
  intro hl
  rcases Guard.enter_of_limits_depth_le h pair with ha | ha
  · exact hl.2 (by simp [count, ha])
  · exact hl.1 (by simp [count, ha])

/-- The first pair is always entered. -/
theorem enter_start (pair : TypeId × TypeId) : (start.enter pair).1 = .entered := by
  have hempty : pair ∉ start.walk.count.path := Std.ExtTreeSet.not_mem_empty
  have hverdict : (start.enter pair).1 = start.walk.count.verdict pair := Guard.enter_fst _ _
  rw [hverdict, Guard.verdict, if_neg (by decide), if_neg (by decide), if_neg hempty]

theorem not_onPath_of_entered {w : LoggedWalk} {target source : TypeId}
    (h : (w.enter (target, source)).1 = .entered) : ¬w.OnPath target source :=
  Guard.not_mem_path_of_entered h

end LoggedWalk

namespace Comparison

variable (c : Comparison)

/-- Compares two types on a logged walk while at most `depth` more pairs can be entered. -/
def compareLogged : Nat → Comparer LoggedWalk
  | 0, target, source, _, w => (none, w.count (target, source))
  | depth + 1, target, source, trail, w =>
    match w.enter (target, source) with
    | (.entered, w) =>
      let (result, w) := c.compareEntered (compareLogged depth) target source trail w
      (result, w.leave (target, source))
    | (_, w) => (none, w)

/-- A comparison in a walk of its own meets no limit of the walk. -/
def StaysWithinLimits (target source : TypeId) (trail : Trail) : Prop :=
  (c.compareLogged Limits.shapeComparison.depth target source trail .start).2.WithinLimits

instance (target source : TypeId) (trail : Trail) :
    Decidable (c.StaysWithinLimits target source trail) :=
  inferInstanceAs (Decidable (LoggedWalk.WithinLimits _))

variable {c} {n : Nat} {target source : TypeId} {trail : Trail} {w : LoggedWalk}

theorem compareLogged_of_entered (h : (w.enter (target, source)).1 = .entered) :
    c.compareLogged (n + 1) target source trail w =
      ((c.compareEntered (c.compareLogged n) target source trail (w.enter (target, source)).2).1,
        (c.compareEntered (c.compareLogged n) target source trail
          (w.enter (target, source)).2).2.leave (target, source)) := by
  rw [compareLogged]
  split
  · rename_i v hv
    rw [hv]
  · rename_i hne hv
    rw [hv] at h
    exact (hne h).elim

/-- A pair that is not entered counts as fitting. -/
theorem compareLogged_of_refused (h : (w.enter (target, source)).1 ≠ .entered) :
    c.compareLogged n target source trail w = (none, (w.enter (target, source)).2) := by
  cases n with
  | zero =>
    have hcount : (w.walk.enter (target, source)).2 = w.walk.count := Guard.enter_snd_of_ne h
    rw [compareLogged, LoggedWalk.count, LoggedWalk.enter, hcount]
  | succ n =>
    rw [compareLogged]
    split
    · rename_i hv
      simp [hv] at h
    · rename_i hv
      rw [hv]

/-- A pair on the path counts as fitting. -/
theorem compareLogged_of_onPath (h : w.OnPath target source) :
    (c.compareLogged n target source trail w).1 = none := by
  rw [compareLogged_of_refused fun he => LoggedWalk.not_onPath_of_entered he h]

variable (c) in
/-- The walk `v` has gone on from `w` to the pair, and the round there accepts it within the limits. -/
structure AcceptedRound (n : Nat) (target source : TypeId) (trail : Trail) (w v : LoggedWalk) :
    Prop where
  onPath : ∀ t s, v.OnPath t s ↔ (t = target ∧ s = source) ∨ w.OnPath t s
  depth : v.walk.limits.depth ≤ n + v.walk.depth
  withinLimits : (c.compareEntered (c.compareLogged n) target source trail v).2.WithinLimits
  accepted : (c.compareEntered (c.compareLogged n) target source trail v).1 = none

/-- What is accepted within the limits is on the path, or a round accepts it. -/
theorem onPath_or_acceptedRound (hd : w.walk.limits.depth ≤ n + w.walk.depth)
    (hl : (c.compareLogged n target source trail w).2.WithinLimits)
    (h : (c.compareLogged n target source trail w).1 = none) :
    w.OnPath target source ∨ ∃ m v, n = m + 1 ∧ c.AcceptedRound m target source trail w v := by
  by_cases hw : (w.enter (target, source)).1 = .entered
  · cases n with
    | zero =>
      have hfull : w.walk.limits.depth ≤ w.walk.depth := by omega
      exact (LoggedWalk.not_withinLimits_count hfull (target, source) hl).elim
    | succ n =>
      rw [compareLogged_of_entered hw] at hl h
      have hdepth := LoggedWalk.depth_enter hw
      have hlimits : (w.enter (target, source)).2.walk.limits = w.walk.limits := Guard.limits_enter _ _
      refine Or.inr ⟨n, _, rfl, LoggedWalk.onPath_enter hw, ?_, LoggedWalk.withinLimits_leave.mp hl, h⟩
      rw [hlimits, hdepth]
      omega
  · rw [compareLogged_of_refused hw] at hl
    exact Or.inl (LoggedWalk.onPath_of_refused hw hl)

/-- The log makes no difference to a comparison. -/
theorem simulates_compareLogged (n : Nat) :
    Simulates (c.compareLogged n) (c.compareWithin n) fun logged w => logged.walk = w := by
  induction n with
  | zero =>
    rintro target source trail w _ rfl
    exact ⟨rfl, rfl⟩
  | succ n ih =>
    rintro target source trail w _ rfl
    by_cases h : (w.enter (target, source)).1 = .entered
    · obtain ⟨hresult, hwalk⟩ := simulates_compareEntered (c := c) ih target source trail
        (w.enter (target, source)).2 _ rfl
      rw [compareLogged_of_entered h, compareWithin]
      have hw : w.walk.enter (target, source) = (.entered, (w.walk.enter (target, source)).2) :=
        Prod.ext h rfl
      rw [hw]
      exact ⟨hresult, congrArg (Guard.leave · (target, source)) hwalk⟩
    · rw [compareLogged_of_refused h, compareWithin]
      split
      · rename_i hv
        exact (h (congrArg Prod.fst hv)).elim
      · rename_i hv
        exact ⟨rfl, congrArg Prod.snd hv⟩

/-- A comparison leaves the path as it was and adds to the log. -/
theorem moves_compareLogged (n : Nat) : Moves (c.compareLogged n) LoggedWalk.Later := by
  induction n with
  | zero =>
    intro target source trail w
    exact ⟨rfl, rfl, rfl, List.suffix_cons _ _⟩
  | succ n ih =>
    intro target source trail w
    by_cases h : (w.enter (target, source)).1 = .entered
    · rw [compareLogged_of_entered h]
      have hround := moves_compareEntered (c := c) ih target source trail (w.enter (target, source)).2
      refine ⟨?_, ?_, hround.limits.trans (Guard.limits_enter _ _),
        (List.suffix_cons _ _).trans hround.answers⟩
      · calc (Guard.leave _ (target, source)).path
            = (w.walk.enter (target, source)).2.path.erase (target, source) :=
              congrArg (Std.ExtTreeSet.erase · (target, source)) hround.path
          _ = w.walk.path := Guard.path_leave_enter h
      · calc (Guard.leave _ (target, source)).depth
            = (w.walk.enter (target, source)).2.depth - 1 := congrArg (· - 1) hround.depth
          _ = w.walk.depth := Guard.depth_leave_enter h
    · rw [compareLogged_of_refused h]
      have hcount : (w.walk.enter (target, source)).2 = w.walk.count := Guard.enter_snd_of_ne h
      refine ⟨?_, ?_, Guard.limits_enter _ _, List.suffix_cons _ _⟩
      · rw [LoggedWalk.walk_enter, hcount, Guard.path_count]
      · rw [LoggedWalk.walk_enter, hcount, Guard.depth_count]

/-- A comparison of its own comes to what it comes to on a logged walk. -/
theorem conflict?_eq_compareLogged (target source : TypeId) (trail : Trail) :
    c.conflict? target source trail =
      (c.compareLogged Limits.shapeComparison.depth target source trail .start).1 :=
  (simulates_compareLogged Limits.shapeComparison.depth target source trail .start Walk.start rfl).1.symm

/-- The depth that is left below the first round of a comparison of its own. -/
def depthBelow : Nat := Limits.shapeComparison.depth - 1

/-- The walk of a comparison of its own when its first round begins. -/
def firstRound (target source : TypeId) : LoggedWalk := (LoggedWalk.start.enter (target, source)).2

theorem onPath_firstRound (target source t s : TypeId) :
    (firstRound target source).OnPath t s ↔ t = target ∧ s = source := by
  rw [firstRound, LoggedWalk.onPath_enter (LoggedWalk.enter_start _)]
  exact or_iff_left (LoggedWalk.not_onPath_start t s)

/-- The depth that is left in the first round goes as far as the limits do. -/
theorem limits_firstRound (target source : TypeId) :
    (firstRound target source).walk.limits.depth ≤
      depthBelow + (firstRound target source).walk.depth := by
  rw [firstRound, LoggedWalk.depth_enter (LoggedWalk.enter_start _)]
  simp [depthBelow, LoggedWalk.start, Walk.start, Limits.shapeComparison]

/-- A comparison of its own is a round on the pair, with just that pair on the path. -/
theorem compareLogged_start (target source : TypeId) (trail : Trail) :
    c.compareLogged Limits.shapeComparison.depth target source trail .start =
      ((c.compareEntered (c.compareLogged depthBelow) target source trail
          (firstRound target source)).1,
        (c.compareEntered (c.compareLogged depthBelow) target source trail
          (firstRound target source)).2.leave (target, source)) :=
  compareLogged_of_entered (LoggedWalk.enter_start _)

theorem conflict?_eq_compareEntered (target source : TypeId) (trail : Trail) :
    c.conflict? target source trail =
      (c.compareEntered (c.compareLogged depthBelow) target source trail
        (firstRound target source)).1 := by
  rw [conflict?_eq_compareLogged, compareLogged_start]

theorem staysWithinLimits_iff {target source : TypeId} {trail : Trail} :
    c.StaysWithinLimits target source trail ↔
      (c.compareEntered (c.compareLogged depthBelow) target source trail
        (firstRound target source)).2.WithinLimits := by
  rw [StaysWithinLimits, compareLogged_start]
  exact LoggedWalk.withinLimits_leave

/-- What a comparison of its own accepts is accepted by its first round. -/
theorem acceptedRound_firstRound (hl : c.StaysWithinLimits target source trail)
    (h : c.conflict? target source trail = none) :
    c.AcceptedRound depthBelow target source trail .start (firstRound target source) where
  onPath := LoggedWalk.onPath_enter (LoggedWalk.enter_start _)
  depth := limits_firstRound target source
  withinLimits := staysWithinLimits_iff.mp hl
  accepted := (conflict?_eq_compareEntered target source trail).symm.trans h

end Comparison

end Misfit
