import Misfit.Proofs.Compare.Depth

/-!
# Comparisons one after the other

A comparer that has been used before starts its next comparison with the walk that the one before has
left. All that is left of a comparison is the number of its attempts: every way out of it takes the pairs
that were entered off the path again, whether a conflict was found or not. So as long as the attempts
last, every comparison comes to what it comes to in a walk of its own.
-/
namespace Misfit

namespace Guard

variable {κ : Type} [Ord κ] [Std.TransOrd κ]

/-- A guard that turns no key away because of the attempts answers as one that has counted fewer. -/
theorem enter_eq_of_attempts_le {g g' : Guard κ} {k : κ} (hpath : g'.path = g.path)
    (hdepth : g'.depth = g.depth) (hlimits : g'.limits = g.limits) (hattempts : g'.attempts ≤ g.attempts)
    (h : (g.enter k).1 ≠ .attemptsExceeded) : (g'.enter k).1 = (g.enter k).1 := by
  have hcount : g'.count.attempts ≤ g.count.attempts := by
    show min (g'.attempts + 1) maxCount ≤ min (g.attempts + 1) maxCount
    omega
  rw [enter_fst] at h ⊢
  rw [enter_fst]
  unfold verdict at h ⊢
  by_cases hlast : g.count.limits.attempts < g.count.attempts
  · rw [if_pos hlast] at h
    exact (h rfl).elim
  · have hlast' : ¬g'.count.limits.attempts < g'.count.attempts := by
      rw [limits_count, hlimits]
      rw [limits_count] at hlast
      omega
    rw [if_neg hlast, if_neg hlast', limits_count, limits_count, hlimits, depth_count, depth_count, hdepth,
      path_count, path_count, hpath]

/-- Attempts are turned away as too many only once more of them are counted than there may be. -/
theorem limits_attempts_lt_of_attemptsExceeded {g : Guard κ} {k : κ}
    (h : (g.enter k).1 = .attemptsExceeded) : g.limits.attempts < g.attempts + 1 := by
  rw [enter_fst] at h
  unfold verdict at h
  split at h
  · rename_i hlt
    have hle : g.count.attempts ≤ g.attempts + 1 := Nat.min_le_left _ _
    rw [limits_count] at hlt
    omega
  · split at h
    · simp at h
    · split at h <;> simp at h

end Guard

namespace LoggedWalk

/-- Two walks at the same place, where the second one has counted no more attempts. -/
structure Fresher (v w : LoggedWalk) : Prop where
  path : w.walk.path = v.walk.path
  depth : w.walk.depth = v.walk.depth
  limits : w.walk.limits = v.walk.limits
  attempts : w.walk.attempts ≤ v.walk.attempts

/-- The walk has counted its answers, and has told that they are too many only when they were. -/
structure Counted (w : LoggedWalk) : Prop where
  attempts : w.walk.attempts = min w.answers.length Guard.maxCount
  exceeded : Entry.attemptsExceeded ∈ w.answers → w.walk.limits.attempts < w.answers.length

variable {v w : LoggedWalk} {pair : TypeId × TypeId}

theorem Fresher.enter_fst (h : v.Fresher w) (hv : (v.enter pair).1 ≠ .attemptsExceeded) :
    (w.enter pair).1 = (v.enter pair).1 :=
  Guard.enter_eq_of_attempts_le h.path h.depth h.limits h.attempts hv

theorem Fresher.enter (h : v.Fresher w) (hv : (v.enter pair).1 ≠ .attemptsExceeded) :
    (v.enter pair).2.Fresher (w.enter pair).2 where
  path := by
    have hfst : (w.walk.enter pair).1 = (v.walk.enter pair).1 := h.enter_fst hv
    rw [walk_enter, walk_enter, Guard.path_enter, Guard.path_enter, hfst, h.path]
  depth := by
    have hfst : (w.walk.enter pair).1 = (v.walk.enter pair).1 := h.enter_fst hv
    rw [walk_enter, walk_enter, Guard.depth_enter_eq, Guard.depth_enter_eq, hfst, h.depth]
  limits := by rw [walk_enter, walk_enter, Guard.limits_enter, Guard.limits_enter, h.limits]
  attempts := by
    have hattempts := h.attempts
    rw [walk_enter, walk_enter, Guard.attempts_enter, Guard.attempts_enter]
    omega

theorem Fresher.count (h : v.Fresher w) : (v.count pair).Fresher (w.count pair) where
  path := h.path
  depth := h.depth
  limits := h.limits
  attempts := by
    have hattempts := h.attempts
    show min (w.walk.attempts + 1) Guard.maxCount ≤ min (v.walk.attempts + 1) Guard.maxCount
    omega

theorem Fresher.leave (h : v.Fresher w) : (v.leave pair).Fresher (w.leave pair) where
  path := congrArg (Std.ExtTreeSet.erase · pair) h.path
  depth := congrArg (· - 1) h.depth
  limits := h.limits
  attempts := h.attempts

/-- Every answer is counted, whatever it is. -/
theorem Counted.attempt (h : w.Counted) {walk : Walk} (hlimits : walk.limits = w.walk.limits)
    (hattempts : walk.attempts = min (w.walk.attempts + 1) Guard.maxCount) :
    (⟨walk, (w.walk.enter pair).1 :: w.answers⟩ : LoggedWalk).Counted where
  attempts := by
    have hcount := h.attempts
    rw [hattempts, List.length_cons]
    omega
  exceeded hmem := by
    have hcount := h.attempts
    rw [hlimits, List.length_cons]
    rcases List.mem_cons.mp hmem with heq | hmem
    · have hlt : w.walk.limits.attempts < w.walk.attempts + 1 :=
        Guard.limits_attempts_lt_of_attemptsExceeded (k := pair) heq.symm
      omega
    · have hlt := h.exceeded hmem
      omega

theorem Counted.withinAttempts (h : w.Counted) (hle : w.answers.length ≤ w.walk.limits.attempts) :
    w.WithinAttempts := fun hmem => Nat.not_lt_of_le hle (h.exceeded hmem)

theorem counted_start : start.Counted := ⟨rfl, by simp [start]⟩

end LoggedWalk

namespace Comparison

variable {c : Comparison}

/-- Comparing keeps count of the attempts. -/
theorem moves_counted (n : Nat) :
    Moves (c.compareLogged n) fun w w' => w.Counted → w'.Counted := by
  have hpreorder : IsPreorder LoggedWalk fun w w' => w.Counted → w'.Counted :=
    { refl := fun _ h => h, trans := fun _ _ _ h h' hw => h' (h hw) }
  induction n with
  | zero =>
    intro target source trail w hw
    exact hw.attempt rfl rfl
  | succ n ih =>
    intro target source trail w hw
    have henter : (w.enter (target, source)).2.Counted :=
      hw.attempt (Guard.limits_enter _ _) (Guard.attempts_enter _ _)
    by_cases h : (w.enter (target, source)).1 = .entered
    · rw [compareLogged_of_entered h]
      have hround := moves_compareEntered (c := c) ih target source trail _ henter
      exact ⟨hround.attempts, hround.exceeded⟩
    · rw [compareLogged_of_refused h]
      exact henter

/-- A comparison that does not run out of attempts comes to the same in a walk that has counted fewer.
By induction on the depth that is left; the log of the whole comparison bounds every part of it. -/
theorem related_of_fresher (n : Nat) {target source : TypeId} {trail : Trail} {v w : LoggedWalk}
    (h : v.Fresher w) (ha : (c.compareLogged n target source trail v).2.WithinAttempts) :
    Related LoggedWalk.Fresher (c.compareLogged n target source trail v)
      (c.compareLogged n target source trail w) := by
  have hanswer : (v.enter (target, source)).1 ≠ .attemptsExceeded := by
    intro heq
    refine ha ?_
    by_cases hv : (v.enter (target, source)).1 = .entered
    · simp [hv] at heq
    · rw [compareLogged_of_refused hv, ← heq]
      exact List.mem_cons_self
  induction n generalizing target source trail v w with
  | zero => exact ⟨rfl, h.count⟩
  | succ n ih =>
    have hfst := h.enter_fst hanswer
    by_cases hv : (v.enter (target, source)).1 = .entered
    · rw [compareLogged_of_entered hv] at ha
      rw [compareLogged_of_entered hv, compareLogged_of_entered (hfst.trans hv)]
      have hbetween : SimulatesBetween (c.compareLogged n) (c.compareLogged n) LoggedWalk.Later
          LoggedWalk.Fresher (v.enter (target, source)).2
          (c.compareEntered (c.compareLogged n) target source trail (v.enter (target, source)).2).2 := by
        intro t s tr v' w' _ hlast hvw
        have hwithin := LoggedWalk.WithinAttempts.of_later (LoggedWalk.withinAttempts_leave.mp ha) hlast
        refine ih hvw hwithin fun heq => hwithin ?_
        have hrefused : (v'.enter (t, s)).1 ≠ .entered := by simp [heq]
        rw [compareLogged_of_refused hrefused, ← heq]
        exact List.mem_cons_self
      obtain ⟨hresult, hrecords⟩ := related_compareEntered (c := c) (moves_compareLogged n) hbetween
        (refl_of LoggedWalk.Later _) (h.enter hanswer)
      exact ⟨hresult, hrecords.leave⟩
    · rw [compareLogged_of_refused hv, compareLogged_of_refused fun hw => hv (hfst.symm.trans hw)]
      exact ⟨rfl, h.enter hanswer⟩

/-- What one comparison is asked. -/
structure Question where
  target : TypeId
  source : TypeId
  trail : Trail
  deriving DecidableEq, Repr

/-- Puts one question after the other to a comparer. -/
def askAll {ω : Type} (inner : Comparer ω) : List Question → ω → List (Option Conflict) × ω
  | [], w => ([], w)
  | q :: rest, w =>
    let (answer, w) := inner q.target q.source q.trail w
    let (answers, w) := askAll inner rest w
    (answer :: answers, w)

/-- A question moves the records along, and so do several. -/
theorem moves_askAll {ω : Type} {inner : Comparer ω} {R : ω → ω → Prop} [IsPreorder ω R]
    (hR : Moves inner R) (questions : List Question) (w : ω) :
    R w (askAll inner questions w).2 := by
  induction questions generalizing w with
  | nil => exact refl_of R w
  | cons q rest ih => exact trans_of R (hR q.target q.source q.trail w) (ih _)

theorem simulates_askAll {ω₁ ω₂ : Type} {inner₁ : Comparer ω₁} {inner₂ : Comparer ω₂}
    {S : ω₁ → ω₂ → Prop} (hS : Simulates inner₁ inner₂ S) (questions : List Question) {w₁ : ω₁}
    {w₂ : ω₂} (hw : S w₁ w₂) :
    Related S (askAll inner₁ questions w₁) (askAll inner₂ questions w₂) := by
  induction questions generalizing w₁ w₂ with
  | nil => exact ⟨rfl, hw⟩
  | cons q rest ih =>
    obtain ⟨hanswer, hrecords⟩ := hS q.target q.source q.trail w₁ w₂ hw
    obtain ⟨hanswers, hlast⟩ := ih hrecords
    exact ⟨List.cons_eq_cons.mpr ⟨hanswer, hanswers⟩, hlast⟩

variable (c) in
/-- Compares two types in a logged walk that is under way. -/
def compareOnLog : Comparer LoggedWalk := fun target source trail w =>
  c.compareLogged (w.walk.limits.depth - w.walk.depth) target source trail w

variable (c) in
/-- How often the guard is asked on the way through all questions. -/
def attemptsOf (questions : List Question) : Nat :=
  (askAll c.compareOnLog questions .start).2.answers.length

theorem simulates_compareOnLog :
    Simulates c.compareOnLog c.compare fun logged w => logged.walk = w := by
  rintro target source trail logged _ rfl
  exact simulates_compareLogged _ target source trail logged _ rfl

theorem moves_compareOnLog : Moves c.compareOnLog LoggedWalk.Later := fun target source trail w =>
  moves_compareLogged _ target source trail w

/-- The records of all questions are those of one walk, and they are counted. -/
theorem counted_askAll (questions : List Question) :
    (askAll c.compareOnLog questions .start).2.Counted := by
  have hpreorder : IsPreorder LoggedWalk fun w w' => w.Counted → w'.Counted :=
    { refl := fun _ h => h, trans := fun _ _ _ h h' hw => h' (h hw) }
  have hmoves : Moves c.compareOnLog fun w w' => w.Counted → w'.Counted :=
    fun target source trail w => moves_counted _ target source trail w
  exact moves_askAll hmoves questions .start LoggedWalk.counted_start

/-- A question is answered as in a walk of its own, in any walk with an empty path that does not run out
of attempts. -/
theorem compareOnLog_eq_conflict? {q : Question} {w : LoggedWalk} (hw : LoggedWalk.start.Later w)
    (ha : (c.compareOnLog q.target q.source q.trail w).2.WithinAttempts) :
    (c.compareOnLog q.target q.source q.trail w).1 = c.conflict? q.target q.source q.trail := by
  have hfresher : w.Fresher .start := ⟨hw.path.symm, hw.depth.symm, hw.limits.symm, Nat.zero_le _⟩
  have hdepth : w.walk.limits.depth - w.walk.depth = Limits.shapeComparison.depth := by
    rw [hw.limits, hw.depth]
    rfl
  rw [compareOnLog, hdepth] at ha ⊢
  rw [conflict?_eq_compareLogged]
  exact (related_of_fresher _ hfresher ha).1

/-- By induction on the questions; the log at the end bounds the attempts of every one of them. -/
theorem askAll_eq_map {questions : List Question} {w : LoggedWalk} (hw : LoggedWalk.start.Later w)
    (ha : (askAll c.compareOnLog questions w).2.WithinAttempts) :
    (askAll c.compareOnLog questions w).1 =
      questions.map fun q => c.conflict? q.target q.source q.trail := by
  induction questions generalizing w with
  | nil => rfl
  | cons q rest ih =>
    have hmove := moves_compareOnLog (c := c) q.target q.source q.trail w
    have hrest := moves_askAll (moves_compareOnLog (c := c)) rest
      (c.compareOnLog q.target q.source q.trail w).2
    have hanswer := compareOnLog_eq_conflict? hw (LoggedWalk.WithinAttempts.of_later ha hrest)
    have hanswers := ih (trans_of LoggedWalk.Later hw hmove) ha
    exact List.cons_eq_cons.mpr ⟨hanswer, hanswers⟩

/-- After any number of comparisons the path is empty, and only the attempts of all of them are left. As
long as these are not more than there may be, each comparison has come to what it comes to in a walk of
its own. -/
theorem askAll_compare (questions : List Question) :
    (askAll c.compare questions Walk.start).2.path = ∅ ∧
      (askAll c.compare questions Walk.start).2.depth = 0 ∧
      (askAll c.compare questions Walk.start).2.attempts =
        min (c.attemptsOf questions) Guard.maxCount ∧
      (c.attemptsOf questions ≤ Limits.shapeComparison.attempts →
        (askAll c.compare questions Walk.start).1 =
          questions.map fun q => c.conflict? q.target q.source q.trail) := by
  have hlater : LoggedWalk.start.Later (askAll c.compareOnLog questions .start).2 :=
    moves_askAll moves_compareOnLog questions .start
  have hcounted := counted_askAll (c := c) questions
  obtain ⟨hanswers, hwalk⟩ : Related (fun (logged : LoggedWalk) w => logged.walk = w)
      (askAll c.compareOnLog questions .start) (askAll c.compare questions Walk.start) :=
    simulates_askAll simulates_compareOnLog questions rfl
  rw [← hwalk, ← hanswers]
  refine ⟨hlater.path, hlater.depth, hcounted.attempts, fun hle => ?_⟩
  have hwithin : (askAll c.compareOnLog questions .start).2.WithinAttempts := by
    apply hcounted.withinAttempts
    rw [hlater.limits]
    exact hle
  exact askAll_eq_map (refl_of LoggedWalk.Later _) hwithin

/-- Three comparisons in turn. The one in the middle ends in a conflict, and the last one repeats the
first. -/
theorem askAll_linkedTypes :
    let c : Comparison := ⟨{ types := linkedTypes }, {}⟩
    let questions : List Question :=
      [⟨⟨15⟩, ⟨16⟩, Trail.empty⟩, ⟨⟨15⟩, ⟨17⟩, Trail.empty⟩, ⟨⟨15⟩, ⟨16⟩, Trail.empty⟩]
    c.attemptsOf questions = 5 ∧ (askAll c.compare questions Walk.start).2.path = ∅ ∧
      (askAll c.compare questions Walk.start).1 =
        questions.map (fun q => c.conflict? q.target q.source q.trail) ∧
      (askAll c.compare questions Walk.start).1.map Option.isSome = [false, true, false] := by
  intro c questions
  have hattempts : c.attemptsOf questions = 5 := by decide
  obtain ⟨hpath, -, -, hanswers⟩ := askAll_compare (c := c) questions
  refine ⟨hattempts, hpath, hanswers ?_, by decide⟩
  rw [hattempts]
  decide

end Comparison

end Misfit
