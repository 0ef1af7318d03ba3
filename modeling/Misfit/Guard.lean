import Std.Data.ExtTreeSet

/-!
# Bounded walks

A recursive walk over types can come back to where it has been, because a type can mention itself. A
guard keeps the keys on the current path and lets a walk on only while the path has no repetition, is
not too long and has not been extended too often. Only the set of these keys matters, and paths can be
long, so the set is an ordered tree. Two trees with the same keys are equal, so that leaving a key
restores the path from before it was entered.
-/
namespace Misfit

/-- How deep and how long a walk may be. -/
structure Limits where
  depth : Nat
  attempts : Nat
  deriving DecidableEq, Repr

namespace Limits

/-- Comparing nested properties. -/
def shapeComparison : Limits := ⟨100, 100000⟩

/-- Following a dotted access outward. -/
def accessPath : Limits := ⟨20, 1000⟩

end Limits

/-- The answer to an attempt to enter a key. -/
inductive Entry
  | entered
  /-- The key is on the path already. -/
  | cycle
  | depthExceeded
  | attemptsExceeded
  deriving DecidableEq, Repr

/-- The keys on the path, and two counters: one goes up and down with the path, the other one counts the
attempts so far. -/
structure Guard (κ : Type) [Ord κ] where
  limits : Limits
  path : Std.ExtTreeSet κ := ∅
  depth : Nat := 0
  attempts : Nat := 0

namespace Guard

variable {κ : Type} [Ord κ] [Std.TransOrd κ]

/-- Attempts are counted up to here. -/
def maxCount : Nat := 4294967295

/-- The guard after one more attempt. -/
def count (g : Guard κ) : Guard κ := { g with attempts := min (g.attempts + 1) maxCount }

/-- What an attempt to enter a key comes to; the attempt itself has been counted. -/
def verdict (g : Guard κ) (k : κ) : Entry :=
  if g.limits.attempts < g.attempts then .attemptsExceeded
  else if g.limits.depth ≤ g.depth then .depthExceeded
  else if k ∈ g.path then .cycle
  else .entered

/-- Tries to put a key on the path. -/
def enter (g : Guard κ) (k : κ) : Entry × Guard κ :=
  match g.count.verdict k with
  | .entered => (.entered, { g.count with path := g.path.insert k, depth := g.depth + 1 })
  | denied => (denied, g.count)

/-- Takes a key off the path. -/
def leave (g : Guard κ) (k : κ) : Guard κ :=
  { g with path := g.path.erase k, depth := g.depth - 1 }

omit [Std.TransOrd κ] in
@[simp] theorem path_count (g : Guard κ) : g.count.path = g.path := rfl

omit [Std.TransOrd κ] in
@[simp] theorem depth_count (g : Guard κ) : g.count.depth = g.depth := rfl

omit [Std.TransOrd κ] in
@[simp] theorem limits_count (g : Guard κ) : g.count.limits = g.limits := rfl

@[simp] theorem limits_enter (g : Guard κ) (k : κ) : (g.enter k).2.limits = g.limits := by
  unfold enter
  split <;> rfl

@[simp] theorem attempts_enter (g : Guard κ) (k : κ) :
    (g.enter k).2.attempts = min (g.attempts + 1) maxCount := by
  unfold enter
  split <;> rfl

theorem enter_fst (g : Guard κ) (k : κ) : (g.enter k).1 = g.count.verdict k := by
  unfold enter
  split
  · simp_all
  · rfl

/-- Only a key that is entered changes the path. -/
theorem path_enter (g : Guard κ) (k : κ) :
    (g.enter k).2.path = if (g.enter k).1 = .entered then g.path.insert k else g.path := by
  unfold enter
  split
  · simp
  · rename_i h
    rw [if_neg h]
    rfl

/-- Only a key that is entered makes the path longer. -/
theorem depth_enter_eq (g : Guard κ) (k : κ) :
    (g.enter k).2.depth = if (g.enter k).1 = .entered then g.depth + 1 else g.depth := by
  unfold enter
  split
  · simp
  · rename_i h
    rw [if_neg h]
    rfl

/-- A key that is not entered is only counted. -/
theorem enter_snd_of_ne {g : Guard κ} {k : κ} (h : (g.enter k).1 ≠ .entered) :
    (g.enter k).2 = g.count := by
  unfold enter at h ⊢
  split
  · rename_i hv
    simp [hv] at h
  · rfl

/-- A key that is entered was not on the path. -/
theorem not_mem_path_of_entered {g : Guard κ} {k : κ} (h : (g.enter k).1 = .entered) :
    k ∉ g.path := by
  rw [enter_fst] at h
  unfold verdict at h
  split at h
  · simp at h
  · split at h
    · simp at h
    · split at h
      · simp at h
      · assumption

/-- A key that closes a cycle is on the path. -/
theorem mem_path_of_cycle {g : Guard κ} {k : κ} (h : (g.enter k).1 = .cycle) : k ∈ g.path := by
  rw [enter_fst] at h
  unfold verdict at h
  split at h
  · simp at h
  · split at h
    · simp at h
    · split at h
      · assumption
      · simp at h

/-- Only a path that is as long as it may be is too long for a key. -/
theorem limits_depth_le_of_depthExceeded {g : Guard κ} {k : κ} (h : (g.enter k).1 = .depthExceeded) :
    g.limits.depth ≤ g.depth := by
  rw [enter_fst] at h
  unfold verdict at h
  split at h
  · simp at h
  · split at h
    · assumption
    · split at h <;> simp at h

/-- A path that is as long as it may be takes no key. -/
theorem enter_of_limits_depth_le {g : Guard κ} (h : g.limits.depth ≤ g.depth) (k : κ) :
    (g.enter k).1 = .attemptsExceeded ∨ (g.enter k).1 = .depthExceeded := by
  have hd : g.count.limits.depth ≤ g.count.depth := h
  rw [enter_fst, verdict, if_pos hd]
  split
  · exact Or.inl rfl
  · exact Or.inr rfl

/-- A key that is entered makes the path longer by one. -/
theorem depth_enter {g : Guard κ} {k : κ} (h : (g.enter k).1 = .entered) :
    (g.enter k).2.depth = g.depth + 1 := by
  rw [depth_enter_eq, if_pos h]

theorem depth_leave_enter {g : Guard κ} {k : κ} (h : (g.enter k).1 = .entered) :
    ((g.enter k).2.leave k).depth = g.depth := by
  rw [leave, depth_enter h, Nat.add_sub_cancel]

/-- Leaving the key entered last restores the path. -/
theorem path_leave_enter [Std.LawfulEqOrd κ] {g : Guard κ} {k : κ} (h : (g.enter k).1 = .entered) :
    ((g.enter k).2.leave k).path = g.path := by
  have hk := not_mem_path_of_entered h
  simp only [leave, path_enter, h, if_pos]
  apply Std.ExtTreeSet.ext_mem
  intro j
  rw [Std.ExtTreeSet.mem_erase, Std.ExtTreeSet.mem_insert]
  constructor
  · rintro ⟨hne, heq | hj⟩
    · exact absurd heq hne
    · exact hj
  · intro hj
    refine ⟨fun heq => hk ?_, Or.inr hj⟩
    rwa [Std.LawfulEqCmp.eq_of_compare heq]

end Guard

end Misfit
