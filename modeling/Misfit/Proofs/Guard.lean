import Misfit.Guard

/-!
# A guard is a bounded path

A guard keeps a set of keys and, apart from it, two counters. Here it goes through any sequence of calls
in which only keys on the path are left, mixed as they may be of keys that are entered and keys that are
turned away. The counters then say what they are meant to say, so the answers of the guard are those of a
path that may be so long and may be asked to grow so often.
-/
namespace Misfit.Guard

variable {κ : Type} [Ord κ] [Std.TransOrd κ]

/-- What a guard is asked to do. -/
inductive Call (κ : Type)
  | enter (k : κ)
  | leave (k : κ)
  deriving DecidableEq, Repr

/-- The call is an attempt to enter a key. -/
def Call.isEnter : Call κ → Bool
  | enter _ => true
  | leave _ => false

/-- The guard after a call. -/
def perform (g : Guard κ) : Call κ → Guard κ
  | .enter k => (g.enter k).2
  | .leave k => g.leave k

/-- The guard after several calls, one after the other. -/
def performAll (g : Guard κ) (calls : List (Call κ)) : Guard κ := calls.foldl perform g

/-- Only a key on the path may be left. -/
def Allows (g : Guard κ) : Call κ → Prop
  | .enter _ => True
  | .leave k => k ∈ g.path

instance (g : Guard κ) : DecidablePred g.Allows
  | .enter _ => inferInstanceAs (Decidable True)
  | .leave k => inferInstanceAs (Decidable (k ∈ g.path))

/-- Every call may be made where it is made. -/
def AllowsAll (g : Guard κ) : List (Call κ) → Prop
  | [] => True
  | call :: rest => g.Allows call ∧ (g.perform call).AllowsAll rest

instance decidableAllowsAll : (g : Guard κ) → DecidablePred g.AllowsAll
  | _, [] => inferInstanceAs (Decidable True)
  | g, call :: rest =>
    have := decidableAllowsAll (g.perform call) rest
    inferInstanceAs (Decidable (g.Allows call ∧ (g.perform call).AllowsAll rest))

/-- Calls that leave every key they enter, the one entered last first. A key that is turned away is not
left. -/
inductive Bracketed : Guard κ → List (Call κ) → Prop
  | nil {g : Guard κ} : Bracketed g []
  | refused {g : Guard κ} {k : κ} {rest : List (Call κ)} (h : (g.enter k).1 ≠ .entered)
    (hrest : Bracketed (g.enter k).2 rest) : Bracketed g (.enter k :: rest)
  | entered {g : Guard κ} {k : κ} {inner rest : List (Call κ)} (h : (g.enter k).1 = .entered)
    (hinner : Bracketed (g.enter k).2 inner)
    (hrest : Bracketed (((g.enter k).2.performAll inner).leave k) rest) :
    Bracketed g (.enter k :: (inner ++ .leave k :: rest))

@[simp] theorem performAll_cons (g : Guard κ) (call : Call κ) (rest : List (Call κ)) :
    g.performAll (call :: rest) = (g.perform call).performAll rest := rfl

@[simp] theorem performAll_append (g : Guard κ) (calls rest : List (Call κ)) :
    g.performAll (calls ++ rest) = (g.performAll calls).performAll rest := List.foldl_append

theorem allowsAll_append {g : Guard κ} {calls rest : List (Call κ)} (h : g.AllowsAll calls)
    (hrest : (g.performAll calls).AllowsAll rest) : g.AllowsAll (calls ++ rest) := by
  induction calls generalizing g with
  | nil => exact hrest
  | cons call calls ih => exact ⟨h.1, ih h.2 hrest⟩

/-! ### The counters -/

/-- The counters of a guard that has been asked so many times to enter a key. -/
structure Tallied (made : Nat) (g : Guard κ) : Prop where
  depth : g.depth = g.path.size
  depth_le : g.depth ≤ g.limits.depth
  attempts : g.attempts = min made maxCount

namespace Tallied

variable {g : Guard κ} {made : Nat} {k : κ}

omit [Std.TransOrd κ] in
theorem start (limits : Limits) : Tallied 0 ({ limits } : Guard κ) :=
  ⟨Std.ExtTreeSet.size_empty.symm, Nat.zero_le _, rfl⟩

theorem enter (h : Tallied made g) (k : κ) : Tallied (made + 1) (g.enter k).2 where
  depth := by
    rw [depth_enter_eq, path_enter]
    split
    · rename_i hentered
      have hk : ¬g.path.contains k = true := fun hmem =>
        not_mem_path_of_entered hentered (Std.ExtTreeSet.mem_iff_contains.mpr hmem)
      rw [Std.ExtTreeSet.size_insert, if_neg hk, h.depth]
    · exact h.depth
  depth_le := by
    rw [depth_enter_eq, limits_enter]
    split
    · rename_i hentered
      have hlt : ¬g.limits.depth ≤ g.depth := by
        intro hfull
        rcases enter_of_limits_depth_le hfull k with hd | hd <;> simp [hentered] at hd
      omega
    · exact h.depth_le
  attempts := by
    have hattempts := h.attempts
    rw [attempts_enter]
    omega

/-- The count goes down by one because a key that is on the path goes. -/
theorem leave (h : Tallied made g) (hk : k ∈ g.path) : Tallied made (g.leave k) where
  depth := by
    have hsize : (g.path.erase k).size = g.path.size - 1 := by
      rw [Std.ExtTreeSet.size_erase, if_pos (Std.ExtTreeSet.mem_iff_contains.mp hk)]
    exact (congrArg (· - 1) h.depth).trans hsize.symm
  depth_le := Nat.le_trans (Nat.sub_le _ _) h.depth_le
  attempts := h.attempts

theorem performAll (h : Tallied made g) {calls : List (Call κ)} (hcalls : g.AllowsAll calls) :
    Tallied (made + calls.countP Call.isEnter) (g.performAll calls) := by
  induction calls generalizing g made with
  | nil => exact h
  | cons call calls ih =>
    obtain ⟨hcall, hcalls⟩ := hcalls
    cases call with
    | enter k =>
      have hmade : made + 1 + calls.countP Call.isEnter =
          made + (Call.enter k :: calls).countP Call.isEnter := by
        rw [List.countP_cons_of_pos rfl]
        omega
      exact hmade ▸ ih (h.enter k) hcalls
    | leave k => exact ih (h.leave hcall) hcalls

/-- With counters that are right, the answer is told by the number of attempts and by the path. The
attempts may be more than are counted, but not if the limit is below what can be counted. -/
theorem enter_fst (h : Tallied made g) (hattempts : g.limits.attempts < maxCount) (k : κ) :
    (g.enter k).1 =
      if g.limits.attempts < made + 1 then .attemptsExceeded
      else if g.depth = g.limits.depth then .depthExceeded
      else if k ∈ g.path then .cycle
      else .entered := by
  have hcount : g.count.attempts = min (made + 1) maxCount := by
    have hmade := h.attempts
    show min (g.attempts + 1) maxCount = min (made + 1) maxCount
    omega
  have hlast : g.limits.attempts < min (made + 1) maxCount ↔ g.limits.attempts < made + 1 := by omega
  have hfull : g.limits.depth ≤ g.depth ↔ g.depth = g.limits.depth := by
    have hle := h.depth_le
    omega
  rw [Guard.enter_fst, verdict, limits_count, depth_count, path_count, hcount]
  simp only [hlast, hfull]

end Tallied

/-! ### Calls that restore the path -/

theorem performAll_limits (g : Guard κ) (calls : List (Call κ)) :
    (g.performAll calls).limits = g.limits := by
  induction calls generalizing g with
  | nil => rfl
  | cons call calls ih =>
    rw [performAll_cons, ih]
    cases call with
    | enter k => exact limits_enter g k
    | leave k => rfl

variable [Std.LawfulEqOrd κ]

/-- Entering a key puts just that key on the path. -/
theorem mem_path_enter {g : Guard κ} {k : κ} (h : (g.enter k).1 = .entered) (j : κ) :
    j ∈ (g.enter k).2.path ↔ j = k ∨ j ∈ g.path := by
  rw [path_enter, if_pos h, Std.ExtTreeSet.mem_insert, Std.LawfulEqCmp.compare_eq_iff_eq, eq_comm]

namespace Bracketed

variable {g : Guard κ} {calls : List (Call κ)}

/-- By induction on the brackets: what is called between entering a key and leaving it restores the path
with the key on it. -/
theorem restores (h : g.Bracketed calls) :
    (g.performAll calls).path = g.path ∧ (g.performAll calls).depth = g.depth := by
  induction h with
  | nil => exact ⟨rfl, rfl⟩
  | @refused g k rest h _ ih =>
    have hcount : (g.enter k).2 = g.count := enter_snd_of_ne h
    rw [performAll_cons, perform]
    rw [hcount] at ih ⊢
    exact ih
  | @entered g k inner rest h _ _ ihinner ihrest =>
    rw [performAll_cons, performAll_append, performAll_cons, perform, perform]
    constructor
    · calc _ = ((g.enter k).2.performAll inner).path.erase k := ihrest.1
        _ = (g.enter k).2.path.erase k := congrArg (Std.ExtTreeSet.erase · k) ihinner.1
        _ = g.path := path_leave_enter h
    · calc _ = ((g.enter k).2.performAll inner).depth - 1 := ihrest.2
        _ = (g.enter k).2.depth - 1 := congrArg (· - 1) ihinner.2
        _ = g.depth := depth_leave_enter h

/-- Only keys on the path are left. -/
theorem allowsAll (h : g.Bracketed calls) : g.AllowsAll calls := by
  induction h with
  | nil => trivial
  | refused _ _ ih => exact ⟨trivial, ih⟩
  | @entered g k inner rest h hinner _ ihinner ihrest =>
    have hk : k ∈ ((g.enter k).2.performAll inner).path := by
      rw [hinner.restores.1, mem_path_enter h]
      exact Or.inl rfl
    exact ⟨trivial, allowsAll_append ihinner ⟨hk, ihrest⟩⟩

end Bracketed

/-! ### The whole guard -/

/-- A guard is a bounded path. After any calls in which only keys on the path were left, the depth is the
number of keys on the path and no more than it may be. A key is turned away because of the attempts if
more of them have been made than there may be, this one included; else because of the depth if the path is
as long as it may be; else because of a cycle if the key is on the path; and else it is entered. Only then
do path and depth change, and by just that key. And calls that leave every key they enter, the last one
first, restore path and depth. -/
theorem bounded_path (limits : Limits) (hattempts : limits.attempts < maxCount) (calls : List (Call κ))
    (hcalls : ({ limits } : Guard κ).AllowsAll calls) :
    let g := ({ limits } : Guard κ).performAll calls
    g.depth = g.path.size ∧ g.depth ≤ limits.depth ∧
      (∀ k, (g.enter k).1 =
        if limits.attempts < calls.countP Call.isEnter + 1 then .attemptsExceeded
        else if g.depth = limits.depth then .depthExceeded
        else if k ∈ g.path then .cycle
        else .entered) ∧
      (∀ k, (g.enter k).1 ≠ .entered →
        (g.enter k).2.path = g.path ∧ (g.enter k).2.depth = g.depth) ∧
      (∀ k, (g.enter k).1 = .entered →
        (∀ j, j ∈ (g.enter k).2.path ↔ j = k ∨ j ∈ g.path) ∧ (g.enter k).2.depth = g.depth + 1) ∧
      ∀ more, g.Bracketed more → g.AllowsAll more ∧
        (g.performAll more).path = g.path ∧ (g.performAll more).depth = g.depth := by
  intro g
  have htallied : Tallied (0 + calls.countP Call.isEnter) g := (Tallied.start limits).performAll hcalls
  rw [Nat.zero_add] at htallied
  have hlimits : g.limits = limits := performAll_limits _ calls
  refine ⟨htallied.depth, hlimits ▸ htallied.depth_le, fun k => ?_, fun k h => ?_, fun k h => ?_,
    fun more h => ⟨h.allowsAll, h.restores⟩⟩
  · rw [← hlimits] at hattempts ⊢
    exact htallied.enter_fst hattempts k
  · rw [enter_snd_of_ne h]
    exact ⟨rfl, rfl⟩
  · exact ⟨mem_path_enter h, depth_enter h⟩

/-- Calls with every answer but the one about attempts among them. -/
def mixedCalls : List (Call Nat) := [.enter 1, .enter 1, .enter 2, .enter 3, .leave 2]

/-- After them, one key more is entered and left, and another one comes too late. -/
theorem bounded_path_mixedCalls :
    let start : Guard Nat := { limits := ⟨2, 5⟩ }
    let g := start.performAll mixedCalls
    5 < maxCount ∧ start.AllowsAll mixedCalls ∧ g.depth = 1 ∧ g.path.size = 1 ∧
      (g.enter 3).1 = .entered ∧ (g.enter 1).1 = .cycle ∧
      g.Bracketed [.enter 3, .enter 4, .leave 3] ∧
      (g.performAll [.enter 3, .enter 4, .leave 3]).depth = 1 := by
  intro start g
  have hcalls : start.AllowsAll mixedCalls := by decide
  obtain ⟨hdepth, -, hanswer, -, -, hrestored⟩ := bounded_path ⟨2, 5⟩ (by decide) mixedCalls hcalls
  have hone : g.depth = 1 := by decide
  have hinner : (g.enter 3).2.Bracketed [.enter 4] := .refused (by decide) .nil
  have hbracketed : g.Bracketed [.enter 3, .enter 4, .leave 3] := .entered (by decide) hinner .nil
  have hthree : (g.enter 3).1 = .entered := (hanswer 3).trans (by decide)
  have hcycle : (g.enter 1).1 = .cycle := (hanswer 1).trans (by decide)
  exact ⟨by decide, hcalls, hone, hdepth.symm.trans hone, hthree, hcycle, hbracketed,
    (hrestored _ hbracketed).2.2.trans hone⟩

end Misfit.Guard
