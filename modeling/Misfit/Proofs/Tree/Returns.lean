import Misfit.Proofs.Tree.Above
import Misfit.Tree.Index
import Mathlib.Data.List.Nodup

/-!
# Returns and the functions that they leave

The index of a file keeps the function of each `return` and answers for the `return`s of each function from
the same table. In a file that has been assembled, whatever lies detached or is shared in it, the function
of a `return` is the nearest one above it.
-/
namespace Misfit

/-- Where no key occurs twice, an entry is found under its key. -/
theorem find?_fst_of_mem {α β : Type} [DecidableEq α] {l : List (α × β)} (h : (l.map Prod.fst).Nodup)
    {a : α} {b : β} (hab : (a, b) ∈ l) : l.find? (·.1 = a) = some (a, b) := by
  obtain ⟨before, after, rfl⟩ := List.append_of_mem hab
  rw [List.map_append, List.nodup_append] at h
  refine List.find?_eq_some_iff_append.mpr ⟨by simp, before, after, rfl, fun p hp => ?_⟩
  have hne : p.1 ≠ a := h.2.2 p.1 (List.mem_map_of_mem hp) a (by simp)
  simpa using hne

/-- Where no key occurs twice, what is found under a key is what is listed with it. -/
theorem find?_fst_eq_some_iff {α β : Type} [DecidableEq α] {l : List (α × β)}
    (h : (l.map Prod.fst).Nodup) {a : α} {b : β} :
    (l.find? (·.1 = a)).map Prod.snd = some b ↔ (a, b) ∈ l := by
  constructor
  · intro hb
    obtain ⟨⟨a', b'⟩, hfound, rfl⟩ := Option.map_eq_some_iff.mp hb
    have hkey : a' = a := by simpa using List.find?_some hfound
    exact hkey ▸ List.mem_of_find?_eq_some hfound
  · intro hab
    rw [find?_fst_of_mem h hab]
    rfl

/-- Picking entries that keep their keys keeps the keys in order. -/
theorem keys_filterMap_sublist {α β γ : Type} {f : α × β → Option (α × γ)}
    (hf : ∀ entry, ∀ p ∈ f entry, p.1 = entry.1) (l : List (α × β)) :
    ((l.filterMap f).map Prod.fst).Sublist (l.map Prod.fst) := by
  induction l with
  | nil => exact List.Sublist.slnil
  | cons entry rest ih =>
    rw [List.filterMap_cons]
    cases hp : f entry with
    | none => exact ih.cons entry.1
    | some p =>
      simp only [List.map_cons, hf entry p hp]
      exact ih.cons_cons entry.1

namespace Index

variable {f : SourceFile} {r c : NodeId}

theorem fst_of_return? {i : NodeId} {n : Node} {p : NodeId × NodeId} (h : return? f i n = some p) :
    p.1 = i := by
  unfold return? at h
  split at h
  · obtain ⟨container, -, rfl⟩ := Option.map_eq_some_iff.mp h
    rfl
  · simp at h

theorem pairwise_fst_returns (f : SourceFile) :
    ((build f).returns.map Prod.fst).Pairwise (·.raw < ·.raw) := by
  have hsublist : ((build f).returns.map Prod.fst).Sublist (f.arena.entries.map Prod.fst) :=
    keys_filterMap_sublist (fun _ _ hp => fst_of_return? hp) _
  have hsorted : (f.arena.entries.map Prod.fst).Pairwise (·.raw < ·.raw) :=
    List.pairwise_map.mpr f.arena.pairwise_entries
  exact hsorted.sublist hsublist

theorem nodup_fst_returns (f : SourceFile) : ((build f).returns.map Prod.fst).Nodup :=
  (pairwise_fst_returns f).imp fun hlt heq => Nat.ne_of_lt hlt (congrArg NodeId.raw heq)

theorem mem_returns : (r, c) ∈ (build f).returns ↔
    ∃ n, (r, n) ∈ f.arena.entries ∧ n.kind = .returnStatement ∧ f.functionAt n.parent = some c := by
  simp only [build, List.mem_filterMap, Prod.exists]
  constructor
  · rintro ⟨i, n, hn, hreturn⟩
    obtain rfl := fst_of_return? hreturn
    unfold return? at hreturn
    split at hreturn
    · rename_i hkind
      obtain ⟨container, hcontainer, heq⟩ := Option.map_eq_some_iff.mp hreturn
      exact ⟨n, hn, hkind, hcontainer.trans (congrArg _ (congrArg Prod.snd heq))⟩
    · simp at hreturn
  · rintro ⟨n, hn, hkind, hcontainer⟩
    exact ⟨r, n, hn, by simp [return?, hkind, hcontainer]⟩

theorem containerOf_eq_some_iff : (build f).containerOf r = some c ↔ (r, c) ∈ (build f).returns :=
  find?_fst_eq_some_iff (nodup_fst_returns f)

theorem mem_returnsOf_iff : r ∈ (build f).returnsOf c ↔ (build f).containerOf r = some c :=
  mem_returnsOf.trans containerOf_eq_some_iff.symm

/-- The function that a `return` is listed under is the one that it belongs to. -/
theorem containerOf_of_mem_returnsOf {function statement : NodeId}
    (h : statement ∈ (build f).returnsOf function) : (build f).containerOf statement = some function :=
  mem_returnsOf_iff.mp h

theorem pairwise_returnsOf (f : SourceFile) (c : NodeId) :
    ((build f).returnsOf c).Pairwise (·.raw < ·.raw) :=
  (pairwise_fst_returns f).sublist (List.filter_sublist.map Prod.fst)

/-- Whatever a file is assembled from, the function of a `return` is the nearest one above it, and the
`return`s of a function are those whose function it is, in increasing order. So a `return` in a nested
function is not listed for an outer one. -/
theorem returns_bind_nearest (name : String) (steps : List Draft.Step) (statements : List NodeId) :
    let f := SourceFile.ofSteps name steps statements
    let x := build f
    (∀ r c, x.containerOf r = some c ↔ ∃ n, (r, n) ∈ f.arena.entries ∧ n.kind = .returnStatement ∧
        f.Nearest n (·.kind.isFunctionLike) c) ∧
      (∀ r c, r ∈ x.returnsOf c ↔ x.containerOf r = some c) ∧
      (∀ c, (x.returnsOf c).Pairwise (·.raw < ·.raw)) ∧
      ∀ r n inner m outer, (r, n) ∈ f.arena.entries → f.Above n inner → f.node? inner = some m →
        m.kind.isFunctionLike = true → f.Above m outer → r ∉ x.returnsOf outer := by
  intro f x
  have hregular : f.arena.Regular := SourceFile.regular_ofSteps name steps statements
  have hcontainer : ∀ r c, x.containerOf r = some c ↔ ∃ n, (r, n) ∈ f.arena.entries ∧
      n.kind = .returnStatement ∧ f.Nearest n (·.kind.isFunctionLike) c := by
    intro r c
    rw [containerOf_eq_some_iff, mem_returns]
    simp only [SourceFile.functionAt, SourceFile.findAbove_parent_eq_some_iff hregular]
  refine ⟨hcontainer, fun r c => mem_returnsOf_iff, pairwise_returnsOf f, ?_⟩
  intro r n inner m outer hn hinner hm hfunction houter hlisted
  obtain ⟨n', hn', -, hnearest⟩ := (hcontainer r outer).mp (mem_returnsOf_iff.mp hlisted)
  obtain rfl := Arena.eq_of_mem_entries hn hn'
  have hlt := SourceFile.lt_of_above hregular (SourceFile.mem_entries_of_node? hm) houter
  rcases hnearest.nearest inner hinner (by simpa [hm] using hfunction) with rfl | ⟨k, hk, habove⟩
  · exact Nat.lt_irrefl _ hlt
  · have hgt := SourceFile.lt_of_above hregular (SourceFile.mem_entries_of_node? hk) habove
    omega

/-- A function that returns an arrow function, with a `return` in it as well. -/
example :
    let x := build (SourceFile.ofSteps "a.ts" [.returnStatement none, .block [⟨0⟩], .arrowFunction [] ⟨1⟩,
      .returnStatement (some ⟨2⟩), .block [⟨3⟩], .functionDeclaration "outer" [] none ⟨4⟩] [⟨5⟩])
    x.containerOf ⟨0⟩ = some ⟨2⟩ ∧ x.returnsOf ⟨5⟩ = [⟨3⟩] := by decide

end Index

end Misfit
