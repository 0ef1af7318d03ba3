import Misfit.Proofs.Compare.Selection
import Mathlib.Data.List.Pairwise

/-!
# Selecting again, and from another order

What is shown of some candidates is chosen by looking at all of them, and then some of it is shown with
context. Neither the choice nor the context gets in the way of a second selection. The candidates that
are chosen would be chosen from among themselves, and the context has no part in the choice.

The order in which the candidates come has little part in it either. It decides how candidates are
ordered that are declared alike or that tie; which ones are shown, and with what context, it does not
decide.
-/
namespace Misfit

namespace ShapeClash

@[simp] theorem misslike_promote (c : ShapeClash) : c.promote.misslike = c.misslike := rfl

@[simp] theorem isMisslike_promote (c : ShapeClash) : c.promote.isMisslike = c.isMisslike := rfl

@[simp] theorem comesBefore_promote (a b : ShapeClash) :
    a.promote.comesBefore b.promote = a.comesBefore b := rfl

@[simp] theorem isStrong_promote (c : ShapeClash) : c.promote.isStrong = c.isStrong := by
  cases hs : c.surplus <;> simp [isStrong, forwardShare, reverseShare, promote, hs]

@[simp] theorem promote_promote (c : ShapeClash) : c.promote.promote = c.promote := by
  simp [promote, Function.comp_def]

end ShapeClash

open ShapeClash

/-- The one strong candidate among some, or all of them if there is not just one. -/
def loneStrongOrAll (sorted : List ShapeClash) : List ShapeClash :=
  match sorted.filter isStrong with
  | [strong] => [strong]
  | _ => sorted

variable {candidates reordered : List ShapeClash}

/-! ### The choice -/

theorem loneStrongOrAll_of_lone {strong : ShapeClash} (h : candidates.filter isStrong = [strong]) :
    loneStrongOrAll candidates = [strong] := by
  simp only [loneStrongOrAll, h]

theorem loneStrongOrAll_of_not_lone (h : ∀ strong, candidates.filter isStrong ≠ [strong]) :
    loneStrongOrAll candidates = candidates := by
  unfold loneStrongOrAll
  split
  · rename_i strong hstrong
    exact absurd hstrong (h strong)
  · rfl

/-- A single candidate is shown whether it is strong or not. -/
theorem loneStrongOrAll_of_few (h : candidates.length ≤ 1) : loneStrongOrAll candidates = candidates := by
  by_cases hlone : ∃ strong, candidates.filter isStrong = [strong]
  · obtain ⟨strong, hstrong⟩ := hlone
    have hmem : strong ∈ candidates := (List.mem_filter.mp (hstrong ▸ List.mem_singleton_self strong)).1
    have hone : candidates.length = 1 := Nat.le_antisymm h (List.length_pos_of_mem hmem)
    obtain ⟨c, rfl⟩ := List.length_eq_one_iff.mp hone
    rw [loneStrongOrAll_of_lone hstrong, List.mem_singleton.mp hmem]
  · exact loneStrongOrAll_of_not_lone (not_exists.mp hlone)

theorem shortlist_of_misslike (h : ∃ c ∈ candidates, c.misslike ≠ []) :
    shortlist candidates = candidates.filter isMisslike := by
  obtain ⟨c, hc, hne⟩ := h
  have hmisslike : c ∈ candidates.filter isMisslike :=
    List.mem_filter.mpr ⟨hc, by simpa [isMisslike] using hne⟩
  unfold shortlist
  split
  · -- The only candidate is the one that is declared alike.
    rename_i hfew
    have hone : candidates.length = 1 := Nat.le_antisymm hfew (List.length_pos_of_mem hc)
    obtain ⟨d, rfl⟩ := List.length_eq_one_iff.mp hone
    obtain rfl := List.mem_singleton.mp hc
    exact (List.filter_eq_self.mpr fun e he =>
      List.mem_singleton.mp he ▸ (List.mem_filter.mp hmisslike).2).symm
  · split
    · rename_i hnone
      simp [hnone] at hmisslike
    · rfl

theorem shortlist_of_plain (h : ∀ c ∈ candidates, c.misslike = []) :
    shortlist candidates = loneStrongOrAll (candidates.mergeSort comesBefore) := by
  unfold shortlist
  split
  · rename_i hfew
    have hsorted : candidates.mergeSort comesBefore = candidates := by
      match candidates, hfew with
      | [], _ => exact List.mergeSort_nil
      | [c], _ => exact List.mergeSort_singleton c
    rw [hsorted, loneStrongOrAll_of_few hfew]
  · have hnone : candidates.filter isMisslike = [] :=
      List.filter_eq_nil_iff.mpr fun c hc => by simp [isMisslike, h c hc]
    rw [hnone]
    rfl

/-! ### Selecting again -/

theorem mergeSort_mergeSort (candidates : List ShapeClash) :
    (candidates.mergeSort comesBefore).mergeSort comesBefore = candidates.mergeSort comesBefore :=
  List.mergeSort_of_pairwise
    ((stablySorted_mergeSort candidates).ordered.imp comesBefore_iff.mpr)

/-- What is chosen would be chosen from among itself. -/
theorem shortlist_shortlist (candidates : List ShapeClash) :
    shortlist (shortlist candidates) = shortlist candidates := by
  by_cases hmisslike : ∃ c ∈ candidates, c.misslike ≠ []
  · have hagain : ∃ c ∈ candidates.filter isMisslike, c.misslike ≠ [] := by
      obtain ⟨c, hc, hne⟩ := hmisslike
      exact ⟨c, List.mem_filter.mpr ⟨hc, by simpa [isMisslike] using hne⟩, hne⟩
    rw [shortlist_of_misslike hmisslike, shortlist_of_misslike hagain]
    simp
  · have hplain : ∀ c ∈ candidates, c.misslike = [] := by simpa using hmisslike
    have hagain : ∀ c ∈ shortlist candidates, c.misslike = [] :=
      fun c hc => hplain c (mem_of_mem_shortlist hc)
    rw [shortlist_of_plain hagain, shortlist_of_plain hplain]
    by_cases hlone : ∃ strong, (candidates.mergeSort comesBefore).filter isStrong = [strong]
    · obtain ⟨strong, hstrong⟩ := hlone
      rw [loneStrongOrAll_of_lone hstrong, List.mergeSort_singleton]
      exact loneStrongOrAll_of_few (Nat.le_refl 1)
    · rw [loneStrongOrAll_of_not_lone (not_exists.mp hlone), mergeSort_mergeSort,
        loneStrongOrAll_of_not_lone (not_exists.mp hlone)]

/-- The context that candidates are shown with has no part in the choice. -/
theorem shortlist_map_promote (candidates : List ShapeClash) :
    shortlist (candidates.map promote) = (shortlist candidates).map promote := by
  have hfilter : ∀ {l : List ShapeClash} {p : ShapeClash → Bool}, (∀ c, p c.promote = p c) →
      (l.map promote).filter p = (l.filter p).map promote := by
    intro l p hp
    rw [List.filter_map]
    exact congrArg _ (List.filter_congr fun c _ => hp c)
  by_cases hmisslike : ∃ c ∈ candidates, c.misslike ≠ []
  · have hpromoted : ∃ c ∈ candidates.map promote, c.misslike ≠ [] := by simpa using hmisslike
    rw [shortlist_of_misslike hmisslike, shortlist_of_misslike hpromoted, hfilter isMisslike_promote]
  · have hplain : ∀ c ∈ candidates, c.misslike = [] := by simpa using hmisslike
    have hpromoted : ∀ c ∈ candidates.map promote, c.misslike = [] := by simpa using hplain
    have hsorted : (candidates.map promote).mergeSort comesBefore =
        (candidates.mergeSort comesBefore).map promote :=
      (List.map_mergeSort fun a _ b _ => (comesBefore_promote a b).symm).symm
    rw [shortlist_of_plain hplain, shortlist_of_plain hpromoted, hsorted]
    by_cases hlone : ∃ strong, (candidates.mergeSort comesBefore).filter isStrong = [strong]
    · obtain ⟨strong, hstrong⟩ := hlone
      rw [loneStrongOrAll_of_lone hstrong, List.map_singleton]
      exact loneStrongOrAll_of_lone (by rw [hfilter isStrong_promote, hstrong, List.map_singleton])
    · rw [loneStrongOrAll_of_not_lone (not_exists.mp hlone)]
      refine loneStrongOrAll_of_not_lone fun strong hstrong => hlone ?_
      rw [hfilter isStrong_promote] at hstrong
      obtain ⟨lone, hone, -⟩ := List.map_eq_singleton_iff.mp hstrong
      exact ⟨lone, hone⟩

theorem needsContext_map_promote (listed : List ShapeClash) :
    needsContext (listed.map promote) = needsContext listed := by
  cases listed <;> simp [needsContext]

theorem selectBest_of_needsContext (h : needsContext (shortlist candidates) = true) :
    selectBest candidates = (shortlist candidates).map promote := if_pos h

theorem selectBest_of_not_needsContext (h : needsContext (shortlist candidates) = false) :
    selectBest candidates = shortlist candidates := if_neg (Bool.eq_false_iff.mp h)

theorem selectBest_selectBest (candidates : List ShapeClash) :
    selectBest (selectBest candidates) = selectBest candidates := by
  cases hcontext : needsContext (shortlist candidates) with
  | true =>
    have hagain : shortlist ((shortlist candidates).map promote) = (shortlist candidates).map promote := by
      rw [shortlist_map_promote, shortlist_shortlist]
    have hneeds : needsContext (shortlist ((shortlist candidates).map promote)) = true := by
      rw [hagain, needsContext_map_promote, hcontext]
    rw [selectBest_of_needsContext hcontext, selectBest_of_needsContext hneeds, hagain, List.map_map]
    exact List.map_congr_left fun c _ => c.promote_promote
  | false =>
    have hneeds : needsContext (shortlist (shortlist candidates)) = false := by
      rw [shortlist_shortlist, hcontext]
    rw [selectBest_of_not_needsContext hcontext, selectBest_of_not_needsContext hneeds,
      shortlist_shortlist]

/-! ### Another order -/

theorem perm_loneStrongOrAll (h : reordered.Perm candidates) :
    (loneStrongOrAll reordered).Perm (loneStrongOrAll candidates) := by
  have hstrong := h.filter isStrong
  by_cases hlone : ∃ strong, candidates.filter isStrong = [strong]
  · obtain ⟨strong, hone⟩ := hlone
    rw [hone, List.perm_singleton] at hstrong
    rw [loneStrongOrAll_of_lone hone, loneStrongOrAll_of_lone hstrong]
  · have hmany : ∀ strong, reordered.filter isStrong ≠ [strong] := fun strong hone =>
      hlone ⟨strong, List.singleton_perm.mp (hone ▸ hstrong) |>.symm⟩
    rw [loneStrongOrAll_of_not_lone (not_exists.mp hlone), loneStrongOrAll_of_not_lone hmany]
    exact h

theorem perm_shortlist (h : reordered.Perm candidates) :
    (shortlist reordered).Perm (shortlist candidates) := by
  by_cases hmisslike : ∃ c ∈ candidates, c.misslike ≠ []
  · have hreordered : ∃ c ∈ reordered, c.misslike ≠ [] := by simpa only [h.mem_iff] using hmisslike
    rw [shortlist_of_misslike hmisslike, shortlist_of_misslike hreordered]
    exact h.filter isMisslike
  · have hplain : ∀ c ∈ candidates, c.misslike = [] := by simpa using hmisslike
    rw [shortlist_of_plain hplain, shortlist_of_plain fun c hc => hplain c (h.mem_iff.mp hc)]
    refine perm_loneStrongOrAll ?_
    exact (List.mergeSort_perm reordered _).trans (h.trans (List.mergeSort_perm candidates _).symm)

/-- Whether context is needed does not depend on the order: of several candidates it always is. -/
theorem needsContext_of_perm {listed listed' : List ShapeClash} (h : listed'.Perm listed) :
    needsContext listed' = needsContext listed := by
  match listed, h with
  | [], h => rw [h.eq_nil]
  | [c], h => rw [List.perm_singleton.mp h]
  | _ :: _ :: _, h => simp [needsContext, h.length_eq]

theorem perm_selectBest (h : reordered.Perm candidates) :
    (selectBest reordered).Perm (selectBest candidates) := by
  have hlisted := perm_shortlist h
  have hneeds := needsContext_of_perm hlisted
  cases hcontext : needsContext (shortlist candidates) with
  | true =>
    rw [selectBest_of_needsContext hcontext, selectBest_of_needsContext (hneeds.trans hcontext)]
    exact hlisted.map promote
  | false =>
    rw [selectBest_of_not_needsContext hcontext,
      selectBest_of_not_needsContext (hneeds.trans hcontext)]
    exact hlisted

/-- Where no two candidates tie, there is one way to sort them. -/
theorem mergeSort_eq_of_perm (h : reordered.Perm candidates)
    (hties : candidates.Pairwise fun a b => ¬ a.Ties b) :
    reordered.mergeSort comesBefore = candidates.mergeSort comesBefore := by
  have hfirst := stablySorted_mergeSort reordered
  have hsecond := stablySorted_mergeSort candidates
  refine List.Perm.eq_of_pairwise (fun a b ha hb hab hba => ?_) hfirst.ordered hsecond.ordered
    (hfirst.perm.trans (h.trans hsecond.perm.symm))
  have : Std.Symm fun a b : ShapeClash => ¬ a.Ties b :=
    ⟨fun a b hab hba => hab ⟨hba.1.symm, hba.2.symm⟩⟩
  by_contra hne
  exact hties.forall (h.mem_iff.mp (hfirst.perm.mem_iff.mp ha)) (hsecond.perm.mem_iff.mp hb) hne
    (hab.ties hba)

/-- Selecting from what has been selected changes nothing. The order in which the candidates come does
not decide what is shown of them; nor does it decide in which order, if none is declared alike and no two
tie. -/
theorem selectBest_again_and_reordered (candidates : List ShapeClash) :
    selectBest (selectBest candidates) = selectBest candidates ∧
      ∀ reordered : List ShapeClash, reordered.Perm candidates →
        (selectBest reordered).Perm (selectBest candidates) ∧
          ((∀ c ∈ candidates, c.misslike = []) →
            (candidates.Pairwise fun a b => ¬ (a.overlap = b.overlap ∧ a.total = b.total)) →
              selectBest reordered = selectBest candidates) := by
  refine ⟨selectBest_selectBest candidates, fun reordered h => ⟨perm_selectBest h, ?_⟩⟩
  intro hplain hties
  have hlisted : shortlist reordered = shortlist candidates := by
    rw [shortlist_of_plain hplain, shortlist_of_plain fun c hc => hplain c (h.mem_iff.mp hc),
      mergeSort_eq_of_perm h hties]
  rw [selectBest, selectBest, hlisted]

/-- Two of these three candidates are strong, so all of them are shown, in one order whatever order they
come in. -/
theorem selectBest_candidates_again :
    let candidates := [candidateOf 1 4, candidateOf 2 4, candidateOf 2 3]
    let reordered := [candidateOf 2 3, candidateOf 1 4, candidateOf 2 4]
    reordered.Perm candidates ∧ (∀ c ∈ candidates, c.misslike = []) ∧
      (candidates.Pairwise fun a b => ¬ (a.overlap = b.overlap ∧ a.total = b.total)) ∧
      (selectBest reordered).Perm (selectBest candidates) ∧
      selectBest reordered = selectBest candidates ∧
      selectBest candidates =
        [(candidateOf 2 3).promote, (candidateOf 2 4).promote, (candidateOf 1 4).promote] ∧
      selectBest (selectBest candidates) = selectBest candidates := by
  intro candidates reordered
  have hperm : reordered.Perm candidates := by decide
  have hplain : ∀ c ∈ candidates, c.misslike = [] := by decide
  have hties : candidates.Pairwise fun a b => ¬ (a.overlap = b.overlap ∧ a.total = b.total) := by decide
  obtain ⟨hagain, hreordered⟩ := selectBest_again_and_reordered candidates
  obtain ⟨hshown, hequal⟩ := hreordered reordered hperm
  exact ⟨hperm, hplain, hties, hshown, hequal hplain hties, by cbv, hagain⟩

end Misfit
