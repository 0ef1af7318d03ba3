import Misfit.Compare.Overlap

/-!
# The explanations worth showing

Where a source fits none of the members of a union, each member yields a candidate explanation.
Candidates with names that are declared alike win outright. Otherwise a single candidate that overlaps
strongly is shown alone; if none or several do, all are kept, the best first.
-/
namespace Misfit

namespace ShapeClash

/-- The names to tell apart: optional names are shown as context. -/
def promote (c : ShapeClash) : ShapeClash :=
  { c with
    contextual := c.optional
    surplus := c.surplus.map fun s => { s with contextual := s.optional } }

/-- More overlap comes first, and with equal overlap the smaller shape. -/
def comesBefore (a b : ShapeClash) : Bool :=
  b.overlap < a.overlap || (a.overlap = b.overlap && a.total ≤ b.total)

/-- Has names that are declared alike on both sides. -/
def isMisslike (c : ShapeClash) : Bool := c.misslike ≠ []

end ShapeClash

/-- The candidates that are shown, in order. -/
def shortlist (candidates : List ShapeClash) : List ShapeClash :=
  if candidates.length ≤ 1 then candidates
  else
    match candidates.filter ShapeClash.isMisslike with
    | [] =>
      let sorted := candidates.mergeSort ShapeClash.comesBefore
      match sorted.filter ShapeClash.isStrong with
      | [strong] => [strong]
      | _ => sorted
    | misslikes => misslikes

/-- Several candidates, or one with names declared alike, are shown with their context. -/
def needsContext (candidates : List ShapeClash) : Bool :=
  1 < candidates.length || candidates.head?.any ShapeClash.isMisslike

/-- The candidates worth showing, with as much context as it takes to tell them apart. -/
def selectBest (candidates : List ShapeClash) : List ShapeClash :=
  let shown := shortlist candidates
  if needsContext shown then shown.map ShapeClash.promote else shown

theorem mem_of_mem_shortlist {candidates : List ShapeClash} {c : ShapeClash}
    (h : c ∈ shortlist candidates) : c ∈ candidates := by
  have hsorted : ∀ d ∈ candidates.mergeSort ShapeClash.comesBefore, d ∈ candidates :=
    fun d hd => (List.mergeSort_perm candidates _).subset hd
  unfold shortlist at h
  split at h
  · exact h
  · split at h
    · dsimp only at h
      split at h
      · rename_i strong hstrong
        have hmem : c ∈ (candidates.mergeSort ShapeClash.comesBefore).filter ShapeClash.isStrong :=
          hstrong ▸ h
        exact hsorted c (List.mem_filter.mp hmem).1
      · exact hsorted c h
    · exact (List.mem_filter.mp h).1

/-- What is shown is a candidate, up to the context that it is shown with. -/
theorem eq_or_eq_promote_of_mem_selectBest {candidates : List ShapeClash} {c : ShapeClash}
    (h : c ∈ selectBest candidates) : ∃ d ∈ candidates, c = d ∨ c = d.promote := by
  unfold selectBest at h
  dsimp only at h
  split at h
  · obtain ⟨d, hd, rfl⟩ := List.mem_map.mp h
    exact ⟨d, mem_of_mem_shortlist hd, Or.inr rfl⟩
  · exact ⟨c, mem_of_mem_shortlist h, Or.inl rfl⟩

theorem shortlist_ne_nil {candidates : List ShapeClash} (h : candidates ≠ []) :
    shortlist candidates ≠ [] := by
  unfold shortlist
  split
  · exact h
  · split
    · dsimp only
      split
      · simp
      · intro he
        exact h (List.Perm.eq_nil (he ▸ (List.mergeSort_perm candidates _).symm))
    · assumption

/-- Something is shown whenever there is something to show. -/
theorem selectBest_ne_nil {candidates : List ShapeClash} (h : candidates ≠ []) :
    selectBest candidates ≠ [] := by
  unfold selectBest
  dsimp only
  split
  · simpa using shortlist_ne_nil h
  · exact shortlist_ne_nil h

end Misfit
