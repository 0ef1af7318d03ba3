import Misfit.Compare.Select
import Mathlib.Data.List.Forall2
import Mathlib.Data.List.Permutation

/-!
# The selection of explanations

What is shown of several candidates, said without the steps that choose it. The rules name the shortlist
first: candidates with names declared alike win, otherwise the candidates are sorted, and a single strong
one stands alone. Then they say which context the shortlist is shown with. The rules leave nothing open,
so they hold of one list only, and that is the list that is selected.

How far two shapes overlap is taken as an exact quotient here, which it is as long as the counts have no
more bits than a floating-point number.
-/
namespace Misfit

namespace ShapeClash

/-- The candidate stands before the other one or beside it: it has more overlap, or as much and no more
properties. -/
def Precedes (a b : ShapeClash) : Prop :=
  b.overlap < a.overlap ∨ a.overlap = b.overlap ∧ a.total ≤ b.total

/-- Both candidates have the same overlap and the same number of properties. -/
def Ties (a b : ShapeClash) : Prop := a.overlap = b.overlap ∧ a.total = b.total

instance (a b : ShapeClash) : Decidable (a.Ties b) := inferInstanceAs (Decidable (_ ∧ _))

/-- The overlap is more than half of the names that have to be there, on the target or on the source if
it was looked at. -/
def Strong (c : ShapeClash) : Prop :=
  c.total - c.optional.length < 2 * c.overlap ∨
    ∃ s ∈ c.surplus, c.total - s.optional.length < 2 * c.overlap

instance (c : ShapeClash) : Decidable c.Strong := inferInstanceAs (Decidable (_ ∨ _))

/-- The candidate without its context. -/
def bare (c : ShapeClash) : ShapeClash :=
  { c with contextual := [], surplus := c.surplus.map fun s => { s with contextual := [] } }

/-- What a candidate is shown as: with its optional names as context or with the context that it had, and
otherwise as it was. -/
structure ShownAs (context : Bool) (c shown : ShapeClash) : Prop where
  bare : shown.bare = c.bare
  contextual : shown.contextual = if context then c.optional else c.contextual
  surplus : shown.surplus.map Surplus.contextual =
    c.surplus.map (if context then Surplus.optional else Surplus.contextual)

end ShapeClash

open ShapeClash

/-- The candidates in order, where those that tie keep the order they had. -/
structure StablySorted (candidates sorted : List ShapeClash) : Prop where
  perm : sorted.Perm candidates
  ordered : sorted.Pairwise Precedes
  stable : ∀ c, sorted.filter (Ties c ·) = candidates.filter (Ties c ·)

/-- The shortlist of some candidates. -/
inductive Shortlisted (candidates : List ShapeClash) : List ShapeClash → Prop
  | few (h : candidates.length ≤ 1) : Shortlisted candidates candidates
  | alike (h : 1 < candidates.length) (hm : ∃ c ∈ candidates, c.misslike ≠ []) :
      Shortlisted candidates (candidates.filter (·.misslike ≠ []))
  | lone {strong : ShapeClash} (h : 1 < candidates.length) (hm : ∀ c ∈ candidates, c.misslike = [])
      (hs : candidates.filter (Strong ·) = [strong]) : Shortlisted candidates [strong]
  | all {sorted : List ShapeClash} (h : 1 < candidates.length)
      (hm : ∀ c ∈ candidates, c.misslike = []) (hs : candidates.countP (Strong ·) ≠ 1)
      (hsorted : StablySorted candidates sorted) : Shortlisted candidates sorted

/-- The shortlist has to be told apart: it has several candidates, or the first has names declared
alike. -/
def ToTellApart (listed : List ShapeClash) : Prop :=
  1 < listed.length ∨ ∃ first ∈ listed.head?, first.misslike ≠ []

instance (listed : List ShapeClash) : Decidable (ToTellApart listed) :=
  inferInstanceAs (Decidable (_ ∨ _))

/-- The explanations to show for some candidates: the shortlist, with context if it has to be told
apart. -/
def Selected (candidates shown : List ShapeClash) : Prop :=
  ∃ listed, Shortlisted candidates listed ∧
    List.Forall₂ (ShownAs (ToTellApart listed)) listed shown

namespace ShapeClash

variable {a b c : ShapeClash}

theorem Precedes.ties (h : a.Precedes b) (h' : b.Precedes a) : a.Ties b := by
  simp only [Precedes, Ties] at *
  omega

theorem ties_self (a : ShapeClash) : a.Ties a := ⟨rfl, rfl⟩

theorem comesBefore_iff : a.comesBefore b = true ↔ a.Precedes b := by
  simp [comesBefore, Precedes]

theorem isStrong_iff (ho : c.overlap < Binary64.exactBound) (ht : c.total < Binary64.exactBound) :
    c.isStrong = true ↔ c.Strong := by
  have hexceeds : ∀ optional, (Share.mk c.overlap (c.total - optional)).exceedsHalf = true ↔
      c.total - optional < 2 * c.overlap :=
    fun optional => Share.exceedsHalf_iff ho (Nat.lt_of_le_of_lt (Nat.sub_le _ _) ht)
  simp only [isStrong, Strong, forwardShare, reverseShare, Bool.or_eq_true, hexceeds]
  cases c.surplus <;> simp [hexceeds]

theorem shownAs_self (c : ShapeClash) : c.ShownAs false c := ⟨rfl, rfl, rfl⟩

theorem shownAs_promote (c : ShapeClash) : c.ShownAs true c.promote where
  bare := by simp [bare, promote, Function.comp_def]
  contextual := rfl
  surplus := by simp [promote, Function.comp_def]

theorem surplus_ext {s s' : Option Surplus}
    (hnames : s.map (fun s => { s with contextual := [] }) =
      s'.map fun s => { s with contextual := [] })
    (hcontextual : s.map Surplus.contextual = s'.map Surplus.contextual) : s = s' := by
  cases s <;> cases s' <;> simp_all
  rename_i s s'
  obtain ⟨⟩ := s
  obtain ⟨⟩ := s'
  simp_all

/-- What a candidate is shown as is settled. -/
theorem ShownAs.unique {context : Bool} (ha : c.ShownAs context a) (hb : c.ShownAs context b) :
    a = b := by
  have hbare := ha.bare.trans hb.bare.symm
  have hcontextual := ha.contextual.trans hb.contextual.symm
  have hsurplus : a.surplus = b.surplus :=
    surplus_ext (congrArg ShapeClash.surplus hbare) (ha.surplus.trans hb.surplus.symm)
  obtain ⟨⟩ := a
  obtain ⟨⟩ := b
  simp_all [ShapeClash.bare]

end ShapeClash

/-- Lists that agree on the candidates of every rank have the same candidates. -/
theorem mem_iff_of_filter_ties {first second : List ShapeClash}
    (h : ∀ c, first.filter (Ties c ·) = second.filter (Ties c ·)) (c : ShapeClash) :
    c ∈ first ↔ c ∈ second := by
  have hc := congrArg (c ∈ ·) (h c)
  simpa [ties_self] using hc

/-- Lists in order are equal if they agree on the candidates of every rank. By induction: the heads tie,
so each is the first one of its rank. -/
theorem eq_of_ordered {first second : List ShapeClash} (hfirst : first.Pairwise Precedes)
    (hsecond : second.Pairwise Precedes)
    (h : ∀ c, first.filter (Ties c ·) = second.filter (Ties c ·)) : first = second := by
  have hmem := mem_iff_of_filter_ties h
  induction first generalizing second with
  | nil => exact (List.eq_nil_iff_forall_not_mem.mpr fun c hc => by simpa using (hmem c).mpr hc).symm
  | cons a rest ih =>
    cases second with
    | nil => simpa using (hmem a).mp List.mem_cons_self
    | cons b rest' =>
      obtain ⟨ha, hrest⟩ := List.pairwise_cons.mp hfirst
      obtain ⟨hb, hrest'⟩ := List.pairwise_cons.mp hsecond
      have hties : a.Ties b := by
        rcases List.mem_cons.mp ((hmem a).mp List.mem_cons_self) with rfl | hab
        · exact ties_self a
        rcases List.mem_cons.mp ((hmem b).mpr List.mem_cons_self) with rfl | hba
        · exact ties_self b
        exact (ha b hba).ties (hb a hab)
      have hheads := h a
      simp only [List.filter_cons, ties_self, hties, decide_true, if_true, List.cons.injEq] at hheads
      obtain ⟨rfl, -⟩ := hheads
      have htails : ∀ c, rest.filter (Ties c ·) = rest'.filter (Ties c ·) := by
        intro c
        by_cases hc : c.Ties a <;> simpa [hc] using h c
      exact congrArg (a :: ·) (ih hrest hrest' htails (mem_iff_of_filter_ties htails))

theorem StablySorted.unique {candidates first second : List ShapeClash}
    (hfirst : StablySorted candidates first) (hsecond : StablySorted candidates second) :
    first = second :=
  eq_of_ordered hfirst.ordered hsecond.ordered fun c => (hfirst.stable c).trans (hsecond.stable c).symm

theorem stablySorted_mergeSort (candidates : List ShapeClash) :
    StablySorted candidates (candidates.mergeSort comesBefore) := by
  have htrans : ∀ a b c : ShapeClash, a.comesBefore b = true → b.comesBefore c = true →
      a.comesBefore c = true := by
    intro a b c hab hbc
    simp only [comesBefore_iff, Precedes] at *
    omega
  have htotal : ∀ a b : ShapeClash, (a.comesBefore b || b.comesBefore a) = true := by
    intro a b
    simp only [Bool.or_eq_true, comesBefore_iff, Precedes]
    omega
  have hperm := List.mergeSort_perm candidates comesBefore
  refine ⟨hperm, ?_, fun c => ?_⟩
  · exact (List.pairwise_mergeSort htrans htotal candidates).imp comesBefore_iff.mp
  · -- Candidates that tie are in order among themselves, so sorting leaves them in their order.
    have htied : (candidates.filter (Ties c ·)).Pairwise fun a b => a.comesBefore b = true := by
      refine List.pairwise_of_forall_mem_list fun a ha b hb => comesBefore_iff.mpr (Or.inr ?_)
      have hca : c.Ties a := by simpa using (List.mem_filter.mp ha).2
      have hcb : c.Ties b := by simpa using (List.mem_filter.mp hb).2
      exact ⟨hca.1.symm.trans hcb.1, Nat.le_of_eq (hca.2.symm.trans hcb.2)⟩
    have hsub := (List.sublist_mergeSort htrans htotal htied List.filter_sublist).filter (Ties c ·)
    simp only [List.filter_filter, Bool.and_self] at hsub
    exact (hsub.eq_of_length (hperm.filter _).length_eq.symm).symm

/-- The rules allow one shortlist. -/
theorem Shortlisted.unique {candidates first second : List ShapeClash}
    (hfirst : Shortlisted candidates first) (hsecond : Shortlisted candidates second) :
    first = second := by
  have hcount : ∀ {strong : ShapeClash}, candidates.filter (Strong ·) = [strong] →
      candidates.countP (Strong ·) = 1 := fun hs => by
    rw [List.countP_eq_length_filter, hs, List.length_singleton]
  cases hfirst with
  | few h =>
    cases hsecond with
    | few _ => rfl
    | alike h' _ | lone h' _ _ | all h' _ _ _ => omega
  | alike h hm =>
    obtain ⟨c, hc, hne⟩ := hm
    cases hsecond with
    | few h' => omega
    | alike _ _ => rfl
    | lone _ hm' _ | all _ hm' _ _ => exact (hne (hm' c hc)).elim
  | lone h hm hs =>
    cases hsecond with
    | few h' => omega
    | alike _ hm' =>
      obtain ⟨c, hc, hne⟩ := hm'
      exact (hne (hm c hc)).elim
    | lone _ _ hs' => exact hs.symm.trans hs'
    | all _ _ hs' _ => exact (hs' (hcount hs)).elim
  | all h hm hs hsorted =>
    cases hsecond with
    | few h' => omega
    | alike _ hm' =>
      obtain ⟨c, hc, hne⟩ := hm'
      exact (hne (hm c hc)).elim
    | lone _ _ hs' => exact (hs (hcount hs')).elim
    | all _ _ _ hsorted' => exact hsorted.unique hsorted'

variable {candidates : List ShapeClash}

/-- The counts of the candidates have no more than 53 bits. -/
def ExactCounts (candidates : List ShapeClash) : Prop :=
  ∀ c ∈ candidates, c.overlap < Binary64.exactBound ∧ c.total < Binary64.exactBound

instance (candidates : List ShapeClash) : Decidable (ExactCounts candidates) :=
  inferInstanceAs (Decidable (∀ c ∈ candidates, _))

theorem filter_isStrong (h : ExactCounts candidates) :
    candidates.filter isStrong = candidates.filter (Strong ·) :=
  List.filter_congr fun c hc => by
    rw [Bool.eq_iff_iff, isStrong_iff (h c hc).1 (h c hc).2, decide_eq_true_iff]

/-- Among the sorted candidates the strong ones are those of the candidates, in another order. -/
theorem perm_filter_strong (h : ExactCounts candidates) :
    ((candidates.mergeSort comesBefore).filter isStrong).Perm (candidates.filter (Strong ·)) :=
  filter_isStrong h ▸ (List.mergeSort_perm candidates comesBefore).filter isStrong

theorem shortlisted_shortlist (h : ExactCounts candidates) :
    Shortlisted candidates (shortlist candidates) := by
  unfold shortlist
  split
  · rename_i hfew
    exact .few hfew
  · rename_i hmany
    have hmany : 1 < candidates.length := by omega
    split
    · rename_i hnone
      have hplain : ∀ c ∈ candidates, c.misslike = [] := by
        simpa [isMisslike] using List.filter_eq_nil_iff.mp hnone
      have hperm := perm_filter_strong h
      dsimp only
      split
      · rename_i strong hstrong
        rw [hstrong] at hperm
        exact .lone hmany hplain (List.singleton_perm.mp hperm).symm
      · rename_i hother
        refine .all hmany hplain (fun hone => ?_) (stablySorted_mergeSort candidates)
        rw [List.countP_eq_length_filter, ← hperm.length_eq] at hone
        obtain ⟨strong, hstrong⟩ := List.length_eq_one_iff.mp hone
        exact hother strong hstrong
    · rename_i hsome
      obtain ⟨c, hc⟩ := List.exists_mem_of_ne_nil _ hsome
      obtain ⟨hmem, hmisslike⟩ := List.mem_filter.mp hc
      exact .alike hmany ⟨c, hmem, by simpa [isMisslike] using hmisslike⟩

theorem needsContext_iff {listed : List ShapeClash} :
    needsContext listed = true ↔ ToTellApart listed := by
  simp [needsContext, ToTellApart, isMisslike, Option.any_eq_true]

/-- What is selected follows the rules. -/
theorem selected_selectBest (h : ExactCounts candidates) : Selected candidates (selectBest candidates) := by
  refine ⟨shortlist candidates, shortlisted_shortlist h, ?_⟩
  unfold selectBest
  dsimp only
  by_cases hcontext : needsContext (shortlist candidates) = true
  · rw [if_pos hcontext, decide_eq_true (needsContext_iff.mp hcontext), List.forall₂_map_right_iff]
    exact List.forall₂_same.mpr fun c _ => shownAs_promote c
  · rw [if_neg hcontext, decide_eq_false (mt needsContext_iff.mpr hcontext)]
    exact List.forall₂_same.mpr fun c _ => shownAs_self c

/-- The rules allow one selection. -/
theorem Selected.unique {first second : List ShapeClash} (hfirst : Selected candidates first)
    (hsecond : Selected candidates second) : first = second := by
  obtain ⟨listed, hlisted, hshown⟩ := hfirst
  obtain ⟨listed', hlisted', hshown'⟩ := hsecond
  obtain rfl := hlisted.unique hlisted'
  have hunique : Relator.RightUnique (ShownAs (ToTellApart listed)) := fun _ _ _ => ShownAs.unique
  exact hunique.forall₂ hshown hshown'

/-- The selection is what the rules allow, as long as the counts are exact. -/
theorem selected_iff {shown : List ShapeClash} (h : ExactCounts candidates) :
    Selected candidates shown ↔ shown = selectBest candidates :=
  ⟨fun hshown => hshown.unique (selected_selectBest h), fun heq => heq ▸ selected_selectBest h⟩

/-- A candidate with so much overlap, so many properties and one optional name. -/
def candidateOf (overlap total : Nat) : ShapeClash :=
  { targetSide := {}, sourceSide := {}, optional := ["note"], overlap, total
    surplus := some { optional := ["hint"] } }

/-- One of the first three candidates is strong, and it stands alone. Of the last three two are, so all
are shown, the smaller of two that overlap as much first, with their optional names as context. -/
theorem selectBest_candidates :
    ExactCounts [candidateOf 1 4, candidateOf 2 4, candidateOf 0 3] ∧
      Selected [candidateOf 1 4, candidateOf 2 4, candidateOf 0 3] [candidateOf 2 4] ∧
      ExactCounts [candidateOf 1 4, candidateOf 2 4, candidateOf 2 3] ∧
      Selected [candidateOf 1 4, candidateOf 2 4, candidateOf 2 3]
        [(candidateOf 2 3).promote, (candidateOf 2 4).promote, (candidateOf 1 4).promote] := by
  have hlone : ExactCounts [candidateOf 1 4, candidateOf 2 4, candidateOf 0 3] := by decide
  have hall : ExactCounts [candidateOf 1 4, candidateOf 2 4, candidateOf 2 3] := by decide
  exact ⟨hlone, (selected_iff hlone).mpr (by cbv), hall,
    (selected_iff hall).mpr (by cbv)⟩

end Misfit
