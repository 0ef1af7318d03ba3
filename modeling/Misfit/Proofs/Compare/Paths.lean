import Misfit.Proofs.Compare.Relaxed

/-!
# Comparisons on different paths

A comparison takes the pairs on its path for granted. Set on another path, it accepts the same if that
path makes up for what is missing on it: a pair that is missing may consist of arrays whose elements are
on the other path, it may never come up, or it may be compatible anyway.
-/
namespace Misfit

namespace Comparison

variable (c : Comparison)

/-- The comparer accepts the pair in layers of the given depth, in every state of the walk from `w₀`
on. -/
def AcceptedFrom (inner : Comparer LoggedWalk) (w₀ : LoggedWalk) (depth : Nat)
    (target source : TypeId) : Prop :=
  ∀ trail w, trail.length = depth → LoggedWalk.Later w₀ w → (inner target source trail w).1 = none

/-- The elements of the source array, and of an array among the members of the target, are on the path of
the walk or under comparison. -/
def ElementsMet (w : LoggedWalk) (next : TypeId × TypeId) (target source : TypeId) : Prop :=
  ∃ k ∈ c.program.types.members target, ∃ te se, c.program.types.element? k = some te ∧
    c.program.types.element? source = some se ∧ (w.OnPath te se ∨ (te, se) = next)

/-- Seen from a pair under comparison, the path of `w'` makes up for the path of `w`. -/
def MakesUpFor (w' w : LoggedWalk) (next : TypeId × TypeId) : Prop :=
  ∀ t s, w.OnPath t s →
    w'.OnPath t s ∨ c.ElementsMet w' next t s ∨ ¬c.ComesUp next (t, s) ∨ c.Compat t s

variable {c} {target source : TypeId} {trail : Trail}

theorem widens_congr {trail' : Trail} (h : trail'.length = trail.length) :
    c.widens trail' = c.widens trail := by
  rw [widens, widens, h]

/-- A member is accepted on the answers to the pairs that come next. -/
theorem AcceptedAmong.along {wide : Bool} {X Y : TypeId → TypeId → Prop} {m : TypeId}
    (hm : m ∈ c.program.types.members source)
    (h : c.AcceptedAmong wide (fun t s => c.GoesOnTo (target, source) (t, s) → X t s)
      (fun t s => c.GoesOnTo (target, source) (t, s) → Y t s) (c.program.types.members target) m) :
    c.AcceptedAmong wide X Y (c.program.types.members target) m := by
  cases h with
  | @array k ha hk h =>
    refine .array ha hk (h.imp_right ?_)
    rintro ⟨te, me, hte, hme, hx⟩
    exact ⟨te, me, hte, hme, hx (.elements hk hm hte hme)⟩
  | @other k ha hk h =>
    refine .other ha hk fun pair hp => h pair hp ?_
    -- Where pairs are left open, no literal has been widened.
    have hf : c.fitsAtOnce wide k m = false := by
      cases hf : c.fitsAtOnce wide k m with
      | false => rfl
      | true => simp [openPairs, hf] at hp
    have hf' : c.fitsAtOnce false k m = false := by
      cases hf' : c.fitsAtOnce false k m with
      | false => rfl
      | true => simp [fitsAtOnce_of_triviallyFits (by simpa using hf') wide] at hf
    exact .opened hm (find?_agrees_false hk hf) (by simpa [openPairs, hf, hf'] using hp)

/-- A round accepts on the answers to the pairs that come next. -/
theorem Round.along {wide : Bool} {X Y : TypeId → TypeId → Prop}
    (h : c.Round wide (fun t s => c.GoesOnTo (target, source) (t, s) → X t s)
      (fun t s => c.GoesOnTo (target, source) (t, s) → Y t s) target source) :
    c.Round wide X Y target source := by
  cases h with
  | trivial h => exact .trivial h
  | elements ht hs h => exact .elements ht hs (h (goesOnTo_elements ht hs))
  | members ht hs h => exact .members ht hs fun m hm => (h m hm).along hm

theorem ElementsMet.mono {w w' : LoggedWalk} {next next' : TypeId × TypeId}
    (h : c.ElementsMet w next target source) (hpath : ∀ t s, w.OnPath t s → w'.OnPath t s)
    (hnext : w'.OnPath next.1 next.2) : c.ElementsMet w' next' target source := by
  obtain ⟨k, hk, te, se, hte, hse, hmet | rfl⟩ := h
  · exact ⟨k, hk, te, se, hte, hse, Or.inl (hpath te se hmet)⟩
  · exact ⟨k, hk, te, se, hte, hse, Or.inl hnext⟩

/-- Where both paths go on to the pair under comparison, the one still makes up for the other, seen from
any pair that comes next. -/
theorem MakesUpFor.enter {w w' v v' : LoggedWalk} (h : c.MakesUpFor w' w (target, source))
    (hon : ∀ t s, v.OnPath t s ↔ (t = target ∧ s = source) ∨ w.OnPath t s)
    (hon' : ∀ t s, v'.OnPath t s ↔ (t = target ∧ s = source) ∨ w'.OnPath t s)
    {next : TypeId × TypeId} (hnext : c.GoesOnTo (target, source) next) : c.MakesUpFor v' v next := by
  intro t s honpath
  rcases (hon t s).mp honpath with hpair | honpath
  · exact Or.inl ((hon' t s).mpr (Or.inl hpair))
  · rcases h t s honpath with hpath | hmet | hup | hcompat
    · exact Or.inl ((hon' t s).mpr (Or.inr hpath))
    · exact Or.inr (Or.inl (hmet.mono (fun t s ht => (hon' t s).mpr (Or.inr ht))
        ((hon' _ _).mpr (Or.inl ⟨rfl, rfl⟩))))
    · exact Or.inr (Or.inr (Or.inl fun hup' => hup (.head hnext hup')))
    · exact Or.inr (Or.inr (Or.inr hcompat))

/-- An array is accepted in a round where the elements have been met already. -/
theorem ElementsMet.round {wide : Bool} {w : LoggedWalk} {Y : TypeId → TypeId → Prop}
    (h : c.ElementsMet w (target, source) target source) (hon : w.OnPath target source) :
    c.Round wide w.OnPath Y target source := by
  obtain ⟨k, hk, te, se, hte, hse, hmet⟩ := h
  have hpath : w.OnPath te se := by
    rcases hmet with hmet | heq
    · exact hmet
    · obtain ⟨rfl, rfl⟩ := Prod.mk.inj heq
      exact hon
  cases ht : c.program.types.isUnion target with
  | false =>
    obtain rfl := Types.eq_of_mem_members ht hk
    exact .elements hte hse hpath
  | true =>
    have hsource : c.program.types.isArray source = true := Types.isArray_iff.mpr ⟨se, hse⟩
    refine .members (fun ha => ?_) (fun _ => ht) fun m hm => ?_
    · simp [Types.isArray_eq_false_of_isUnion ht] at ha
    · obtain rfl := Types.eq_of_mem_members (Types.isUnion_eq_false_of_isArray hsource) hm
      exact .array hsource hk (Or.inr ⟨te, se, hte, hse, hpath⟩)

/-- Only the paths matter. -/
theorem MakesUpFor.later {w w' v v' : LoggedWalk} {next : TypeId × TypeId}
    (h : c.MakesUpFor w' w next) (hv : LoggedWalk.Later w v) (hv' : LoggedWalk.Later w' v') :
    c.MakesUpFor v' v next := by
  unfold MakesUpFor ElementsMet
  rw [hv.onPath, hv'.onPath]
  exact h

variable (c) in
/-- With so much depth left on either side, a comparison accepts what another one accepts if its path
makes up for the path of the other. -/
def CarriesOver (n n' : Nat) : Prop :=
  ∀ ⦃target source : TypeId⦄ ⦃trail trail' : Trail⦄ ⦃w w' : LoggedWalk⦄,
    trail'.length = trail.length → w.walk.limits.depth ≤ n + w.walk.depth →
    (c.compareLogged n target source trail w).2.WithinLimits →
    (c.compareLogged n target source trail w).1 = none → c.MakesUpFor w' w (target, source) →
    (c.compareLogged n' target source trail' w').1 = none

/-- What comes next is accepted on the other path too. -/
theorem CarriesOver.yields {n n' : Nat} (h : c.CarriesOver n n') {v v' v₁ : LoggedWalk}
    (hd : v.walk.limits.depth ≤ n + v.walk.depth) (hl : v₁.WithinLimits)
    (hmakes : ∀ next, c.GoesOnTo (target, source) next → c.MakesUpFor v' v next) (trail : Trail) :
    Yields (c.compareLogged n) LoggedWalk.Later trail v v₁ fun t s =>
      c.GoesOnTo (target, source) (t, s) →
        AcceptedFrom (c.compareLogged n') v' trail.length t s := by
  intro t s u hu hu' hnone hnext trail' u' hlength hlater
  have hdu : u.walk.limits.depth ≤ n + u.walk.depth := by
    rw [hu.limits, hu.depth]
    exact hd
  exact h hlength hdu (LoggedWalk.WithinLimits.of_later hl hu') hnone
    ((hmakes (t, s) hnext).later hu hlater)

/-- A round that accepts on one path meets the rules on another one that makes up for it, seen from every
pair that comes next. -/
theorem CarriesOver.round {n n' : Nat} (h : c.CarriesOver n n') {v v' : LoggedWalk}
    (hd : v.walk.limits.depth ≤ n + v.walk.depth)
    (hl : (c.compareEntered (c.compareLogged n) target source trail v).2.WithinLimits)
    (haccepted : (c.compareEntered (c.compareLogged n) target source trail v).1 = none)
    (hmakes : ∀ next, c.GoesOnTo (target, source) next → c.MakesUpFor v' v next) :
    c.Round (c.widens trail) (AcceptedFrom (c.compareLogged n') v' trail.length)
      (AcceptedFrom (c.compareLogged n') v' (trail.length + 1)) target source :=
  (round_of_compareEntered (moves_compareLogged n) (h.yields hd hl hmakes trail)
    (fun trail' hlength => hlength ▸ h.yields hd hl hmakes trail') (Prod.ext haccepted rfl)).along

/-- A round accepts where the rules are met on what is going to be accepted. -/
theorem compareEntered_of_acceptedFrom {n : Nat} {trail' : Trail} {v : LoggedWalk}
    (ht : trail'.length = trail.length)
    (h : c.Round (c.widens trail) (AcceptedFrom (c.compareLogged n) v trail.length)
      (AcceptedFrom (c.compareLogged n) v (trail.length + 1)) target source) :
    (c.compareEntered (c.compareLogged n) target source trail' v).1 = none := by
  rw [← widens_congr ht] at h
  refine compareEntered_of_round (moves_compareLogged n) ?_ ?_ h
  · exact fun t s u hu haccepted => haccepted trail' u ht hu
  · exact fun trail₂ hlength t s u hu haccepted => haccepted trail₂ u (hlength.trans (by rw [ht])) hu

/-- By induction on the depth that is left on the other path. Where the first comparison stops at a pair
that is missing there, the second one goes on, and stops at the elements or finds the pair compatible. -/
theorem carriesOver (n n' : Nat) : c.CarriesOver n n' := by
  induction n' generalizing n with
  | zero => exact fun _ _ _ _ _ _ _ _ _ _ _ => rfl
  | succ n' ih =>
    intro target source trail trail' w w' ht hd hl h hmakes
    by_cases hw' : (w'.enter (target, source)).1 = .entered
    swap
    · rw [compareLogged_of_refused hw']
    have hon' := LoggedWalk.onPath_enter hw'
    rcases onPath_or_acceptedRound hd hl h with hon | ⟨m, v, -, hv⟩
    · rcases hmakes _ _ hon with hpath | hmet | hup | hcompat
      · exact (LoggedWalk.not_onPath_of_entered hw' hpath).elim
      · have hself := (hon' target source).mpr (Or.inl ⟨rfl, rfl⟩)
        have hmet' : c.ElementsMet (w'.enter (target, source)).2 (target, source) target source :=
          hmet.mono (fun t s honpath => (hon' t s).mpr (Or.inr honpath)) hself
        rw [compareLogged_of_entered hw']
        exact compareEntered_of_round (moves_compareLogged n')
          (fun t s u hu hts => compareLogged_of_onPath (hu.onPath ▸ hts))
          (Y := fun _ _ => False) (fun _ _ _ _ _ _ hfalse => hfalse.elim) (hmet'.round hself)
      · exact (hup .refl).elim
      · exact compareLogged_of_compat hcompat
    · rw [compareLogged_of_entered hw']
      exact compareEntered_of_acceptedFrom ht ((ih m).round hv.depth hv.withinLimits hv.accepted
        fun next hnext => hmakes.enter hv.onPath hon' hnext)

end Comparison

end Misfit
