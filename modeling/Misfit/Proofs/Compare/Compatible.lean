import Misfit.Proofs.Compare.Answers
import Misfit.Proofs.Compare.Round
import Mathlib.Order.FixedPoints

/-!
# Coinductive compatibility

Types can mention themselves, so the rules of a round alone do not say which types fit. They fit if they
are in the largest relation whose pairs meet the rules on pairs of that relation. The guard cuts every
walk through these pairs short where it comes back to where it has been. That is what reasoning under
assumptions does: a pair on the path is assumed, and assuming the pair that is under comparison adds
nothing to what fits without. So a comparison that meets no limit decides compatibility.
-/
namespace Misfit

namespace Comparison

variable (c : Comparison)

/-- One round of the rules, as an operator on relations between types. -/
def roundOn : (TypeId → TypeId → Prop) →o (TypeId → TypeId → Prop) where
  toFun X := c.Round false X X
  monotone' _ _ h _ _ := Round.mono h h

/-- The largest relation whose pairs fit by a round on pairs of the relation. -/
def Compat : TypeId → TypeId → Prop := c.roundOn.gfp

/-- The operator that adds the pairs of `A` to a relation. -/
def assuming (A : TypeId → TypeId → Prop) :
    (TypeId → TypeId → Prop) →o (TypeId → TypeId → Prop) where
  toFun X t s := X t s ∨ A t s
  monotone' _ _ h t s := Or.imp_left (h t s)

/-- The largest relation whose pairs fit by a round on pairs of the relation and of `A`. -/
def CompatUnder (A : TypeId → TypeId → Prop) : TypeId → TypeId → Prop :=
  (c.roundOn.comp (assuming A)).gfp

variable {c} {target source : TypeId}

theorem compat_iff_round :
    c.Compat target source ↔ c.Round false c.Compat c.Compat target source := by
  have h := OrderHom.map_gfp c.roundOn
  exact iff_of_eq (congrFun (congrFun h.symm target) source)

/-- Coinduction: a relation whose pairs fit by a round on its pairs holds of compatible types only. -/
theorem compat_of_round {X : TypeId → TypeId → Prop}
    (hX : ∀ t s, X t s → c.Round false X X t s) (h : X target source) : c.Compat target source :=
  OrderHom.le_gfp c.roundOn (a := X) hX target source h

theorem compatUnder_iff_round {A : TypeId → TypeId → Prop} :
    c.CompatUnder A target source ↔
      c.Round false (assuming A (c.CompatUnder A)) (assuming A (c.CompatUnder A)) target source := by
  have h := OrderHom.map_gfp (c.roundOn.comp (assuming A))
  exact iff_of_eq (congrFun (congrFun h.symm target) source)

/-- Assuming the pair itself adds nothing to what fits. -/
theorem CompatUnder.discharge {A A' : TypeId → TypeId → Prop}
    (hA : ∀ t s, A' t s → A t s ∨ (t = target ∧ s = source))
    (h : c.CompatUnder A' target source) : c.CompatUnder A target source := by
  refine OrderHom.le_gfp (c.roundOn.comp (assuming A)) (a := c.CompatUnder A') ?_ target source h
  intro t s hts
  have hweaken : ∀ t s, assuming A' (c.CompatUnder A') t s → assuming A (c.CompatUnder A') t s := by
    rintro t' s' (hc | ha)
    · exact Or.inl hc
    · rcases hA t' s' ha with ha | ⟨rfl, rfl⟩
      · exact Or.inr ha
      · exact Or.inl h
  exact (compatUnder_iff_round.mp hts).mono hweaken hweaken

/-- Assumptions that hold add nothing. -/
theorem CompatUnder.compat {A : TypeId → TypeId → Prop} (hA : ∀ t s, A t s → c.Compat t s)
    (h : c.CompatUnder A target source) : c.Compat target source := by
  refine compat_of_round (X := assuming c.Compat (c.CompatUnder A)) ?_ (Or.inl h)
  rintro t s (hts | hts)
  · exact (compatUnder_iff_round.mp hts).mono (fun t' s' => Or.imp_right (hA t' s'))
      fun t' s' => Or.imp_right (hA t' s')
  · exact (compat_iff_round.mp hts).mono (fun _ _ => Or.inr) fun _ _ => Or.inr

variable {n : Nat} {trail : Trail} {w : LoggedWalk}

variable (c) in
/-- No literal is widened in the last layer of the trail or any deeper one. -/
def NeverWidens (trail : Trail) : Prop := c.mode.callArgument = false ∨ 1 < trail.length

theorem NeverWidens.widens_eq_false (h : c.NeverWidens trail) : c.widens trail = false := by
  rcases h with h | h
  · simp [widens, h]
  · have hne : trail.length ≠ 1 := by omega
    simp [widens, hne]

theorem NeverWidens.deeper {trail' : Trail} (h : c.NeverWidens trail)
    (hl : trail'.length = trail.length + 1) : c.NeverWidens trail' := by
  rcases h with h | h
  · exact Or.inl h
  · exact Or.inr (by omega)

/-- Compatible types never conflict, in any mode, in any walk and whatever its limits are. -/
theorem compareLogged_of_compat (h : c.Compat target source) :
    (c.compareLogged n target source trail w).1 = none := by
  induction n generalizing target source trail w with
  | zero => rfl
  | succ n ih =>
    by_cases hw : (w.enter (target, source)).1 = .entered
    · rw [compareLogged_of_entered hw]
      exact compareEntered_of_round (moves_compareLogged n) (X := c.Compat) (Y := c.Compat)
        (fun t s v _ hts => ih hts) (fun trail' _ t s v _ hts => ih hts)
        ((compat_iff_round.mp h).widen (c.widens trail))
    · rw [compareLogged_of_refused hw]

variable (c) in
/-- With so much depth left, what a comparison accepts without meeting a limit is on its path, or it is
compatible if the path is assumed. -/
def SoundWithin (n : Nat) : Prop :=
  ∀ ⦃target source : TypeId⦄ ⦃trail : Trail⦄ ⦃w : LoggedWalk⦄, c.NeverWidens trail →
    w.walk.limits.depth ≤ n + w.walk.depth →
    (c.compareLogged n target source trail w).2.WithinLimits →
    (c.compareLogged n target source trail w).1 = none →
    w.OnPath target source ∨ c.CompatUnder w.OnPath target source

theorem SoundWithin.yields (h : c.SoundWithin n) {v v' : LoggedWalk}
    (hd : v.walk.limits.depth ≤ n + v.walk.depth) (hl : v'.WithinLimits) (hp : c.NeverWidens trail) :
    Yields (c.compareLogged n) LoggedWalk.Later trail v v'
      (assuming v.OnPath (c.CompatUnder v.OnPath)) := by
  intro t s u hu hu' hnone
  have hdu : u.walk.limits.depth ≤ n + u.walk.depth := by
    rw [hu.limits, hu.depth]
    exact hd
  rcases h hp hdu (LoggedWalk.WithinLimits.of_later hl hu') hnone with hpath | hc
  · exact Or.inr (hu.onPath ▸ hpath)
  · exact Or.inl (hu.onPath ▸ hc)

/-- By induction on the depth that is left; the path is the assumption of the induction. -/
theorem soundWithin (n : Nat) : c.SoundWithin n := by
  induction n with
  | zero =>
    intro target source trail w _ hd hl h
    rcases onPath_or_acceptedRound hd hl h with hon | ⟨m, v, hm, -⟩
    · exact Or.inl hon
    · omega
  | succ n ih =>
    intro target source trail w hp hd hl h
    rcases onPath_or_acceptedRound hd hl h with hon | ⟨m, v, hm, hv⟩
    · exact Or.inl hon
    · obtain rfl : m = n := by omega
      have hround := round_of_compareEntered (moves_compareLogged m)
        (ih.yields hv.depth hv.withinLimits hp)
        (fun trail' hl' => ih.yields hv.depth hv.withinLimits (hp.deeper hl')) (Prod.ext hv.accepted rfl)
      rw [hp.widens_eq_false] at hround
      have hunder := compatUnder_iff_round.mpr hround
      exact Or.inr (hunder.discharge fun t s hts => ((hv.onPath t s).mp hts).symm)

/-- What a comparison of its own accepts without meeting a limit is compatible. -/
theorem compat_of_conflict?_eq_none (hp : c.NeverWidens trail)
    (hl : c.StaysWithinLimits target source trail) (h : c.conflict? target source trail = none) :
    c.Compat target source := by
  rw [conflict?_eq_compareLogged] at h
  have hdepth : LoggedWalk.start.walk.limits.depth ≤
      Limits.shapeComparison.depth + LoggedWalk.start.walk.depth := Nat.le_add_right _ _
  rcases soundWithin _ hp hdepth hl h with hon | hc
  · exact (LoggedWalk.not_onPath_start target source hon).elim
  · exact hc.compat fun t s hon => (LoggedWalk.not_onPath_start t s hon).elim

/-- Compatible types never conflict, whatever the mode and whether or not a limit is met. -/
theorem conflict?_eq_none_of_compat (h : c.Compat target source) (trail : Trail) :
    c.conflict? target source trail = none := by
  rw [conflict?_eq_compareLogged]
  exact compareLogged_of_compat h

/-- A comparison that widens no literals and meets no limit decides compatibility. -/
theorem conflict?_eq_none_iff_compat (hmode : c.mode.callArgument = false)
    (hl : c.StaysWithinLimits target source trail) :
    c.conflict? target source trail = none ↔ c.Compat target source :=
  ⟨compat_of_conflict?_eq_none (Or.inl hmode) hl, fun h => conflict?_eq_none_of_compat h trail⟩

/-- Two named types that mention themselves, with one property each, and a third one with one more. -/
def linkedTypes : Types :=
  let (t, first) := Types.initial.declareObject "First"
  let (t, second) := t.declareObject "Second"
  let (t, third) := t.declareObject "Third"
  let next (type : TypeId) : Member := { name := "next", type }
  let t := (t.defineObject first { name := some "First", properties := [next first] }).getD t
  let t := (t.defineObject second { name := some "Second", properties := [next second] }).getD t
  let count : Member := { name := "count", type := TypeId.number }
  (t.defineObject third { name := some "Third", properties := [next third, count] }).getD t

/-- The first two types fit, because the comparison of their properties comes back to them. The third
does not fit the first. -/
theorem compat_linkedTypes :
    let c : Comparison := ⟨{ types := linkedTypes }, {}⟩
    (c.StaysWithinLimits ⟨15⟩ ⟨16⟩ Trail.empty ∧ c.Compat ⟨15⟩ ⟨16⟩) ∧
      c.StaysWithinLimits ⟨15⟩ ⟨17⟩ Trail.empty ∧ ¬c.Compat ⟨15⟩ ⟨17⟩ := by
  intro c
  have hsecond : c.StaysWithinLimits ⟨15⟩ ⟨16⟩ Trail.empty := by decide
  have hthird : c.StaysWithinLimits ⟨15⟩ ⟨17⟩ Trail.empty := by decide
  refine ⟨⟨hsecond, (conflict?_eq_none_iff_compat rfl hsecond).mp (by decide)⟩, hthird, ?_⟩
  rw [← conflict?_eq_none_iff_compat rfl hthird]
  decide

end Comparison

end Misfit
