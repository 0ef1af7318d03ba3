import Misfit.Proofs.Compare.Records

/-!
# The rules of a round

A round sets two types against each other and leaves the pairs below them to a given comparer. The
rules of `Round` say when two types fit, given which pairs below them do. A round that succeeds has
met the rules on the answers it was given, and a round succeeds where the rules are met on answers it
is going to be given. Both hold for any comparer and for whatever is kept on record.
-/
namespace Misfit

namespace Comparison

variable (c : Comparison)

/-- A member of the source is accepted by one of several targets. An array fits any target that it
fits at once or whose elements its elements fit. Everything else commits to the first target that it
agrees with, and the pairs left open there have to fit. -/
inductive AcceptedAmong (wide : Bool) (X Y : TypeId → TypeId → Prop) (targets : List TypeId)
    (member : TypeId) : Prop
  | array {target : TypeId} (ha : c.program.types.isArray member = true) (ht : target ∈ targets)
      (h : c.fitsAtOnce wide target member = true ∨
        ∃ te me, c.program.types.element? target = some te ∧
          c.program.types.element? member = some me ∧ X te me)
  | other {target : TypeId} (ha : c.program.types.isArray member = false)
      (ht : targets.find? (c.agrees wide · member) = some target)
      (h : ∀ pair ∈ c.openPairs wide target member, Y pair.target pair.source)

/-- The rules by which a source fits a target, where `X` holds of the pairs that fit in the same
layer and `Y` of the pairs that fit one layer deeper. -/
inductive Round (wide : Bool) (X Y : TypeId → TypeId → Prop) (target source : TypeId) : Prop
  | trivial (h : c.program.types.triviallyFits target source = true)
  | elements {te se : TypeId} (ht : c.program.types.element? target = some te)
      (hs : c.program.types.element? source = some se) (h : X te se)
  /-- Only a union may be set against an array. -/
  | members (ht : c.program.types.isArray target = true → c.program.types.isUnion source = true)
      (hs : c.program.types.isArray source = true → c.program.types.isUnion target = true)
      (h : ∀ member ∈ c.program.types.members source,
        c.AcceptedAmong wide X Y (c.program.types.members target) member)

variable {c}

theorem AcceptedAmong.mono {wide : Bool} {X X' Y Y' : TypeId → TypeId → Prop}
    (hX : ∀ t s, X t s → X' t s) (hY : ∀ t s, Y t s → Y' t s) {targets : List TypeId}
    {member : TypeId} (h : c.AcceptedAmong wide X Y targets member) :
    c.AcceptedAmong wide X' Y' targets member := by
  cases h with
  | array ha ht h =>
    refine .array ha ht (h.imp_right ?_)
    rintro ⟨te, me, hte, hme, hx⟩
    exact ⟨te, me, hte, hme, hX te me hx⟩
  | other ha ht h => exact .other ha ht fun pair hp => hY _ _ (h pair hp)

theorem Round.mono {wide : Bool} {X X' Y Y' : TypeId → TypeId → Prop}
    (hX : ∀ t s, X t s → X' t s) (hY : ∀ t s, Y t s → Y' t s) {target source : TypeId}
    (h : c.Round wide X Y target source) : c.Round wide X' Y' target source := by
  cases h with
  | trivial h => exact .trivial h
  | elements ht hs h => exact .elements ht hs (hX _ _ h)
  | members ht hs h => exact .members ht hs fun member hm => (h member hm).mono hX hY

/-- Widening literals lets more members through, and leaves nothing open that was not open before. -/
theorem AcceptedAmong.widen {X Y : TypeId → TypeId → Prop} {targets : List TypeId} {member : TypeId}
    (h : c.AcceptedAmong false X Y targets member) (wide : Bool) :
    c.AcceptedAmong wide X Y targets member := by
  cases h with
  | array ha ht h =>
    refine .array ha ht (h.imp_left fun hf => ?_)
    exact fitsAtOnce_of_triviallyFits (by simpa using hf) wide
  | @other target ha ht h =>
    obtain ⟨hagrees, -⟩ := List.find?_eq_some_iff_append.mp ht
    obtain ⟨first, hfirst⟩ :=
      exists_find?_agrees (List.mem_of_find?_eq_some ht) (agrees_widen hagrees wide)
    refine .other ha hfirst ?_
    cases hf : c.fitsAtOnce wide first member with
    | true => simp [openPairs, hf]
    | false =>
      have hsame := find?_agrees_false hfirst hf
      obtain rfl : target = first := Option.some.inj (ht.symm.trans hsame)
      have hf' : c.fitsAtOnce false target member = false := by
        cases hff : c.fitsAtOnce false target member with
        | false => rfl
        | true => simp [fitsAtOnce_of_triviallyFits (by simpa using hff) wide] at hf
      simpa [openPairs, hf, hf'] using h

theorem Round.widen {X Y : TypeId → TypeId → Prop} {target source : TypeId}
    (h : c.Round false X Y target source) (wide : Bool) : c.Round wide X Y target source := by
  cases h with
  | trivial h => exact .trivial h
  | elements ht hs h => exact .elements ht hs h
  | members ht hs h => exact .members ht hs fun member hm => (h member hm).widen wide

/-- The pairs of types among pairs left open. -/
def LeftOpen (pairs : List NestedPair) (target source : TypeId) : Prop :=
  ∃ pair ∈ pairs, pair.target = target ∧ pair.source = source

theorem LeftOpen.append_left {pairs : List NestedPair} {t s : TypeId} (h : LeftOpen pairs t s)
    (more : List NestedPair) : LeftOpen (pairs ++ more) t s := by
  obtain ⟨pair, hp, heq⟩ := h
  exact ⟨pair, List.mem_append_left more hp, heq⟩

theorem LeftOpen.append_right {pairs : List NestedPair} {t s : TypeId} (h : LeftOpen pairs t s)
    (before : List NestedPair) : LeftOpen (before ++ pairs) t s := by
  obtain ⟨pair, hp, heq⟩ := h
  exact ⟨pair, List.mem_append_right before hp, heq⟩

/-- What the comparer accepts in a layer, asked between two states of the records, is in `X`. -/
def Yields {ω : Type} (inner : Comparer ω) (R : ω → ω → Prop) (trail : Trail) (w₀ w₁ : ω)
    (X : TypeId → TypeId → Prop) : Prop :=
  ∀ target source w, R w₀ w → R (inner target source trail w).2 w₁ →
    (inner target source trail w).1 = none → X target source

theorem Yields.sub {ω : Type} {inner : Comparer ω} {R : ω → ω → Prop} [IsPreorder ω R]
    {trail : Trail} {w₀ w w' w₁ : ω} {X : TypeId → TypeId → Prop}
    (h : Yields inner R trail w₀ w₁ X) (hw : R w₀ w) (hw' : R w' w₁) :
    Yields inner R trail w w' X :=
  fun t s v hv hv' hnone => h t s v (trans_of R hw hv) (trans_of R hv' hw') hnone

/-- The comparer accepts whatever is in `X`, in every state of the records from `w₀` on. -/
def Grants {ω : Type} (inner : Comparer ω) (R : ω → ω → Prop) (trail : Trail) (w₀ : ω)
    (X : TypeId → TypeId → Prop) : Prop :=
  ∀ target source w, R w₀ w → X target source → (inner target source trail w).1 = none

theorem Grants.after {ω : Type} {inner : Comparer ω} {R : ω → ω → Prop} [IsPreorder ω R]
    {trail : Trail} {w₀ w : ω} {X : TypeId → TypeId → Prop} (h : Grants inner R trail w₀ X)
    (hw : R w₀ w) : Grants inner R trail w X :=
  fun t s v hv hx => h t s v (trans_of R hw hv) hx

section Conclusions

variable {ω : Type} {inner : Comparer ω} {R : ω → ω → Prop} [IsPreorder ω R] {trail : Trail}
  {X Y : TypeId → TypeId → Prop} {w₀ w w₁ : ω}

/-- An array that is matched has met a target that it fits at once, or one whose elements the comparer
has accepted. -/
theorem accepted_of_firstMatch_isArray (hR : Moves inner R) {member : TypeId}
    (ha : c.program.types.isArray member = true) {targets : List TypeId} {found : Candidates}
    {pairs : List NestedPair}
    (h : c.firstMatch inner trail member targets found w = (.ok pairs, w₁)) :
    ∃ target ∈ targets, c.fitsAtOnce (c.widens trail) target member = true ∨
      ∃ te me w', c.program.types.element? target = some te ∧
        c.program.types.element? member = some me ∧ R w w' ∧ inner te me trail w' = (none, w₁) := by
  induction targets generalizing found w with
  | nil => simp [firstMatch] at h
  | cons target rest ih =>
    cases c.meeting (c.fitsAtOnce (c.widens trail) target member) target member with
    | atOnce hf => exact ⟨target, List.mem_cons_self, Or.inl hf⟩
    | whole hf hne =>
      rw [firstMatch_cons_of_isArray ha hf hne] at h
      obtain ⟨other, hmem, hother⟩ := ih h
      exact ⟨other, List.mem_cons_of_mem target hmem, hother⟩
    | @elements te me hf hte hme =>
      rw [firstMatch_cons_of_elements hf hte hme] at h
      have hw := hR te me trail w
      cases hi : inner te me trail w with
      | mk result w' =>
        rw [hi] at h hw
        cases result with
        | none =>
          simp only [Prod.mk.injEq] at h
          exact ⟨target, List.mem_cons_self, Or.inr ⟨te, me, w, hte, hme, refl_of R w, h.2 ▸ hi⟩⟩
        | some conflict =>
          obtain ⟨other, hmem, hfit | ⟨te', me', v, ht', hm', hv, hfit⟩⟩ := ih h
          · exact ⟨other, List.mem_cons_of_mem target hmem, Or.inl hfit⟩
          · exact ⟨other, List.mem_cons_of_mem target hmem,
              Or.inr ⟨te', me', v, ht', hm', trans_of R hw hv, hfit⟩⟩

theorem accepted_of_firstMatch (hR : Moves inner R) (hX : Yields inner R trail w w₁ X)
    {member : TypeId} {targets : List TypeId} {found : Candidates} {pairs : List NestedPair}
    (h : c.firstMatch inner trail member targets found w = (.ok pairs, w₁)) :
    c.AcceptedAmong (c.widens trail) X (LeftOpen pairs) targets member := by
  by_cases ha : c.program.types.isArray member = true
  · obtain ⟨target, ht, hf | ⟨te, me, w', hte, hme, hw, hi⟩⟩ := accepted_of_firstMatch_isArray hR ha h
    · exact .array ha ht (Or.inl hf)
    · have hlater : R (inner te me trail w').2 w₁ := by
        rw [hi]
        exact refl_of R w₁
      have hnone : (inner te me trail w').1 = none := by rw [hi]
      exact .array ha ht (Or.inr ⟨te, me, hte, hme, hX te me w' hw hlater hnone⟩)
  · have ha' : c.program.types.isArray member = false := by simpa using ha
    rw [firstMatch_of_not_isArray ha'] at h
    cases hfind : targets.find? (c.agrees (c.widens trail) · member) with
    | none => simp [hfind] at h
    | some target =>
      simp only [hfind, Prod.mk.injEq, Except.ok.injEq] at h
      refine .other ha' hfind fun pair hp => ⟨pair, ?_, rfl, rfl⟩
      rwa [← h.1]

theorem accepted_of_matchAll (hR : Moves inner R) (hX : Yields inner R trail w w₁ X)
    {target : TypeId} {targets members : List TypeId} {pairs : List NestedPair}
    (h : c.matchAll inner trail target targets members w = (.ok pairs, w₁)) :
    ∀ member ∈ members, c.AcceptedAmong (c.widens trail) X (LeftOpen pairs) targets member := by
  induction members generalizing w pairs with
  | nil => simp
  | cons member rest ih =>
    have hfirst := moves_firstMatch (c := c) hR trail member targets {} w
    simp only [matchAll] at h
    cases hm : c.firstMatch inner trail member targets {} w with
    | mk result w' =>
      rw [hm] at h hfirst
      cases result with
      | error found => simp at h
      | ok here =>
        dsimp only at h
        have hrest := moves_matchAll (c := c) hR trail target targets rest w'
        cases hr : c.matchAll inner trail target targets rest w' with
        | mk result w'' =>
          rw [hr] at h hrest
          cases result with
          | error conflict => simp at h
          | ok more =>
            simp only [Prod.mk.injEq, Except.ok.injEq] at h
            obtain ⟨rfl, rfl⟩ := h
            have hhere := accepted_of_firstMatch hR (hX.sub (refl_of R w) hrest) hm
            have hmore := ih (hX.sub hfirst (refl_of R w'')) hr
            intro other hother
            rcases List.mem_cons.mp hother with rfl | hother
            · exact hhere.mono (fun _ _ hx => hx) fun t s hp => hp.append_left more
            · exact (hmore other hother).mono (fun _ _ hx => hx) fun t s hp => hp.append_right here

theorem fits_of_compareOpen (hR : Moves inner R)
    (hY : ∀ trail' : Trail, trail'.length = trail.length + 1 → Yields inner R trail' w w₁ Y)
    {pairs : List NestedPair} (h : compareOpen inner trail pairs w = (none, w₁)) :
    ∀ pair ∈ pairs, Y pair.target pair.source := by
  induction pairs generalizing w with
  | nil => simp
  | cons pair rest ih =>
    have hw := hR pair.target pair.source (trail.push pair.layer) w
    simp only [compareOpen] at h
    cases hi : inner pair.target pair.source (trail.push pair.layer) w with
    | mk result w' =>
      rw [hi] at h hw
      cases result with
      | some conflict => simp at h
      | none =>
        dsimp only at h
        have hrest := moves_compareOpen hR trail rest w'
        rw [h] at hrest
        have hlater : R (inner pair.target pair.source (trail.push pair.layer) w).2 w₁ := by rwa [hi]
        have hnone : (inner pair.target pair.source (trail.push pair.layer) w).1 = none := by rw [hi]
        have hpair : Y pair.target pair.source :=
          hY _ (Trail.length_push trail pair.layer) _ _ w (refl_of R w) hlater hnone
        have hmore := ih (fun trail' hl => (hY trail' hl).sub hw (refl_of R w₁)) h
        intro other hother
        rcases List.mem_cons.mp hother with rfl | hother
        · exact hpair
        · exact hmore other hother

/-- A round that finds no conflict has met the rules on the answers that it was given. -/
theorem round_of_compareEntered (hR : Moves inner R) (hX : Yields inner R trail w w₁ X)
    (hY : ∀ trail' : Trail, trail'.length = trail.length + 1 → Yields inner R trail' w w₁ Y)
    {target source : TypeId} (h : c.compareEntered inner target source trail w = (none, w₁)) :
    c.Round (c.widens trail) X Y target source := by
  cases c.meeting (c.program.types.triviallyFits target source) target source with
  | atOnce hf => exact .trivial hf
  | @elements te se hf ht hs =>
    rw [compareEntered_of_elements hf ht hs] at h
    have hlater : R (inner te se trail w).2 w₁ := by
      rw [h]
      exact refl_of R w₁
    have hnone : (inner te se trail w).1 = none := by rw [h]
    exact .elements ht hs (hX te se w (refl_of R w) hlater hnone)
  | whole hf ha =>
    rw [compareEntered_of_not_isArray hf ha] at h
    split at h
    · simp at h
    rename_i hagainst
    have hshapes := (arrayAgainstOther_eq_false_iff ha).mp (by simpa using hagainst)
    have hall := moves_matchAll (c := c) hR trail target (c.program.types.members target)
      (c.program.types.members source) w
    cases hm : c.matchAll inner trail target (c.program.types.members target)
        (c.program.types.members source) w with
    | mk result w' =>
      rw [hm] at h hall
      cases result with
      | error conflict => simp at h
      | ok pairs =>
        dsimp only at h
        have hopen := moves_compareOpen hR trail pairs w'
        rw [h] at hopen
        have haccepted := accepted_of_matchAll hR (hX.sub (refl_of R w) hopen) hm
        have hpairs := fits_of_compareOpen hR
          (fun trail' hl => (hY trail' hl).sub hall (refl_of R w₁)) h
        refine .members hshapes.1 hshapes.2 fun member hmem =>
          (haccepted member hmem).mono (fun _ _ hx => hx) ?_
        rintro t s ⟨pair, hp, rfl, rfl⟩
        exact hpairs pair hp

/-- An array goes on past the targets that it does not fit, up to one that it fits. -/
theorem firstMatch_of_accepted_isArray (hR : Moves inner R) (hX : Grants inner R trail w X)
    {member target : TypeId} {targets : List TypeId} (ht : target ∈ targets)
    (ha : c.program.types.isArray member = true)
    (h : c.fitsAtOnce (c.widens trail) target member = true ∨
      ∃ te me, c.program.types.element? target = some te ∧
        c.program.types.element? member = some me ∧ X te me) (found : Candidates) :
    ∃ w', c.firstMatch inner trail member targets found w = (.ok [], w') := by
  induction targets generalizing found w with
  | nil => simp at ht
  | cons first rest ih =>
    cases c.meeting (c.fitsAtOnce (c.widens trail) first member) first member with
    | atOnce hf => exact ⟨w, firstMatch_cons_of_fitsAtOnce hf⟩
    | whole hf hwhole =>
      have hne : target ≠ first := by
        rintro rfl
        rcases h with h | ⟨te, me, hte, hme, -⟩
        · simp [hf] at h
        · simp [Types.isArray, hte, hme] at hwhole
      rw [firstMatch_cons_of_isArray ha hf hwhole]
      exact ih hX (List.mem_of_ne_of_mem hne ht) found
    | @elements te me hf hte hme =>
      rw [firstMatch_cons_of_elements hf hte hme]
      have hw := hR te me trail w
      cases hi : inner te me trail w with
      | mk result w' =>
        rw [hi] at hw
        cases result with
        | none => exact ⟨w', rfl⟩
        | some conflict =>
          have hne : target ≠ first := by
            rintro rfl
            rcases h with h | ⟨te', me', hte', hme', hx⟩
            · simp [hf] at h
            · obtain rfl := Option.some.inj (hte.symm.trans hte')
              obtain rfl := Option.some.inj (hme.symm.trans hme')
              have hnone := hX te me w (refl_of R w) hx
              simp [hi] at hnone
          exact ih (hX.after hw) (List.mem_of_ne_of_mem hne ht) _

theorem firstMatch_of_accepted (hR : Moves inner R) (hX : Grants inner R trail w X)
    {member : TypeId} {targets : List TypeId}
    (h : c.AcceptedAmong (c.widens trail) X Y targets member) (found : Candidates) :
    ∃ pairs w', c.firstMatch inner trail member targets found w = (.ok pairs, w') ∧
      ∀ pair ∈ pairs, Y pair.target pair.source := by
  cases h with
  | array ha ht h =>
    obtain ⟨w', hw'⟩ := firstMatch_of_accepted_isArray hR hX ht ha h found
    exact ⟨[], w', hw', by simp⟩
  | @other target ha ht h =>
    exact ⟨c.openPairs (c.widens trail) target member, w,
      by simp only [firstMatch_of_not_isArray ha, ht], h⟩

theorem matchAll_of_accepted (hR : Moves inner R) (hX : Grants inner R trail w X)
    (target : TypeId) {targets members : List TypeId}
    (h : ∀ member ∈ members, c.AcceptedAmong (c.widens trail) X Y targets member) :
    ∃ pairs w', c.matchAll inner trail target targets members w = (.ok pairs, w') ∧
      ∀ pair ∈ pairs, Y pair.target pair.source := by
  induction members generalizing w with
  | nil => exact ⟨[], w, rfl, by simp⟩
  | cons member rest ih =>
    obtain ⟨here, w', hhere, hpairs⟩ := firstMatch_of_accepted hR hX (h member List.mem_cons_self) {}
    have hw := moves_firstMatch (c := c) hR trail member targets {} w
    rw [hhere] at hw
    obtain ⟨more, w'', hmore, hpairs'⟩ := ih (hX.after hw)
      fun other hother => h other (List.mem_cons_of_mem member hother)
    refine ⟨here ++ more, w'', by simp only [matchAll, hhere, hmore], ?_⟩
    intro pair hp
    rcases List.mem_append.mp hp with hp | hp
    · exact hpairs pair hp
    · exact hpairs' pair hp

theorem compareOpen_of_fits (hR : Moves inner R)
    (hY : ∀ trail' : Trail, trail'.length = trail.length + 1 → Grants inner R trail' w Y)
    {pairs : List NestedPair} (h : ∀ pair ∈ pairs, Y pair.target pair.source) :
    (compareOpen inner trail pairs w).1 = none := by
  induction pairs generalizing w with
  | nil => rfl
  | cons pair rest ih =>
    have hnone := hY _ (Trail.length_push trail pair.layer) pair.target pair.source w (refl_of R w)
      (h pair List.mem_cons_self)
    have hw := hR pair.target pair.source (trail.push pair.layer) w
    simp only [compareOpen]
    cases hi : inner pair.target pair.source (trail.push pair.layer) w with
    | mk result w' =>
      rw [hi] at hnone hw
      subst hnone
      exact ih (fun trail' hl => (hY trail' hl).after hw)
        fun other hother => h other (List.mem_cons_of_mem pair hother)

/-- A round finds no conflict where the rules are met on the answers that it is going to be given. -/
theorem compareEntered_of_round (hR : Moves inner R) (hX : Grants inner R trail w X)
    (hY : ∀ trail' : Trail, trail'.length = trail.length + 1 → Grants inner R trail' w Y)
    {target source : TypeId} (h : c.Round (c.widens trail) X Y target source) :
    (c.compareEntered inner target source trail w).1 = none := by
  by_cases hf : c.program.types.triviallyFits target source = true
  · rw [compareEntered_of_triviallyFits hf]
  have hf' : c.program.types.triviallyFits target source = false := by simpa using hf
  cases h with
  | trivial h => exact (hf h).elim
  | elements ht hs h =>
    rw [compareEntered_of_elements hf' ht hs]
    exact hX _ _ w (refl_of R w) h
  | members ht hs h =>
    have ha : (c.program.types.isArray target && c.program.types.isArray source) = false := by
      cases hat : c.program.types.isArray target with
      | false => rfl
      | true => simp [Types.isArray_eq_false_of_isUnion (ht hat)]
    rw [compareEntered_of_not_isArray hf' ha, (arrayAgainstOther_eq_false_iff ha).mpr ⟨ht, hs⟩]
    obtain ⟨pairs, w', hm, hpairs⟩ := matchAll_of_accepted hR hX target h
    have hw := moves_matchAll (c := c) hR trail target (c.program.types.members target)
      (c.program.types.members source) w
    rw [hm] at hw
    simp only [hm, Bool.false_eq_true, if_false]
    exact compareOpen_of_fits hR (fun trail' hl => (hY trail' hl).after hw) hpairs

end Conclusions

end Comparison

end Misfit
