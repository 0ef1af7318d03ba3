import Misfit.Proofs.Compare.Surface
import Mathlib.Order.Defs.Unbundled
import Mathlib.Tactic.Choose

/-!
# What a round does to the records

A round never looks into the records. It asks its comparer one question after the other, each in view of
the answers before, and the records go from one question to the next. So a round is a dialogue, and what
holds of all dialogues holds of rounds: they move the records along any preorder that the comparer moves
them along, and with a comparer that another one simulates for as long as the round lasts, they come to
what they come to with that one.
-/
namespace Misfit

namespace Comparison

variable {c : Comparison}

/-- Every comparison moves the records along `R`. -/
def Moves {ω : Type} (inner : Comparer ω) (R : ω → ω → Prop) : Prop :=
  ∀ target source trail w, R w (inner target source trail w).2

/-- Two results with records are equal up to records that `S` relates. -/
def Related {α ω₁ ω₂ : Type} (S : ω₁ → ω₂ → Prop) (r₁ : α × ω₁) (r₂ : α × ω₂) : Prop :=
  r₁.1 = r₂.1 ∧ S r₁.2 r₂.2

/-- From records that `S` relates, both comparers give the same answers and reach such records. -/
def Simulates {ω₁ ω₂ : Type} (inner₁ : Comparer ω₁) (inner₂ : Comparer ω₂) (S : ω₁ → ω₂ → Prop) :
    Prop :=
  ∀ target source trail w₁ w₂, S w₁ w₂ →
    Related S (inner₁ target source trail w₁) (inner₂ target source trail w₂)

/-- The comparers simulate each other as long as the records of the first one lie between two states,
before the question and after the answer. -/
def SimulatesBetween {ω₁ ω₂ : Type} (inner₁ : Comparer ω₁) (inner₂ : Comparer ω₂)
    (R : ω₁ → ω₁ → Prop) (S : ω₁ → ω₂ → Prop) (first last : ω₁) : Prop :=
  ∀ target source trail w₁ w₂, R first w₁ → R (inner₁ target source trail w₁).2 last → S w₁ w₂ →
    Related S (inner₁ target source trail w₁) (inner₂ target source trail w₂)

/-- Questions to a comparer, each in view of the answers before, and what they come to. -/
inductive Dialogue (α : Type)
  | done (result : α)
  | ask (target source : TypeId) (trail : Trail) (next : Option Conflict → Dialogue α)

namespace Dialogue

variable {α β ω ω₁ ω₂ : Type}

/-- Holds the dialogue with a comparer. -/
def run (inner : Comparer ω) : Dialogue α → ω → α × ω
  | done result, w => (result, w)
  | ask target source trail next, w =>
    (next (inner target source trail w).1).run inner (inner target source trail w).2

/-- One dialogue after the other. -/
def bind (f : α → Dialogue β) : Dialogue α → Dialogue β
  | done result => f result
  | ask target source trail next => ask target source trail fun answer => (next answer).bind f

theorem run_bind (inner : Comparer ω) (f : α → Dialogue β) (d : Dialogue α) (w : ω) :
    (d.bind f).run inner w = (f (d.run inner w).1).run inner (d.run inner w).2 := by
  induction d generalizing w with
  | done result => rfl
  | ask target source trail next ih => exact ih _ _

theorem moves {inner : Comparer ω} {R : ω → ω → Prop} [IsPreorder ω R] (hR : Moves inner R)
    (d : Dialogue α) (w : ω) : R w (d.run inner w).2 := by
  induction d generalizing w with
  | done result => exact refl_of R w
  | ask target source trail next ih => exact trans_of R (hR target source trail w) (ih _ _)

/-- By induction on the dialogue; where it ends bounds every question in it. -/
theorem related {inner₁ : Comparer ω₁} {inner₂ : Comparer ω₂} {R : ω₁ → ω₁ → Prop} [IsPreorder ω₁ R]
    (hR : Moves inner₁ R) {S : ω₁ → ω₂ → Prop} {w₁ last : ω₁} {w₂ : ω₂} (d : Dialogue α)
    (hS : SimulatesBetween inner₁ inner₂ R S w₁ last) (hlast : R (d.run inner₁ w₁).2 last)
    (hw : S w₁ w₂) : Related S (d.run inner₁ w₁) (d.run inner₂ w₂) := by
  induction d generalizing w₁ w₂ with
  | done result => exact ⟨rfl, hw⟩
  | ask target source trail next ih =>
    have hmove := hR target source trail w₁
    have hrest := (next (inner₁ target source trail w₁).1).moves hR (inner₁ target source trail w₁).2
    obtain ⟨hanswer, hrecords⟩ :=
      hS target source trail w₁ w₂ (refl_of R w₁) (trans_of R hrest hlast) hw
    simp only [run, ← hanswer]
    refine ih _ (fun t s tr v₁ v₂ hfirst => ?_) hlast hrecords
    exact hS t s tr v₁ v₂ (trans_of R hmove hfirst)

end Dialogue

/-- Setting two members against each other is a dialogue, the same one with every comparer. -/
theorem exists_dialogue_matchMember (trail : Trail) (target source : TypeId) :
    ∃ d : Dialogue MemberMatch, ∀ (ω : Type) (inner : Comparer ω) (w : ω),
      c.matchMember inner trail target source w = d.run inner w := by
  cases c.meeting (c.fitsAtOnce (c.widens trail) target source) target source with
  | atOnce hf => exact ⟨.done _, fun _ _ _ => matchMember_of_fitsAtOnce hf⟩
  | @elements te se hf ht hs =>
    refine ⟨.ask te se trail fun answer => .done (answer.elim (.satisfied []) .nested),
      fun _ inner w => ?_⟩
    rw [matchMember_of_elements hf ht hs, Dialogue.run]
    rcases inner te se trail w with ⟨_ | conflict, w'⟩ <;> rfl
  | whole hf ha => exact ⟨.done _, fun _ _ _ => matchMember_of_not_isArray hf ha⟩

theorem exists_dialogue_firstMatch (trail : Trail) (source : TypeId) (targets : List TypeId)
    (found : Candidates) :
    ∃ d : Dialogue (Except Candidates (List NestedPair)), ∀ (ω : Type) (inner : Comparer ω) (w : ω),
      c.firstMatch inner trail source targets found w = d.run inner w := by
  induction targets generalizing found with
  | nil => exact ⟨.done (.error found), fun _ _ _ => rfl⟩
  | cons target rest ih =>
    obtain ⟨d, hd⟩ := exists_dialogue_matchMember (c := c) trail target source
    choose next hnext using ih
    refine ⟨d.bind fun
      | .satisfied pairs => .done (.ok pairs)
      | .shape clash => next { found with shapes := found.shapes ++ [clash] }
      | .nested conflict => next { found with nested := found.nested.or (some conflict) }
      | _ => next found, fun _ inner w => ?_⟩
    simp only [Dialogue.run_bind, ← hd, firstMatch]
    rcases c.matchMember inner trail target source w with ⟨_ | _ | _ | _, w'⟩
    · rfl
    · exact hnext _ _ _ _
    · exact hnext _ _ _ _
    · exact hnext _ _ _ _

theorem exists_dialogue_matchAll (trail : Trail) (target : TypeId) (targets members : List TypeId) :
    ∃ d : Dialogue (Except Conflict (List NestedPair)), ∀ (ω : Type) (inner : Comparer ω) (w : ω),
      c.matchAll inner trail target targets members w = d.run inner w := by
  induction members with
  | nil => exact ⟨.done (.ok []), fun _ _ _ => rfl⟩
  | cons member rest ih =>
    obtain ⟨d, hd⟩ := exists_dialogue_firstMatch (c := c) trail member targets {}
    obtain ⟨next, hnext⟩ := ih
    refine ⟨d.bind fun
      | .error found => .done (.error (c.explain trail target member found))
      | .ok pairs => next.bind fun
        | .error conflict => .done (.error conflict)
        | .ok more => .done (.ok (pairs ++ more)), fun _ inner w => ?_⟩
    simp only [Dialogue.run_bind, ← hd, matchAll]
    rcases c.firstMatch inner trail member targets {} w with ⟨found | pairs, w'⟩
    · rfl
    · simp only [Dialogue.run_bind, ← hnext]
      rcases c.matchAll inner trail target targets rest w' with ⟨conflict | more, w''⟩ <;> rfl

theorem exists_dialogue_compareOpen (trail : Trail) (pairs : List NestedPair) :
    ∃ d : Dialogue (Option Conflict), ∀ (ω : Type) (inner : Comparer ω) (w : ω),
      compareOpen inner trail pairs w = d.run inner w := by
  induction pairs with
  | nil => exact ⟨.done none, fun _ _ _ => rfl⟩
  | cons pair rest ih =>
    obtain ⟨next, hnext⟩ := ih
    refine ⟨.ask pair.target pair.source (trail.push pair.layer) fun answer =>
      answer.elim next fun conflict => .done (some conflict), fun _ inner w => ?_⟩
    simp only [compareOpen, Dialogue.run]
    rcases inner pair.target pair.source (trail.push pair.layer) w with ⟨_ | conflict, w'⟩
    · exact hnext _ _ _
    · rfl

/-- A round is a dialogue with its comparer. -/
theorem exists_dialogue_compareEntered (target source : TypeId) (trail : Trail) :
    ∃ d : Dialogue (Option Conflict), ∀ (ω : Type) (inner : Comparer ω) (w : ω),
      c.compareEntered inner target source trail w = d.run inner w := by
  cases c.meeting (c.program.types.triviallyFits target source) target source with
  | atOnce hf => exact ⟨.done none, fun _ _ _ => compareEntered_of_triviallyFits hf⟩
  | @elements te se hf ht hs =>
    exact ⟨.ask te se trail .done, fun _ _ _ => compareEntered_of_elements hf ht hs⟩
  | whole hf ha =>
    by_cases hagainst : (c.program.types.shape target).arrayAgainstOther
        (c.program.types.shape source) = true
    · refine ⟨.done (some ⟨trail, .types (c.program.typeClash target source)⟩), fun _ inner w => ?_⟩
      rw [compareEntered_of_not_isArray hf ha, if_pos hagainst, Dialogue.run]
    · obtain ⟨d, hd⟩ := exists_dialogue_matchAll (c := c) trail target (c.program.types.members target)
        (c.program.types.members source)
      choose next hnext using exists_dialogue_compareOpen trail
      refine ⟨d.bind fun
        | .error conflict => .done (some conflict)
        | .ok pairs => next pairs, fun _ inner w => ?_⟩
      rw [compareEntered_of_not_isArray hf ha, if_neg hagainst]
      simp only [Dialogue.run_bind, ← hd]
      rcases c.matchAll inner trail target (c.program.types.members target)
        (c.program.types.members source) w with ⟨conflict | pairs, w'⟩
      · rfl
      · exact hnext _ _ _ _

section Records

variable {ω : Type} {inner : Comparer ω} {R : ω → ω → Prop} [IsPreorder ω R]

theorem moves_firstMatch (hR : Moves inner R) (trail : Trail) (source : TypeId)
    (targets : List TypeId) (found : Candidates) (w : ω) :
    R w (c.firstMatch inner trail source targets found w).2 := by
  obtain ⟨d, hd⟩ := exists_dialogue_firstMatch (c := c) trail source targets found
  rw [hd]
  exact d.moves hR w

theorem moves_matchAll (hR : Moves inner R) (trail : Trail) (target : TypeId)
    (targets members : List TypeId) (w : ω) :
    R w (c.matchAll inner trail target targets members w).2 := by
  obtain ⟨d, hd⟩ := exists_dialogue_matchAll (c := c) trail target targets members
  rw [hd]
  exact d.moves hR w

theorem moves_compareOpen (hR : Moves inner R) (trail : Trail) (pairs : List NestedPair) (w : ω) :
    R w (compareOpen inner trail pairs w).2 := by
  obtain ⟨d, hd⟩ := exists_dialogue_compareOpen trail pairs
  rw [hd]
  exact d.moves hR w

/-- A round moves the records along with the comparisons that it asks for. -/
theorem moves_compareEntered (hR : Moves inner R) : Moves (c.compareEntered inner) R := by
  intro target source trail w
  obtain ⟨d, hd⟩ := exists_dialogue_compareEntered (c := c) target source trail
  rw [hd]
  exact d.moves hR w

end Records

section Simulation

variable {ω₁ ω₂ : Type} {inner₁ : Comparer ω₁} {inner₂ : Comparer ω₂} {S : ω₁ → ω₂ → Prop}

/-- A round comes to the same with two comparers that simulate each other while it lasts. -/
theorem related_compareEntered {R : ω₁ → ω₁ → Prop} [IsPreorder ω₁ R] (hR : Moves inner₁ R)
    {target source : TypeId} {trail : Trail} {w₁ last : ω₁} {w₂ : ω₂}
    (hS : SimulatesBetween inner₁ inner₂ R S w₁ last)
    (hlast : R (c.compareEntered inner₁ target source trail w₁).2 last) (hw : S w₁ w₂) :
    Related S (c.compareEntered inner₁ target source trail w₁)
      (c.compareEntered inner₂ target source trail w₂) := by
  obtain ⟨d, hd⟩ := exists_dialogue_compareEntered (c := c) target source trail
  rw [hd] at hlast
  rw [hd, hd]
  exact d.related hR hS hlast hw

/-- Rounds with comparers that simulate each other simulate each other. -/
theorem simulates_compareEntered (hS : Simulates inner₁ inner₂ S) :
    Simulates (c.compareEntered inner₁) (c.compareEntered inner₂) S := by
  intro target source trail w₁ w₂ hw
  have hpreorder : IsPreorder ω₁ fun _ _ => True := { refl := by simp, trans := by simp }
  have hbetween : SimulatesBetween inner₁ inner₂ (fun _ _ => True) S w₁ w₁ :=
    fun t s tr v₁ v₂ _ _ hv => hS t s tr v₁ v₂ hv
  exact related_compareEntered (fun _ _ _ _ => trivial) hbetween trivial hw

/-- A round comes to the same with two comparers that agree on all records from its beginning on. -/
theorem compareEntered_congr {ω : Type} {inner inner' : Comparer ω} {R : ω → ω → Prop}
    [IsPreorder ω R] (hR : Moves inner R) {w : ω}
    (h : ∀ target source trail v, R w v → inner' target source trail v = inner target source trail v)
    (target source : TypeId) (trail : Trail) :
    c.compareEntered inner' target source trail w = c.compareEntered inner target source trail w := by
  have hagree : SimulatesBetween inner inner' R Eq w (c.compareEntered inner target source trail w).2 := by
    rintro t s tr v _ hfirst - rfl
    rw [h t s tr v hfirst]
    exact ⟨rfl, rfl⟩
  obtain ⟨hresult, hrecords⟩ := related_compareEntered hR hagree (refl_of R _) rfl
  exact (Prod.ext hresult hrecords).symm

end Simulation

end Comparison

end Misfit
