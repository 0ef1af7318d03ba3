import Misfit.Proofs.Compare.Place
import Misfit.Proofs.Explain.Recording
import Mathlib.Tactic.ByContra
import Mathlib.Tactic.SplitIfs

/-!
# Coherent explanations

The parts of an explanation come from different places: the trail and the clash from a comparison or
from a count of arguments, the kind from what was met on the way, the outline of the call and the missing
key from the statement that is explained. They go together in all that a site comes to: only calls have
outlines, a wrong number of arguments is no other clash, and where a key is missing, the trail ends with
it and the clash is about nothing else.
-/
namespace Misfit

/-- The conflict is about a single key: the trail ends with a placeholder for it, and of all names only
the key is missing or has another type. -/
structure Conflict.IsAbout (conflict : Conflict) (key : String) : Prop where
  placeholder : ∃ target d, conflict.trail.last? = some ⟨target, .placeholder d (some key)⟩
  clash : ∃ c, conflict.clash = .shapes [c] ∧
    (c.missing = [key] ∧ c.mismatch = [] ∨ c.missing = [] ∧ c.mismatch = [key])

/-- The parts of an explanation go together. -/
structure Explanation.Coherent (e : Explanation) : Prop where
  trail : e.trail.layers ≠ []
  counted : e.kind = .tooManyArgs ∨ e.kind = .tooFewArgs ↔ e.clash = .arity
  shapes : e.clash ≠ .shapes []
  mismatch : e.kind = .mismatch → ∃ c, e.clash = .types c
  call : e.call.isSome = true ↔ e.rootKind = .callExpression
  index : e.kind = .missingIndex → e.missingKey.isSome = true
  key : ∀ k, e.missingKey = some k → Conflict.IsAbout ⟨e.trail, e.clash⟩ k.key

/-! ### Kinds -/

theorem TypeClash.kind_mem (c : TypeClash) :
    c.kind ∈ [ConflictKind.mustDeclare, .arrayToNonArray, .nonArrayToArray, .mismatch, .misslike,
      .simpleToObject, .objectToSimple] := by
  unfold kind
  split_ifs <;> simp

theorem ShapeClash.kind_mem (c : ShapeClash) (indexed : Bool) :
    c.kind indexed ∈ [ConflictKind.misslike, .both, .missingIndex, .bothMissing, .targetPropMissing,
      .sourcePropMissing, .propMismatch] := by
  unfold kind
  dsimp only
  split_ifs <;> simp

/-- A missing index is seen only where a map was met that rejects the key. -/
theorem ShapeClash.eq_true_of_kind_eq_missingIndex {c : ShapeClash} {indexed : Bool}
    (h : c.kind indexed = .missingIndex) : indexed = true := by
  unfold kind at h
  dsimp only at h
  split_ifs at h with _ _ hindexed
  exact hindexed.2

namespace Clash

variable {c : Clash} {indexed : Bool}

/-- No clash is a wrong number of arguments in itself. -/
theorem kind_ne_counted : c.kind indexed ≠ .tooManyArgs ∧ c.kind indexed ≠ .tooFewArgs := by
  match c with
  | types clash =>
    have hmem := clash.kind_mem
    constructor <;> intro h <;> rw [kind] at h <;> simp [h] at hmem
  | shapes (first :: _) =>
    have hmem := first.kind_mem indexed
    constructor <;> intro h <;> rw [kind] at h <;> simp [h] at hmem
  | shapes [] | arity => simp [kind]

theorem eq_types_of_kind_eq_mismatch (h : c.kind indexed = .mismatch) (harity : c ≠ .arity)
    (hshapes : c ≠ .shapes []) : ∃ clash, c = .types clash := by
  match c with
  | types clash => exact ⟨clash, rfl⟩
  | shapes (first :: _) =>
    have hmem := first.kind_mem indexed
    rw [kind] at h
    simp [h] at hmem
  | shapes [] => exact absurd rfl hshapes
  | arity => exact absurd rfl harity

theorem eq_true_of_kind_eq_missingIndex (h : c.kind indexed = .missingIndex) : indexed = true := by
  match c with
  | types clash =>
    have hmem := clash.kind_mem
    rw [kind] at h
    simp [h] at hmem
  | shapes (first :: _) => exact ShapeClash.eq_true_of_kind_eq_missingIndex h
  | shapes [] | arity => simp [kind] at h

end Clash

theorem Clash.classify_of_fits {clash : Clash} {call : Option CallOutline}
    (h : ∀ o ∈ call, o.Fits) (indexed : Bool) : clash.classify call indexed = clash.kind indexed := by
  cases call with
  | none => simp
  | some o => simp [classify, (h o rfl).tooMany, (h o rfl).tooFew]

theorem Clash.classify_of_not_fits {clash : Clash} {o : CallOutline} (h : ¬o.Fits) (indexed : Bool) :
    clash.classify (some o) indexed = .tooManyArgs ∨ clash.classify (some o) indexed = .tooFewArgs := by
  cases hmany : o.tooMany with
  | true => simp [classify, hmany]
  | false =>
    have hfew : o.tooFew = true := by
      by_contra hfew
      exact h ⟨hmany, by simpa using hfew⟩
    simp [classify, hmany, hfew]

/-! ### Conflicts -/

/-- What a comparison finds at the end of a trail: not a wrong number of arguments, and not nothing. -/
structure Conflict.IsCompared (conflict : Conflict) : Prop where
  trail : conflict.trail.layers ≠ []
  counted : conflict.clash ≠ .arity
  shapes : conflict.clash ≠ .shapes []

theorem Conflict.IsAbout.isCompared {conflict : Conflict} {key : String} (h : conflict.IsAbout key) :
    conflict.IsCompared := by
  obtain ⟨target, d, hlast⟩ := h.placeholder
  obtain ⟨clash, hclash, -⟩ := h.clash
  refine ⟨fun hnil => ?_, by simp [hclash], by simp [hclash]⟩
  have hinward : conflict.trail.inward = [] := by simpa [Trail.layers] using hnil
  simp [Trail.last?, hinward] at hlast

/-- A comparison that starts somewhere ends somewhere, with types or with shapes. -/
theorem Comparison.isCompared_of_conflict? {c : Comparison} {target source : TypeId} {trail : Trail}
    {layer : Layer} {conflict : Conflict}
    (h : c.conflict? target source (trail.push layer) = some conflict) : conflict.IsCompared := by
  obtain ⟨layers, last, -, hlayers, -, hclash⟩ :=
    places_compareWithin _ target source _ Walk.start conflict h
  refine ⟨by simp [hlayers], ?_, ?_⟩
  · intro harity
    rw [harity] at hclash
    nomatch hclash
  · generalize hshown : conflict.clash = clash at hclash
    cases hclash with
    | types => simp
    | shapes _ _ _ hne => simpa using selectBest_ne_nil (by simpa using hne)

/-- Comparing with a placeholder ends in a conflict that is about the key. -/
theorem Site.isAbout_placeholderConflict (s : Site) (base : Trail) (node : NodeId) (target : TypeId)
    (placeholder : Description) (key : String) :
    (s.placeholderConflict base node target placeholder key).IsAbout key where
  placeholder := ⟨s.describe node target, placeholder, rfl⟩
  clash := by
    refine ⟨_, rfl, ?_⟩
    dsimp only
    split <;> simp

/-! ### Explanations -/

namespace Site

variable (s : Site)

/-- What is found by comparing is coherent if the number of arguments is right, and if a map that rejects
a key was met only where the conflict is about a key. -/
theorem coherent_of_isCompared {e : Evidence} {indexed : Bool} (code : Nat) {rootKind : Kind}
    (hcompared : e.conflict.IsCompared) (hfits : ∀ o ∈ e.call, o.Fits)
    (hcall : e.call.isSome = decide (rootKind = .callExpression))
    (hindexed : indexed = true → e.missingKey.isSome = true)
    (hkey : ∀ k, e.missingKey = some k → e.conflict.IsAbout k.key) :
    (s.explanation code rootKind e (e.kind indexed)).Coherent := by
  have hkind : e.kind indexed = e.conflict.clash.kind indexed := Clash.classify_of_fits hfits indexed
  rw [hkind]
  exact
    { trail := hcompared.trail
      counted := ⟨fun h => absurd h (not_or.mpr Clash.kind_ne_counted),
        fun h => absurd h hcompared.counted⟩
      shapes := hcompared.shapes
      mismatch := fun h => Clash.eq_types_of_kind_eq_mismatch h hcompared.counted hcompared.shapes
      call := by rw [explanation, hcall, decide_eq_true_iff]
      index := fun h => hindexed (Clash.eq_true_of_kind_eq_missingIndex h)
      key := hkey }

/-- A wrong number of arguments is coherent in a call. -/
theorem coherent_arityEvidence {o : CallOutline} (hwrong : ¬o.Fits) (callee : NodeId)
    (arguments : List Argument) (position code : Nat) (indexed : Bool) :
    (s.explanation code .callExpression (o.arityEvidence callee arguments position)
      ((o.arityEvidence callee arguments position).kind indexed)).Coherent := by
  have hkind : Clash.arity.classify (some o) indexed = .tooManyArgs ∨
      Clash.arity.classify (some o) indexed = .tooFewArgs := Clash.classify_of_not_fits hwrong indexed
  have hother : ∀ {kind : ConflictKind}, kind ≠ .tooManyArgs → kind ≠ .tooFewArgs →
      Clash.arity.classify (some o) indexed ≠ kind := by
    rintro kind hmany hfew rfl
    exact hkind.elim hmany hfew
  exact
    { trail := by simp [explanation, CallOutline.arityEvidence]
      counted := iff_of_true hkind rfl
      shapes := nofun
      mismatch := fun h => absurd h (hother nofun nofun)
      call := iff_of_true rfl rfl
      index := fun h => absurd h (hother nofun nofun)
      key := nofun }

/-- Every entry that the root has makes a coherent explanation. -/
theorem coherent_of_isEntry {rootKind : Kind} {entry : Evidence × ConflictKind}
    (h : IsEntry (rootKind = .callExpression) entry) (code : Nat) :
    (s.explanation code rootKind entry.1 entry.2).Coherent := by
  cases h with
  | compared hconflict hfits hcall hkey =>
    have hcompared := Comparison.isCompared_of_conflict? hconflict
    exact s.coherent_of_isCompared code hcompared hfits hcall (by simp) (by simp [hkey])
  | @aboutKey e site base node placeholder key indexed hconflict hkey hcall hatCall =>
    have habout : e.conflict.IsAbout key.key := hconflict ▸ site.isAbout_placeholderConflict _ _ _ _ _
    refine s.coherent_of_isCompared code habout.isCompared (by simp [hcall]) ?_ (by simp [hkey]) ?_
    · rw [hcall, hatCall, Option.isSome_none]
    · intro k hk
      obtain rfl : key = k := Option.some.inj (hkey.symm.trans hk)
      exact habout
  | counted indexed hwrong hatCall =>
    obtain rfl : rootKind = .callExpression := of_decide_eq_true hatCall
    exact s.coherent_arityEvidence hwrong _ _ _ _ _

/-- The explanations that come of a site are coherent. -/
theorem coherent_of_outcome {kind : Kind} (hkind : s.source.kind? s.root = some kind) {code : Nat}
    {es : List Explanation} (h : s.outcome code kind (s.explain {}).2 = .explained es) :
    ∀ e ∈ es, e.Coherent := by
  have hsite : AtMostOne (kind = .callExpression) {} (s.explain {}).2 := by
    simpa [hkind] using s.recordsAtMostOne_explain {} rfl
  generalize (s.explain {}).2 = ended at h hsite
  cases hsite with
  | @unchanged ended r hr =>
    subst hr
    cases ended <;> simp [outcome] at h
  | one entry hadded hentry =>
    obtain rfl : [s.explanation code kind entry.1 entry.2] = es := by simpa [outcome, hadded] using h
    intro e he
    obtain rfl := List.mem_singleton.mp he
    exact s.coherent_of_isEntry hentry code

end Site

end Misfit
