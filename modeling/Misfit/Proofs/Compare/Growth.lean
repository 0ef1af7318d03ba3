import Misfit.Proofs.Compare.Answers
import Misfit.Proofs.Types.Growth

/-!
# Comparing in a table that has grown

Types that were known before the table grew are compared as they were: their properties are set against
each other with the same findings, the same pairs are left open, and the same conflict is found. A
comparison gets from known types to known types only, so this carries over from one round to the whole
recursion.
-/
namespace Misfit

namespace Program

/-- The program with another table of types. -/
def withTypes (p : Program) (types : Types) : Program := { p with types }

variable {p : Program} {t' : Types} {i j : TypeId}

@[simp] theorem types_withTypes (p : Program) (types : Types) : (p.withTypes types).types = types := rfl

/-- Programs that differ in their types only. -/
theorem eq_withTypes {p' : Program} (hfiles : p'.files = p.files)
    (hnodes : p'.nodeTypes = p.nodeTypes) : p' = p.withTypes p'.types := by
  obtain ⟨types, files, nodes⟩ := p'
  obtain rfl : files = _ := hfiles
  obtain rfl : nodes = _ := hnodes
  rfl

theorem describeNode_withTypes (h : p.types.Grows t') (hi : p.types.Knows i) (f : SourceFile)
    (node : NodeId) : (p.withTypes t').describeNode f node i = p.describeNode f node i := by
  simp only [describeNode, types_withTypes, h.render hi]

theorem describeWidened_withTypes (h : p.types.Grows t') (hi : p.types.Knows i) (f : SourceFile)
    (node : NodeId) : (p.withTypes t').describeWidened f node i = p.describeWidened f node i := by
  simp only [describeWidened, types_withTypes, h.renderWidened hi]

theorem describeType_withTypes (h : p.types.Grows t') (hi : p.types.Knows i) :
    (p.withTypes t').describeType i = p.describeType i := by
  simp only [describeType, types_withTypes, h.render hi, h.object? hi]
  rfl

theorem describeMember_withTypes (h : p.types.Grows t') {m : Member} (hm : p.types.Knows m.type) :
    (p.withTypes t').describeMember m = p.describeMember m := by
  simp only [describeMember, types_withTypes, h.render hm]
  rfl

theorem findingFor_withTypes (h : p.types.Grows t') {property : Member} {other? : Option Member}
    (hp : p.types.Knows property.type) (ho : ∀ other ∈ other?, p.types.Knows other.type) :
    (p.withTypes t').findingFor property other? = p.findingFor property other? := by
  cases other? with
  | none => rfl
  | some other =>
    have hother := ho other rfl
    simp only [findingFor, types_withTypes, h.propertyMatch hp hother, describeMember_withTypes h hp,
      describeMember_withTypes h hother]
    rfl

theorem diffProperties_withTypes (h : p.types.Grows t') (hi : p.types.Knows i) (hj : p.types.Knows j) :
    (p.withTypes t').diffProperties i j = p.diffProperties i j := by
  have hclosed := h.settled.closed
  simp only [diffProperties, types_withTypes, h.properties hi, PropertyDiff.mk.injEq]
  refine List.map_congr_left fun property hproperty => ?_
  rw [h.property? hj, findingFor_withTypes h (hclosed.knows_of_mem_properties hproperty)
    fun other hother => hclosed.knows_of_property? hother]

theorem shapeClash_withTypes (h : p.types.Grows t') (hi : p.types.Knows i) (hj : p.types.Knows j)
    (forward : PropertyDiff) (reverse : Option PropertyDiff) :
    (p.withTypes t').shapeClash i j forward reverse = p.shapeClash i j forward reverse := by
  simp only [shapeClash, describeType_withTypes h hi, describeType_withTypes h hj]

theorem typeClash_withTypes (h : p.types.Grows t') (hi : p.types.Knows i) (hj : p.types.Knows j) :
    (p.withTypes t').typeClash i j = p.typeClash i j := by
  simp only [typeClash, types_withTypes, describeType_withTypes h hi, describeType_withTypes h hj,
    h.facts hi, h.facts hj, h.areLike hj hi]

end Program

namespace Comparison

/-- The comparison in the program with another table of types. -/
def withTypes (c : Comparison) (types : Types) : Comparison :=
  { c with program := c.program.withTypes types }

variable {c : Comparison} {t' : Types} {target source : TypeId}

@[simp] theorem program_withTypes (c : Comparison) (types : Types) :
    (c.withTypes types).program = c.program.withTypes types := rfl

@[simp] theorem mode_withTypes (c : Comparison) (types : Types) : (c.withTypes types).mode = c.mode := rfl

theorem fitsAtOnce_withTypes (h : c.program.types.Grows t') (ht : c.program.types.Knows target)
    (hs : c.program.types.Knows source) (wide : Bool) :
    (c.withTypes t').fitsAtOnce wide target source = c.fitsAtOnce wide target source := by
  simp only [fitsAtOnce, program_withTypes, Program.types_withTypes, h.triviallyFits ht hs,
    Types.isLiteral, h.isOneOf hs, h.areLike hs ht]

theorem haveProperties_withTypes (h : c.program.types.Grows t') (ht : c.program.types.Knows target)
    (hs : c.program.types.Knows source) :
    (c.withTypes t').haveProperties target source = c.haveProperties target source := by
  simp only [haveProperties, program_withTypes, Program.types_withTypes, h.shape ht, h.shape hs]

theorem shapesDiffer_withTypes (h : c.program.types.Grows t') (ht : c.program.types.Knows target)
    (hs : c.program.types.Knows source) :
    (c.withTypes t').shapesDiffer target source = c.shapesDiffer target source := by
  simp only [shapesDiffer, program_withTypes, mode_withTypes, Program.diffProperties_withTypes h ht hs,
    Program.diffProperties_withTypes h hs ht]

theorem clashOf_withTypes (h : c.program.types.Grows t') (ht : c.program.types.Knows target)
    (hs : c.program.types.Knows source) :
    (c.withTypes t').clashOf target source = c.clashOf target source := by
  simp only [clashOf, program_withTypes, mode_withTypes, Program.shapeClash_withTypes h ht hs,
    Program.diffProperties_withTypes h ht hs, Program.diffProperties_withTypes h hs ht]

section Rounds

variable {ω : Type} {inner inner' : Comparer ω} {trail : Trail} {w : ω}

/-- Two comparers come to the same for all types that a table knows. -/
def AgreesOn (t : Types) (inner inner' : Comparer ω) : Prop :=
  ∀ target source, t.Knows target → t.Knows source → inner' target source = inner target source

theorem matchMember_withTypes (h : c.program.types.Grows t')
    (hinner : AgreesOn c.program.types inner inner') (ht : c.program.types.Knows target)
    (hs : c.program.types.Knows source) :
    (c.withTypes t').matchMember inner' trail target source w =
      c.matchMember inner trail target source w := by
  have hclosed := h.settled.closed
  have hfits := fitsAtOnce_withTypes h ht hs (c.widens trail)
  cases c.meeting (c.fitsAtOnce (c.widens trail) target source) target source with
  | atOnce hf =>
    rw [matchMember_of_fitsAtOnce hf]
    exact matchMember_of_fitsAtOnce (hfits.trans hf)
  | @elements te se hf hte hse =>
    rw [matchMember_of_elements hf hte hse,
      matchMember_of_elements (hfits.trans hf) ((h.element? ht).trans hte) ((h.element? hs).trans hse),
      hinner te se (hclosed.knows_of_element? hte) (hclosed.knows_of_element? hse)]
  | whole hf ha =>
    have ha' : (t'.isArray target && t'.isArray source) = false := by
      rw [h.isArray ht, h.isArray hs, ha]
    rw [matchMember_of_not_isArray hf ha, matchMember_of_not_isArray (hfits.trans hf) ha',
      haveProperties_withTypes h ht hs, shapesDiffer_withTypes h ht hs, clashOf_withTypes h ht hs,
      program_withTypes, Program.diffProperties_withTypes h ht hs]

theorem firstMatch_withTypes (h : c.program.types.Grows t')
    (hinner : AgreesOn c.program.types inner inner') (hs : c.program.types.Knows source)
    {targets : List TypeId} (ht : ∀ k ∈ targets, c.program.types.Knows k) (found : Candidates) :
    (c.withTypes t').firstMatch inner' trail source targets found w =
      c.firstMatch inner trail source targets found w := by
  induction targets generalizing found w with
  | nil => rfl
  | cons target rest ih =>
    obtain ⟨htarget, hrest⟩ := List.forall_mem_cons.mp ht
    simp only [firstMatch, matchMember_withTypes h hinner htarget hs, ih hrest]

theorem explain_withTypes (h : c.program.types.Grows t') (ht : c.program.types.Knows target)
    (hs : c.program.types.Knows source) (found : Candidates) :
    (c.withTypes t').explain trail target source found = c.explain trail target source found := by
  unfold explain
  rw [program_withTypes, Program.typeClash_withTypes h ht hs]

theorem matchAll_withTypes (h : c.program.types.Grows t')
    (hinner : AgreesOn c.program.types inner inner') (ht : c.program.types.Knows target)
    {targets members : List TypeId} (hk : ∀ k ∈ targets, c.program.types.Knows k)
    (hm : ∀ m ∈ members, c.program.types.Knows m) :
    (c.withTypes t').matchAll inner' trail target targets members w =
      c.matchAll inner trail target targets members w := by
  induction members generalizing w with
  | nil => rfl
  | cons member rest ih =>
    obtain ⟨hmember, hrest⟩ := List.forall_mem_cons.mp hm
    simp only [matchAll, firstMatch_withTypes h hinner hmember hk, explain_withTypes h ht hmember,
      ih hrest]

/-- Both types of a pair are known. -/
def KnowsPair (c : Comparison) (pair : NestedPair) : Prop :=
  c.program.types.Knows pair.target ∧ c.program.types.Knows pair.source

theorem knowsPair_of_matchMember (hclosed : c.program.types.Closed) {pairs : List NestedPair}
    (h : (c.matchMember inner trail target source w).1 = .satisfied pairs) :
    ∀ pair ∈ pairs, c.KnowsPair pair := by
  cases c.meeting (c.fitsAtOnce (c.widens trail) target source) target source with
  | atOnce hf =>
    rw [matchMember_of_fitsAtOnce hf] at h
    obtain rfl : [] = pairs := MemberMatch.satisfied.inj h
    simp
  | @elements te se hf hte hse =>
    rw [matchMember_of_elements hf hte hse] at h
    split at h
    · obtain rfl : [] = pairs := MemberMatch.satisfied.inj h
      simp
    · simp at h
  | whole hf ha =>
    rw [matchMember_of_not_isArray hf ha] at h
    dsimp only at h
    split at h
    · split at h
      · simp at h
      · obtain rfl := MemberMatch.satisfied.inj h
        intro pair hpair
        obtain ⟨property, hproperty, other, hother, -, rfl⟩ :=
          Program.mem_nested_diffProperties.mp hpair
        exact ⟨hclosed.knows_of_mem_properties hproperty, hclosed.knows_of_property? hother⟩
    · simp at h

theorem knowsPair_of_firstMatch (hclosed : c.program.types.Closed) {targets : List TypeId}
    {found : Candidates} {pairs : List NestedPair}
    (h : (c.firstMatch inner trail source targets found w).1 = .ok pairs) :
    ∀ pair ∈ pairs, c.KnowsPair pair := by
  induction targets generalizing found w with
  | nil => simp [firstMatch] at h
  | cons target rest ih =>
    rw [firstMatch] at h
    split at h
    · rename_i found' w' hmatch
      obtain rfl := Except.ok.inj h
      exact knowsPair_of_matchMember hclosed (congrArg Prod.fst hmatch)
    all_goals exact ih h

/-- All pairs that are left open in a round are known. -/
theorem knowsPair_of_matchAll (hclosed : c.program.types.Closed) {targets members : List TypeId}
    {pairs : List NestedPair} (h : (c.matchAll inner trail target targets members w).1 = .ok pairs) :
    ∀ pair ∈ pairs, c.KnowsPair pair := by
  induction members generalizing w pairs with
  | nil =>
    obtain rfl : [] = pairs := Except.ok.inj h
    simp
  | cons member rest ih =>
    rw [matchAll] at h
    split at h
    · simp at h
    · rename_i here w' hfirst
      split at h
      · rename_i more w'' hrest
        obtain rfl := Except.ok.inj h
        intro pair hpair
        rcases List.mem_append.mp hpair with hpair | hpair
        · exact knowsPair_of_firstMatch hclosed (congrArg Prod.fst hfirst) pair hpair
        · exact ih (congrArg Prod.fst hrest) pair hpair
      · simp at h

theorem compareOpen_of_agreesOn (hinner : AgreesOn c.program.types inner inner')
    {pairs : List NestedPair} (hp : ∀ pair ∈ pairs, c.KnowsPair pair) :
    compareOpen inner' trail pairs w = compareOpen inner trail pairs w := by
  induction pairs generalizing w with
  | nil => rfl
  | cons pair rest ih =>
    obtain ⟨⟨htarget, hsource⟩, hrest⟩ := List.forall_mem_cons.mp hp
    simp only [compareOpen, hinner _ _ htarget hsource, ih hrest]

/-- A round of a comparison comes to the same if what it asks for does. -/
theorem compareEntered_withTypes (h : c.program.types.Grows t')
    (hinner : AgreesOn c.program.types inner inner') (ht : c.program.types.Knows target)
    (hs : c.program.types.Knows source) :
    (c.withTypes t').compareEntered inner' target source trail w =
      c.compareEntered inner target source trail w := by
  have hclosed := h.settled.closed
  have hfits : t'.triviallyFits target source = c.program.types.triviallyFits target source :=
    h.triviallyFits ht hs
  cases c.meeting (c.program.types.triviallyFits target source) target source with
  | atOnce hf =>
    rw [compareEntered_of_triviallyFits hf]
    exact compareEntered_of_triviallyFits (hfits.trans hf)
  | @elements te se hf hte hse =>
    rw [compareEntered_of_elements hf hte hse,
      compareEntered_of_elements (hfits.trans hf) ((h.element? ht).trans hte)
        ((h.element? hs).trans hse),
      hinner te se (hclosed.knows_of_element? hte) (hclosed.knows_of_element? hse)]
  | whole hf ha =>
    have ha' : (t'.isArray target && t'.isArray source) = false := by
      rw [h.isArray ht, h.isArray hs, ha]
    have hmembers : ∀ i, c.program.types.Knows i → ∀ m ∈ c.program.types.members i,
        c.program.types.Knows m := fun i hi m hm => hclosed.knows_of_mem_members hi hm
    rw [compareEntered_of_not_isArray hf ha, compareEntered_of_not_isArray (hfits.trans hf) ha']
    simp only [program_withTypes, Program.types_withTypes, h.shape ht, h.shape hs, h.members ht,
      h.members hs, Program.typeClash_withTypes h ht hs,
      matchAll_withTypes h hinner ht (hmembers target ht) (hmembers source hs)]
    split
    · rfl
    · split
      · rfl
      · rename_i pairs w' hall
        exact compareOpen_of_agreesOn hinner (knowsPair_of_matchAll hclosed (congrArg Prod.fst hall))

end Rounds

/-- By induction on the depth. -/
theorem compareWithin_withTypes (h : c.program.types.Grows t') (n : Nat) :
    AgreesOn c.program.types (c.compareWithin n) ((c.withTypes t').compareWithin n) := by
  induction n with
  | zero =>
    intro target source _ _
    rfl
  | succ n ih =>
    intro target source ht hs
    funext trail w
    simp only [compareWithin, compareEntered_withTypes h ih ht hs]

/-- A comparison of known types finds the same conflict, or none, once the table has grown. -/
theorem conflict?_withTypes (h : c.program.types.Grows t') (ht : c.program.types.Knows target)
    (hs : c.program.types.Knows source) (trail : Trail) :
    (c.withTypes t').conflict? target source trail = c.conflict? target source trail := by
  simp only [conflict?, compare, compareWithin_withTypes h _ target source ht hs]

/-- So does a comparison on a logged walk, and the guard gives it the same answers. -/
theorem compareLogged_withTypes (h : c.program.types.Grows t') (n : Nat) :
    AgreesOn c.program.types (c.compareLogged n) ((c.withTypes t').compareLogged n) := by
  induction n with
  | zero =>
    intro target source _ _
    rfl
  | succ n ih =>
    intro target source ht hs
    funext trail w
    simp only [compareLogged, compareEntered_withTypes h ih ht hs]

theorem staysWithinLimits_withTypes (h : c.program.types.Grows t') (ht : c.program.types.Knows target)
    (hs : c.program.types.Knows source) (trail : Trail) :
    (c.withTypes t').StaysWithinLimits target source trail ↔ c.StaysWithinLimits target source trail := by
  simp only [StaysWithinLimits, compareLogged_withTypes h _ target source ht hs]

end Comparison

end Misfit
