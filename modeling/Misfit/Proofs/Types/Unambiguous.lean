import Misfit.Proofs.Text.Phrase
import Misfit.Proofs.Types.Built
import Misfit.Proofs.Types.Parts

/-!
# Types that are told apart by their texts

Where types are compared, two types with one text count as the same. For types that are made of built-in
types, arrays, unions and functions this is harmless as long as no function stands before another member
of a union: the text shows how the type is made. A function among the members is printed without
parentheses, so what follows it in the union reads like a part of its result.
-/
namespace Misfit

/-- A parameter without a declaration, whose name has no character that could end it. -/
structure Member.IsPlain (m : Member) : Prop where
  name_free : ∀ c ∈ m.name.toList, c ∉ ['(', ')', ',', ':', '?']
  undeclared : m.declaration = none

instance (m : Member) : Decidable m.IsPlain :=
  -- Decided by running through the name, not through all characters there are.
  decidable_of_iff
    ((m.name.toList.all fun c => c ∉ ['(', ')', ',', ':', '?']) = true ∧ m.declaration = none)
    ⟨fun h => ⟨fun c hc => of_decide_eq_true (List.all_eq_true.mp h.1 c hc), h.2⟩,
      fun h => ⟨List.all_eq_true.mpr fun c hc => decide_eq_true (h.name_free c hc), h.undeclared⟩⟩

theorem Member.IsPlain.phrase_name {m : Member} (hm : m.IsPlain) :
    Text.Phrase [',', ':', '?'] m.name.toList :=
  Text.phrase_of_chars fun c hc => by
    have hfree := hm.name_free c hc
    simp only [List.mem_cons, not_or] at hfree
    simp [hfree]

/-- No name of a built-in type has a character that means something in a text. -/
theorem Intrinsic.name_free (kind : Intrinsic) :
    ∀ c ∈ kind.name.toList, c ∉ ['(', ')', ']', ',', ' '] := by
  have hall : (kind.name.toList.all fun c => c ∉ ['(', ')', ']', ',', ' ']) = true := by
    cases kind <;> decide
  exact fun c hc => of_decide_eq_true (List.all_eq_true.mp hall c hc)

theorem Intrinsic.phrase_name (kind : Intrinsic) : Text.Phrase [',', ' '] kind.name.toList :=
  Text.phrase_of_chars fun c hc => by
    have hfree := kind.name_free c hc
    simp only [List.mem_cons, not_or] at hfree
    simp [hfree]

theorem Intrinsic.name_inj {a b : Intrinsic} (h : a.name = b.name) : a = b := by
  cases a <;> cases b <;> first | rfl | exact absurd h (by decide)

namespace Types

open Text

variable (t : Types)

/-- The types that are made of built-in types, arrays, functions with plain parameters, and unions whose
members are as `ok` asks. -/
inductive Plain (ok : List TypeId → Prop) : TypeId → Prop
  | intrinsic {i : TypeId} {kind : Intrinsic} (hi : t.get? i = some (.intrinsic kind)) : Plain ok i
  | array {i e : TypeId} (hi : t.get? i = some (.array e)) (he : Plain ok e) : Plain ok i
  | union {i : TypeId} {list : ListId} (hi : t.get? i = some (.union list))
    (hok : ok (t.listAt list)) (hm : ∀ m ∈ t.listAt list, Plain ok m) : Plain ok i
  | function {i : TypeId} {shape : FunctionId} (hi : t.get? i = some (.function shape))
    (hp : ∀ p ∈ (t.functionAt shape).parameters, p.IsPlain)
    (hpt : ∀ p ∈ (t.functionAt shape).parameters, Plain ok p.type)
    (hr : Plain ok (t.functionAt shape).result) : Plain ok i

/-- No member of a union is a union, and none but the last is a function. -/
def Separable (members : List TypeId) : Prop :=
  (∀ m ∈ members, t.isUnion m = false) ∧ ∀ m ∈ members.dropLast, t.isFunction m = false

instance (members : List TypeId) : Decidable (t.Separable members) :=
  inferInstanceAs (Decidable (_ ∧ _))

/-- The characters of the text of a type. -/
def text (i : TypeId) : List Char := (t.render i).toList

/-- The text of a type where it is the element of an array. -/
def elementText (e : TypeId) : List Char :=
  if t.needsParentheses e then '(' :: (t.text e ++ [')']) else t.text e

/-- The text of a parameter. -/
def parameterText (m : Member) : List Char :=
  m.name.toList ++ (m.mark.toList ++ ':' :: ' ' :: t.text m.type)

/-- What comes after the first piece of a text: a bar in a union, an arrow in a function. -/
def operator (i : TypeId) : List Char :=
  match t.get? i with
  | some (.union _) => [' ', '|', ' ']
  | some (.function _) => [' ', '=', '>', ' ']
  | _ => []

variable {t} {ok : List TypeId → Prop} {i j e : TypeId}

theorem Plain.of_hasPart (h : t.Plain ok i) (hj : t.HasPart i j) : t.Plain ok j := by
  unfold HasPart parts at hj
  cases h with
  | intrinsic hi => simp [hi] at hj
  | array hi he =>
    obtain rfl : j = _ := by simpa [hi] using hj
    exact he
  | union hi _ hm => exact hm j (by simpa [hi] using hj)
  | function hi _ hpt hr =>
    simp only [hi, FunctionShape.parts, List.mem_append, List.mem_map, List.mem_singleton] at hj
    rcases hj with ⟨p, hp, rfl⟩ | rfl
    · exact hpt p hp
    · exact hr

theorem Plain.holds : t.Holds (t.Plain ok) := by
  intro i h
  refine ⟨?_, fun j hj => h.of_hasPart hj⟩
  cases h with
  | intrinsic hi | array hi _ | union hi _ _ | function hi _ _ _ => exact knows_of_get? hi

/-- A plain type does not contain itself. By induction on how it is made. -/
theorem Plain.acyclic (h : t.Plain ok i) : ¬Relation.TransGen t.HasPart i i := by
  -- A way around from a type is a way around from the part that it leads through.
  have hpart : ∀ i, (∀ j, t.HasPart i j → ¬Relation.TransGen t.HasPart j j) →
      ¬Relation.TransGen t.HasPart i i := by
    intro i ih hcycle
    obtain ⟨j, hj, hback⟩ := Relation.TransGen.head'_iff.mp hcycle
    exact ih j hj (Relation.TransGen.tail' hback hj)
  induction h with
  | intrinsic hi => exact hpart _ fun j hj => by simp [HasPart, parts, hi] at hj
  | array hi _ ih =>
    refine hpart _ fun j hj => ?_
    obtain rfl : j = _ := by simpa [HasPart, parts, hi] using hj
    exact ih
  | union hi _ _ ih => exact hpart _ fun j hj => ih j (by simpa [HasPart, parts, hi] using hj)
  | function hi _ _ _ ihp ihr =>
    refine hpart _ fun j hj => ?_
    simp only [HasPart, parts, hi, FunctionShape.parts, List.mem_append, List.mem_map,
      List.mem_singleton] at hj
    rcases hj with ⟨p, hp, rfl⟩ | rfl
    · exact ihp p hp
    · exact ihr

theorem Plain.render_eq (h : t.Plain ok i) : t.render i = t.renderWith t.render i :=
  render_eq_renderWith Plain.holds h h.acyclic

theorem Plain.text_intrinsic (h : t.Plain ok i) {kind : Intrinsic}
    (hi : t.get? i = some (.intrinsic kind)) : t.text i = kind.name.toList := by
  rw [text, h.render_eq, renderWith, hi]

theorem Plain.text_array (h : t.Plain ok i) (hi : t.get? i = some (.array e)) :
    t.text i = t.elementText e ++ ['[', ']'] := by
  rw [text, h.render_eq, renderWith, hi]
  dsimp only
  unfold elementText text
  split <;> simp

theorem Plain.text_union (h : t.Plain ok i) {list : ListId} (hi : t.get? i = some (.union list)) :
    t.text i = [' ', '|', ' '].intercalate ((t.listAt list).map t.text) := by
  rw [text, h.render_eq, renderWith, hi]
  dsimp only
  rw [String.toList_intercalate, List.map_map]
  rfl

theorem Plain.text_function (h : t.Plain ok i) {shape : FunctionId}
    (hi : t.get? i = some (.function shape)) :
    t.text i = '(' :: ([',', ' '].intercalate ((t.functionAt shape).parameters.map t.parameterText) ++
      ')' :: ' ' :: '=' :: '>' :: ' ' :: t.text (t.functionAt shape).result) := by
  have hparameter : String.toList ∘ Member.render t.render = t.parameterText := by
    funext m
    simp [Member.render, parameterText, text]
  rw [text, h.render_eq, renderWith, hi]
  dsimp only
  simp only [FunctionShape.render, String.toList_append, String.toList_intercalate, List.map_map,
    hparameter]
  rw [List.append_assoc, List.append_assoc]
  rfl

theorem phrase_parameterText {m : Member} (hm : m.IsPlain) (h : Phrase [','] (t.text m.type)) :
    Phrase [','] (t.parameterText m) := by
  have hname : Phrase [','] m.name.toList := hm.phrase_name.mono (by simp)
  have hmark : Phrase [','] m.mark.toList := by
    unfold Member.mark
    split <;> exact phrase_of_all (by decide)
  exact hname.append (hmark.append
    (.char (by decide) (by decide) (by decide) (.char (by decide) (by decide) (by decide) h)))

theorem phrase_parameters {ps : List Member} (hp : ∀ p ∈ ps, p.IsPlain)
    (h : ∀ p ∈ ps, Phrase [','] (t.text p.type)) :
    Phrase [] ([',', ' '].intercalate (ps.map t.parameterText)) := by
  refine Phrase.intercalate (phrase_of_all (by decide)) fun w hw => ?_
  obtain ⟨p, hmem, rfl⟩ := List.mem_map.mp hw
  exact (phrase_parameterText (hp p hmem) (h p hmem)).mono (List.nil_subset _)

/-- Commas stand between the parameters of functions only. By induction on how the type is made. -/
theorem Plain.phrase (h : t.Plain ok i) : Phrase [','] (t.text i) := by
  have hself := h
  induction h with
  | @intrinsic i kind hi =>
    rw [hself.text_intrinsic hi]
    exact kind.phrase_name.mono (by simp)
  | array hi he ih =>
    rw [hself.text_array hi, elementText]
    refine Phrase.append ?_ (phrase_of_all (by decide))
    split
    · exact (ih he).parenthesized
    · exact ih he
  | union hi _ hm ih =>
    rw [hself.text_union hi]
    refine Phrase.intercalate (phrase_of_all (by decide)) fun w hw => ?_
    obtain ⟨m, hmem, rfl⟩ := List.mem_map.mp hw
    exact ih m hmem (hm m hmem)
  | function hi hp hpt hr ihp ihr =>
    rw [hself.text_function hi]
    have harrow : Phrase [','] [' ', '=', '>', ' '] := phrase_of_all (by decide)
    exact .group (phrase_parameters hp fun p hmem => ihp p hmem (hpt p hmem)) (harrow.append (ihr hr))

theorem Plain.phrase_elementText (h : t.Plain ok e)
    (hw : t.needsParentheses e = false → Phrase [' '] (t.text e)) : Phrase [' '] (t.elementText e) := by
  unfold elementText
  split
  · exact h.phrase.parenthesized
  · rename_i hparentheses
    exact hw (by simpa using hparentheses)

/-- A type that needs no parentheses has no blank outside of them. By induction on how it is made. -/
theorem Plain.phrase_of_word (h : t.Plain ok i) (hw : t.needsParentheses i = false) :
    Phrase [' '] (t.text i) := by
  have hself := h
  induction h with
  | @intrinsic i kind hi =>
    rw [hself.text_intrinsic hi]
    exact kind.phrase_name.mono (by simp)
  | array hi he ih =>
    rw [hself.text_array hi]
    exact Phrase.append (he.phrase_elementText fun hw => ih hw he) (phrase_of_all (by decide))
  | union hi _ _ => simp [needsParentheses, hi] at hw
  | function hi _ _ _ => simp [needsParentheses, hi] at hw

/-- No text that stands without parentheses ends with one. -/
theorem Plain.getLast?_text (h : t.Plain ok i) (hw : t.needsParentheses i = false) :
    (t.text i).getLast? ≠ some ')' := by
  cases h with
  | @intrinsic _ kind hi =>
    rw [Plain.text_intrinsic (.intrinsic hi : t.Plain ok i) hi]
    cases kind <;> decide
  | array hi he =>
    rw [Plain.text_array (.array hi he) hi]
    simp
  | union hi _ _ => simp [needsParentheses, hi] at hw
  | function hi _ _ _ => simp [needsParentheses, hi] at hw

/-- The text of a type is read back from its text as the element of an array. -/
theorem Plain.text_eq_of_elementText_eq (hi : t.Plain ok i) (hj : t.Plain ok j)
    (heq : t.elementText i = t.elementText j) : t.text i = t.text j := by
  unfold elementText at heq
  cases hwi : t.needsParentheses i <;> cases hwj : t.needsParentheses j <;>
    simp only [hwi, hwj, if_true, Bool.false_eq_true, if_false] at heq
  · exact heq
  · exact (hi.getLast?_text hwi (by rw [heq, ← List.cons_append, List.getLast?_concat])).elim
  · exact (hj.getLast?_text hwj (by rw [← heq, ← List.cons_append, List.getLast?_concat])).elim
  · exact List.append_cancel_right (List.cons.inj heq).2

theorem needsParentheses_eq_false (hu : t.isUnion i = false) (hf : t.isFunction i = false) :
    t.needsParentheses i = false := by
  unfold needsParentheses
  unfold isUnion at hu
  unfold isFunction function? at hf
  cases hi : t.get? i with
  | none => rfl
  | some d => cases d <;> simp_all

theorem operator_cases (i : TypeId) :
    t.operator i = [] ∨ t.operator i = [' ', '|', ' '] ∨ t.operator i = [' ', '=', '>', ' '] := by
  unfold operator
  split <;> simp

theorem stopped_operator {rest : List Char} (h : t.operator i = [] → rest = []) :
    Stopped [' '] (t.operator i ++ rest) := by
  rcases t.operator_cases i with hi | hi | hi
  · simp [hi, h hi, stopped_nil]
  · simp [hi, stopped_cons]
  · simp [hi, stopped_cons]

/-- The text of a type begins with a phrase without blanks, and goes on with its operator if there is
one. -/
theorem Plain.exists_heading (hs : t.Sound) (h : t.Plain t.Separable i) :
    ∃ head rest, Phrase [' '] head ∧ t.text i = head ++ (t.operator i ++ rest) ∧
      (t.operator i = [] → rest = []) := by
  have hself := h
  cases h with
  | intrinsic hi =>
    refine ⟨t.text i, [], hself.phrase_of_word (by simp [needsParentheses, hi]), ?_⟩
    simp [operator, hi]
  | array hi _ =>
    refine ⟨t.text i, [], hself.phrase_of_word (by simp [needsParentheses, hi]), ?_⟩
    simp [operator, hi]
  | @union _ list hi hok hm =>
    have hlength := hs.two_le_members hi
    match hmembers : t.listAt list with
    | [] | [_] => simp [hmembers] at hlength
    | first :: second :: more =>
      rw [hmembers] at hok hm
      have hword := needsParentheses_eq_false (hok.1 first List.mem_cons_self) (hok.2 first (by simp))
      refine ⟨t.text first, [' ', '|', ' '].intercalate ((second :: more).map t.text),
        (hm first List.mem_cons_self).phrase_of_word hword, ?_⟩
      rw [hself.text_union hi, hmembers, operator, hi]
      simp [List.intercalate_cons_cons]
  | @function _ shape hi hp hpt _ =>
    have hparameters := phrase_parameters hp fun p hmem => (hpt p hmem).phrase
    refine ⟨_, t.text (t.functionAt shape).result, hparameters.parenthesized, ?_⟩
    rw [hself.text_function hi, operator, hi]
    simp

/-- Types with one text have the same operator. -/
theorem Plain.operator_eq (hs : t.Sound) (hi : t.Plain t.Separable i) (hj : t.Plain t.Separable j)
    (heq : t.text i = t.text j) : t.operator i = t.operator j := by
  obtain ⟨head, rest, hhead, htext, hrest⟩ := hi.exists_heading hs
  obtain ⟨head', rest', hhead', htext', hrest'⟩ := hj.exists_heading hs
  rw [htext, htext'] at heq
  obtain ⟨-, htail⟩ := hhead.unique hhead' (stopped_operator hrest) (stopped_operator hrest') heq
  rcases t.operator_cases i with hi | hi | hi <;> rcases t.operator_cases j with hj | hj | hj <;>
    simp_all

/-- The text of a member that is not a union does not go on with a bar. -/
theorem Plain.text_ne_bar (hs : t.Sound) (h : t.Plain t.Separable i) (hu : t.isUnion i = false)
    {v r : List Char} (hv : Phrase [' '] v) : t.text i ≠ v ++ [' ', '|', ' '] ++ r := by
  intro heq
  obtain ⟨head, rest, hhead, htext, hrest⟩ := h.exists_heading hs
  rw [htext, List.append_assoc] at heq
  obtain ⟨-, htail⟩ := hhead.unique hv (stopped_operator hrest) (by simp [stopped_cons]) heq
  have hbar : t.operator i ≠ [' ', '|', ' '] := by
    unfold operator
    unfold isUnion at hu
    split <;> simp_all
  rcases t.operator_cases i with hi | hi | hi
  · simp [hi, hrest hi] at htail
  · exact hbar hi
  · simp [hi] at htail

/-- The members of a union are read back from its text. -/
theorem divided_members (hs : t.Sound) {members : List TypeId} (hne : members ≠ [])
    (hok : t.Separable members) (h : ∀ m ∈ members, t.Plain t.Separable m) :
    Divided [' '] [' ', '|', ' '] (members.map t.text) := by
  induction members with
  | nil => exact (hne rfl).elim
  | cons m members ih =>
    have hplain := h m List.mem_cons_self
    have hunion := hok.1 m List.mem_cons_self
    cases members with
    | nil => exact .last fun v r hv => hplain.text_ne_bar hs hunion hv
    | cons n members =>
      have hword := needsParentheses_eq_false hunion (hok.2 m (by simp))
      refine .cons (hplain.phrase_of_word hword) (ih (by simp) ⟨?_, ?_⟩ ?_)
      · exact fun k hk => hok.1 k (List.mem_cons_of_mem m hk)
      · exact fun k hk => hok.2 k (by simpa using Or.inr hk)
      · exact fun k hk => h k (List.mem_cons_of_mem m hk)

/-- Items are read back from their images if each of them is. -/
theorem eq_of_map_eq {α β : Type} {f : α → β} {l l' : List α}
    (h : ∀ a ∈ l, ∀ b ∈ l', f a = f b → a = b) (heq : l.map f = l'.map f) : l = l' := by
  induction l generalizing l' with
  | nil => exact (List.map_eq_nil_iff.mp heq.symm).symm
  | cons a l ih =>
    cases l' with
    | nil => simp at heq
    | cons b l' =>
      obtain ⟨hhead, htail⟩ := List.cons.inj heq
      rw [h a List.mem_cons_self b List.mem_cons_self hhead,
        ih (fun x hx y hy => h x (List.mem_cons_of_mem a hx) y (List.mem_cons_of_mem b hy)) htail]

/-- A parameter is read back from its text if its type is. -/
theorem parameter_eq_of_text_eq {m m' : Member} (hm : m.IsPlain) (hm' : m'.IsPlain)
    (htype : t.text m.type = t.text m'.type → m.type = m'.type)
    (heq : t.parameterText m = t.parameterText m') : m = m' := by
  have hname : ∀ m : Member, m.IsPlain → Phrase [':', '?'] m.name.toList := fun m hm =>
    hm.phrase_name.mono (by simp)
  have hstop : ∀ m : Member, Stopped [':', '?'] (m.mark.toList ++ ':' :: ' ' :: t.text m.type) := by
    intro m
    unfold Member.mark
    split <;> simp [stopped_cons]
  obtain ⟨hnames, hrest⟩ := (hname m hm).unique (hname m' hm') (hstop m) (hstop m') heq
  have hmarks : m.optional = m'.optional ∧ t.text m.type = t.text m'.type := by
    unfold Member.mark at hrest
    cases ho : m.optional <;> cases ho' : m'.optional <;> simp_all
  obtain ⟨name, type, optional, declaration⟩ := m
  obtain ⟨name', type', optional', declaration'⟩ := m'
  obtain rfl : name = name' := String.toList_inj.mp hnames
  obtain rfl : optional = optional' := hmarks.1
  obtain rfl : type = type' := htype hmarks.2
  obtain rfl : declaration = none := hm.undeclared
  obtain rfl : declaration' = none := hm'.undeclared
  rfl

/-- The parameters of a function are read back from its text. -/
theorem parameters_eq_of_text_eq {ps ps' : List Member} (hp : ∀ p ∈ ps, p.IsPlain)
    (hp' : ∀ p ∈ ps', p.IsPlain) (hphrase : ∀ p ∈ ps, Phrase [','] (t.text p.type))
    (hphrase' : ∀ p ∈ ps', Phrase [','] (t.text p.type))
    (htype : ∀ p ∈ ps, ∀ p' ∈ ps', t.text p.type = t.text p'.type → p.type = p'.type)
    (heq : [',', ' '].intercalate (ps.map t.parameterText) =
      [',', ' '].intercalate (ps'.map t.parameterText)) : ps = ps' := by
  have hdivided : ∀ qs : List Member, (∀ q ∈ qs, q.IsPlain) → (∀ q ∈ qs, Phrase [','] (t.text q.type)) →
      qs ≠ [] → Divided [','] [',', ' '] (qs.map t.parameterText) := by
    intro qs hq hqt hne
    refine divided_of_phrases (by simp [stopped_cons]) (by simp) (fun w hw => ?_) (by simpa using hne)
    obtain ⟨q, hmem, rfl⟩ := List.mem_map.mp hw
    exact phrase_parameterText (hq q hmem) (hqt q hmem)
  have hempty : ∀ qs : List Member, [',', ' '].intercalate (qs.map t.parameterText) = [] → qs = [] := by
    intro qs hq
    match qs with
    | [] => rfl
    | [q] => simp [parameterText] at hq
    | q :: r :: qs => simp [parameterText, List.intercalate_cons_cons] at hq
  by_cases hne : ps = []
  · rw [hne] at heq
    rw [hne, hempty ps' heq.symm]
  · by_cases hne' : ps' = []
    · rw [hne'] at heq
      rw [hne', hempty ps heq]
    · refine eq_of_map_eq (fun p hmem p' hmem' => ?_) <| (hdivided ps hp hphrase hne).intercalate_inj
        (by simp [stopped_cons]) (hdivided ps' hp' hphrase' hne') heq
      exact parameter_eq_of_text_eq (hp p hmem) (hp' p' hmem') (htype p hmem p' hmem')

/-- The text of a built-in type is not that of an array. -/
theorem Plain.text_ne_of_array {ok : List TypeId → Prop} {kind : Intrinsic} {e : TypeId}
    (hi : t.Plain ok i) (hj : t.Plain ok j) (hkind : t.get? i = some (.intrinsic kind))
    (harray : t.get? j = some (.array e)) : t.text i ≠ t.text j := by
  intro heq
  rw [hi.text_intrinsic hkind, hj.text_array harray] at heq
  exact kind.name_free ']' (by rw [heq]; simp) (by simp)

/-- Plain types with separable unions are told apart by their texts. By induction on how the first one is
made. -/
theorem Plain.eq_of_text_eq (hs : t.Sound) (hi : t.Plain t.Separable i) (hj : t.Plain t.Separable j)
    (heq : t.text i = t.text j) : i = j := by
  have hself := hi
  induction hi generalizing j with
  | intrinsic hi =>
    have hop := hself.operator_eq hs hj heq
    have hother := hj
    cases hj with
    | intrinsic hj =>
      rw [hself.text_intrinsic hi, hother.text_intrinsic hj] at heq
      obtain rfl := Intrinsic.name_inj (String.toList_inj.mp heq)
      exact hs.id_inj hi hj
    | array hj _ => exact (hself.text_ne_of_array hother hi hj heq).elim
    | union hj _ _ | function hj _ _ _ => simp [operator, hi, hj] at hop
  | array hi he ih =>
    have hop := hself.operator_eq hs hj heq
    have hother := hj
    cases hj with
    | intrinsic hj => exact (hother.text_ne_of_array hself hj hi heq.symm).elim
    | array hj he' =>
      rw [hself.text_array hi, hother.text_array hj] at heq
      obtain rfl := ih he' (he.text_eq_of_elementText_eq he' (List.append_cancel_right heq)) he
      exact hs.id_inj hi hj
    | union hj _ _ | function hj _ _ _ => simp [operator, hi, hj] at hop
  | @union i list hi hok hm ih =>
    have hop := hself.operator_eq hs hj heq
    have hother := hj
    cases hj with
    | @union _ list' hj hok' hm' =>
      have hne := List.ne_nil_of_length_pos (Nat.lt_of_lt_of_le Nat.two_pos (hs.two_le_members hi))
      have hne' := List.ne_nil_of_length_pos (Nat.lt_of_lt_of_le Nat.two_pos (hs.two_le_members hj))
      rw [hself.text_union hi, hother.text_union hj] at heq
      have htexts := (divided_members hs hne hok hm).intercalate_inj (by simp [stopped_cons])
        (divided_members hs hne' hok' hm') heq
      refine hs.union_inj hi hj (eq_of_map_eq (fun m hmem m' hmem' h => ?_) htexts)
      exact ih m hmem (hm' m' hmem') h (hm m hmem)
    | intrinsic hj | array hj _ | function hj _ _ _ => simp [operator, hi, hj] at hop
  | @function i shape hi hp hpt hr ihp ihr =>
    have hop := hself.operator_eq hs hj heq
    have hother := hj
    cases hj with
    | @function _ shape' hj hp' hpt' hr' =>
      rw [hself.text_function hi, hother.text_function hj] at heq
      have hphrase : ∀ p ∈ (t.functionAt shape).parameters, Phrase [','] (t.text p.type) :=
        fun p hmem => (hpt p hmem).phrase
      have hphrase' : ∀ p ∈ (t.functionAt shape').parameters, Phrase [','] (t.text p.type) :=
        fun p hmem => (hpt' p hmem).phrase
      obtain ⟨htexts, hrest⟩ := (phrase_parameters hp hphrase).unique (phrase_parameters hp' hphrase')
        stopped_close stopped_close (List.cons.inj heq).2
      have hparameters := parameters_eq_of_text_eq hp hp' hphrase hphrase'
        (fun p hmem p' hmem' h => ihp p hmem (hpt' p' hmem') h (hpt p hmem)) htexts
      have hresult := ihr hr' (by simpa using hrest) hr
      have hshape : ∀ a b : FunctionShape, a.parameters = b.parameters → a.result = b.result →
          a = b := by
        rintro ⟨_, _⟩ ⟨_, _⟩ rfl rfl
        rfl
      exact hs.function_inj hi hj (hshape _ _ hparameters hresult)
    | intrinsic hj | array hj _ | union hj _ _ => simp [operator, hi, hj] at hop

/-- In a table that the operations build, plain types with separable unions have one text only if they
are one type. -/
theorem render_eq_iff (h : t.Built) (hi : t.Plain t.Separable i) (hj : t.Plain t.Separable j) :
    t.render i = t.render j ↔ i = j :=
  ⟨fun heq => hi.eq_of_text_eq h.sound hj (congrArg String.toList heq), fun heq => by rw [heq]⟩

/-- The array of a union, the union with an array, a function between them, and a union that ends with
the function. -/
def separableTypes : Types :=
  let t := (initial.union [TypeId.string, TypeId.number]).1
  let t := (t.array ⟨15⟩).1
  let t := (t.array TypeId.number).1
  let t := (t.union [TypeId.string, ⟨17⟩]).1
  let t := (t.function
    { parameters := [{ name := "x", type := ⟨16⟩, optional := true }], result := ⟨18⟩ }).1
  (t.union [TypeId.number, ⟨19⟩]).1

/-- `(string | number)[]`, `string | number[]` and
`number | (x?: (string | number)[]) => string | number[]` are told apart. -/
theorem render_separableTypes :
    let t := separableTypes
    (t.Plain t.Separable ⟨16⟩ ∧ t.Plain t.Separable ⟨18⟩ ∧ t.Plain t.Separable ⟨20⟩) ∧
      t.render ⟨16⟩ ≠ t.render ⟨18⟩ ∧ t.render ⟨18⟩ ≠ t.render ⟨20⟩ := by
  intro t
  have hbuilt : t.Built := (((((Built.initial.union _).array _).array _).union _).function _).union _
  have hstring : t.Plain t.Separable TypeId.string :=
    .intrinsic (show t.get? _ = some (.intrinsic .string) by decide)
  have hnumber : t.Plain t.Separable TypeId.number :=
    .intrinsic (show t.get? _ = some (.intrinsic .number) by decide)
  have hunion : t.Plain t.Separable ⟨15⟩ :=
    .union (show t.get? _ = some (.union ⟨0⟩) by decide) (by decide)
      (List.forall_mem_cons.mpr ⟨hstring, List.forall_mem_singleton.mpr hnumber⟩)
  have harray : t.Plain t.Separable ⟨16⟩ := .array (by decide) hunion
  have hnumbers : t.Plain t.Separable ⟨17⟩ := .array (by decide) hnumber
  have hresult : t.Plain t.Separable ⟨18⟩ :=
    .union (show t.get? _ = some (.union ⟨1⟩) by decide) (by decide)
      (List.forall_mem_cons.mpr ⟨hstring, List.forall_mem_singleton.mpr hnumbers⟩)
  have hfunction : t.Plain t.Separable ⟨19⟩ :=
    .function (show t.get? _ = some (.function ⟨0⟩) by decide) (by decide)
      (List.forall_mem_singleton.mpr harray) hresult
  have hlast : t.Plain t.Separable ⟨20⟩ :=
    .union (show t.get? _ = some (.union ⟨2⟩) by decide) (by decide)
      (List.forall_mem_cons.mpr ⟨hnumber, List.forall_mem_singleton.mpr hfunction⟩)
  refine ⟨⟨harray, hresult, hlast⟩, ?_, ?_⟩
  · exact fun heq => absurd ((render_eq_iff hbuilt harray hresult).mp heq) (by decide)
  · exact fun heq => absurd ((render_eq_iff hbuilt hresult hlast).mp heq) (by decide)

/-- A union that begins with a function, and a function whose result is a union. -/
def ambiguousTypes : Types :=
  let t := (initial.function { result := TypeId.string }).1
  let t := (t.union [⟨15⟩, TypeId.number]).1
  let t := (t.union [TypeId.string, TypeId.number]).1
  (t.function { result := ⟨17⟩ }).1

/-- The union of `() => string` and `number` is printed like the function that has the union of `string`
and `number` as its result. -/
theorem render_ambiguousTypes :
    let t := ambiguousTypes
    t.Built ∧ t.Plain (fun _ => True) ⟨16⟩ ∧ t.Plain (fun _ => True) ⟨18⟩ ∧
      t.render ⟨16⟩ = t.render ⟨18⟩ ∧ (⟨16⟩ : TypeId) ≠ ⟨18⟩ := by
  intro t
  have hbuilt : t.Built := (((Built.initial.function _).union _).union _).function _
  have hstring : t.Plain (fun _ => True) TypeId.string :=
    .intrinsic (show t.get? _ = some (.intrinsic .string) by decide)
  have hnumber : t.Plain (fun _ => True) TypeId.number :=
    .intrinsic (show t.get? _ = some (.intrinsic .number) by decide)
  have hfunction : t.Plain (fun _ => True) ⟨15⟩ :=
    .function (show t.get? _ = some (.function ⟨0⟩) by decide) (by decide) (List.forall_mem_nil _)
      hstring
  have hunion : t.Plain (fun _ => True) ⟨17⟩ :=
    .union (show t.get? _ = some (.union ⟨1⟩) by decide) trivial
      (List.forall_mem_cons.mpr ⟨hstring, List.forall_mem_singleton.mpr hnumber⟩)
  have hfirst : t.Plain (fun _ => True) ⟨16⟩ :=
    .union (show t.get? _ = some (.union ⟨0⟩) by decide) trivial
      (List.forall_mem_cons.mpr ⟨hfunction, List.forall_mem_singleton.mpr hnumber⟩)
  have hsecond : t.Plain (fun _ => True) ⟨18⟩ :=
    .function (show t.get? _ = some (.function ⟨1⟩) by decide) (by decide) (List.forall_mem_nil _)
      hunion
  exact ⟨hbuilt, hfirst, hsecond, by decide, by decide⟩

end Types

end Misfit
