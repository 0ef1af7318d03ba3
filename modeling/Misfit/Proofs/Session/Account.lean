import Misfit.Proofs.Explain.Recording
import Misfit.Session
import Misfit.Tree.Draft
import Mathlib.Data.List.Basic

/-!
# Every place is accounted for once

A run explains diagnostics by their places. Explaining one place leaves the places of all diagnostics as
they are, and adds a single entry to the report. So the report of a run that comes to its end has one
entry for each place, made for the first diagnostic there, and the entries stand in the order of those.
-/
namespace Misfit

/-- The place that an explanation is about. -/
def Explanation.place (e : Explanation) : Session.Place := (e.file, e.root)

/-- The place that is left unexplained. -/
def Unexplained.place (u : Unexplained) : Session.Place := (u.file, u.root)

/-- The places that a report has entries for, the explained ones first. -/
def Report.places (r : Report) : List Session.Place :=
  r.explanations.map Explanation.place ++ r.unexplained.map Unexplained.place

namespace Session

/-- The file of a diagnostic and its root there, if the program has the file. -/
def placeOf (s : Session) (d : Diagnostic) : Option Place :=
  (s.program.file? d.file).map fun source => (d.file, s.rootOf source d)

/-- The places of the diagnostics that are not ignored, each with the code that it comes up with. -/
def occurrences (s : Session) (ds : List Diagnostic) : List (Place × Nat) :=
  ds.filterMap fun d =>
    if s.options.ignores d.code then none else (s.placeOf d).map fun p => (p, d.code)

/-- A place comes up before another one, where both come up first. -/
def ComesUpBefore (s : Session) (ds : List Diagnostic) (p q : Place) : Prop :=
  ((s.occurrences ds).map Prod.fst).idxOf p < ((s.occurrences ds).map Prod.fst).idxOf q

end Session

/-- The report has one entry for each place of a diagnostic that is not ignored. Its code is the one that
the place comes up with first, and in both lists the places stand in the order in which they come up. -/
structure Report.AccountsFor (r : Report) (s : Session) (ds : List Diagnostic) : Prop where
  nodup : r.places.Nodup
  mem_iff : ∀ p, p ∈ r.places ↔
    ∃ d ∈ ds, s.options.ignores d.code = false ∧ s.placeOf d = some p
  explanation_code : ∀ e ∈ r.explanations, (s.occurrences ds).lookup e.place = some e.code
  unexplained_code : ∀ u ∈ r.unexplained, (s.occurrences ds).lookup u.place = some u.code
  explanations_order : (r.explanations.map Explanation.place).Pairwise (s.ComesUpBefore ds)
  unexplained_order : (r.unexplained.map Unexplained.place).Pairwise (s.ComesUpBefore ds)

namespace Session

/-- The occurrences of keys that have not been seen before, without repetitions. -/
def firsts {α β : Type} [DecidableEq α] : List α → List (α × β) → List (α × β)
  | _, [] => []
  | seen, o :: rest => if o.1 ∈ seen then firsts seen rest else o :: firsts (o.1 :: seen) rest

section Firsts

variable {α β : Type} [DecidableEq α] {seen : List α} {os : List (α × β)} {p : α}

theorem mem_firsts_iff : p ∈ (firsts seen os).map Prod.fst ↔ p ∉ seen ∧ p ∈ os.map Prod.fst := by
  induction os generalizing seen with
  | nil => simp [firsts]
  | cons o rest ih =>
    by_cases ho : o.1 ∈ seen
    · have hne : p ∉ seen → p ≠ o.1 := fun hp heq => hp (heq ▸ ho)
      rw [firsts, if_pos ho, ih, List.map_cons, List.mem_cons]
      exact and_congr_right fun hp => (or_iff_right (hne hp)).symm
    · rw [firsts, if_neg ho, List.map_cons, List.mem_cons, ih, List.map_cons, List.mem_cons,
        List.mem_cons]
      by_cases hp : p = o.1
      · simp [hp, ho]
      · simp [hp]

theorem nodup_firsts : ((firsts seen os).map Prod.fst).Nodup := by
  induction os generalizing seen with
  | nil => exact List.nodup_nil
  | cons o rest ih =>
    rw [firsts]
    split
    · exact ih
    · rw [List.map_cons, List.nodup_cons, mem_firsts_iff]
      exact ⟨fun h => h.1 List.mem_cons_self, ih⟩

theorem firsts_sublist : (firsts seen os).Sublist os := by
  induction os generalizing seen with
  | nil => exact List.Sublist.slnil
  | cons o rest ih =>
    rw [firsts]
    split
    · exact ih.cons o
    · exact ih.cons_cons o

end Firsts

section FirstPlaces

variable {seen : List Place} {os : List (Place × Nat)} {p : Place} {code : Nat}

/-- A first occurrence is what looking its place up comes to. -/
theorem lookup_of_mem_firsts (h : (p, code) ∈ firsts seen os) : os.lookup p = some code := by
  induction os generalizing seen with
  | nil => simp [firsts] at h
  | cons o rest ih =>
    have hplace : p ∉ seen := (mem_firsts_iff.mp (List.mem_map_of_mem h)).1
    rw [firsts] at h
    split at h
    · rename_i ho
      have hne : (p == o.1) = false := beq_false_of_ne fun heq => hplace (heq ▸ ho)
      rw [List.lookup_cons, hne]
      exact ih h
    · rcases List.mem_cons.mp h with rfl | h
      · simp
      · have hne : p ≠ o.1 := by
          have hfresh := (mem_firsts_iff.mp (List.mem_map_of_mem h)).1
          exact fun heq => hfresh (heq ▸ List.mem_cons_self)
        rw [List.lookup_cons, beq_false_of_ne hne]
        exact ih h

theorem pairwise_firsts : ((firsts seen os).map Prod.fst).Pairwise fun p q =>
    (os.map Prod.fst).idxOf p < (os.map Prod.fst).idxOf q := by
  induction os generalizing seen with
  | nil => exact List.Pairwise.nil
  | cons o rest ih =>
    -- One place more in front moves all the others on by one.
    have hshift : ∀ (seen' : List Place), (∀ q ∈ (firsts seen' rest).map Prod.fst, q ≠ o.1) →
        ((firsts seen' rest).map Prod.fst).Pairwise fun p q =>
          ((o :: rest).map Prod.fst).idxOf p < ((o :: rest).map Prod.fst).idxOf q := by
      intro seen' hne
      refine (@ih seen').imp_of_mem fun {p q} hp hq hlt => ?_
      rw [List.map_cons, List.idxOf_cons_ne _ (hne p hp).symm, List.idxOf_cons_ne _ (hne q hq).symm]
      omega
    rw [firsts]
    split
    · rename_i ho
      exact hshift seen fun q hq heq => (mem_firsts_iff.mp hq).1 (heq ▸ ho)
    · have hne : ∀ q ∈ (firsts (o.1 :: seen) rest).map Prod.fst, q ≠ o.1 :=
        fun q hq heq => (mem_firsts_iff.mp hq).1 (heq ▸ List.mem_cons_self)
      refine List.pairwise_cons.mpr ⟨fun q hq => ?_, hshift (o.1 :: seen) hne⟩
      rw [List.map_cons, List.idxOf_cons_self, List.idxOf_cons_ne _ (hne q hq).symm]
      omega

end FirstPlaces

/-- The entries of a report are made for a list of occurrences, one for each and in their order. -/
inductive Accounts : List Explanation → List Unexplained → List (Place × Nat) → Prop
  | nil : Accounts [] [] []
  | explained {es : List Explanation} {us : List Unexplained} {os : List (Place × Nat)}
      (e : Explanation) (h : Accounts es us os) : Accounts (e :: es) us ((e.place, e.code) :: os)
  | unexplained {es : List Explanation} {us : List Unexplained} {os : List (Place × Nat)}
      (u : Unexplained) (h : Accounts es us os) : Accounts es (u :: us) ((u.place, u.code) :: os)

section Accounts

variable {es : List Explanation} {us : List Unexplained} {os : List (Place × Nat)}

theorem Accounts.perm (h : Accounts es us os) :
    (es.map Explanation.place ++ us.map Unexplained.place).Perm (os.map Prod.fst) := by
  induction h with
  | nil => exact List.Perm.nil
  | explained e h ih => exact ih.cons e.place
  | unexplained u h ih => exact List.perm_middle.trans (ih.cons u.place)

theorem Accounts.explanations_sublist (h : Accounts es us os) :
    (es.map fun e => (e.place, e.code)).Sublist os := by
  induction h with
  | nil => exact List.Sublist.slnil
  | explained e h ih => exact ih.cons_cons _
  | unexplained u h ih => exact ih.cons _

theorem Accounts.unexplained_sublist (h : Accounts es us os) :
    (us.map fun u => (u.place, u.code)).Sublist os := by
  induction h with
  | nil => exact List.Sublist.slnil
  | explained e h ih => exact ih.cons _
  | unexplained u h ih => exact ih.cons_cons _

end Accounts

/-- Both sessions place diagnostics alike and ignore the same codes. -/
structure SameGround (s s' : Session) : Prop where
  files : s'.program.files = s.program.files
  nodeTypes : s'.program.nodeTypes = s.program.nodeTypes
  options : s'.options = s.options

theorem SameGround.occurrences {s s' : Session} (h : SameGround s s') (ds : List Diagnostic) :
    s'.occurrences ds = s.occurrences ds := by
  unfold Session.occurrences placeOf rootOf Program.file? Program.typeOf
  rw [h.files, h.nodeTypes, h.options]

end Session

theorem Program.narrowParameters_ground (p : Program) (ms : List Member) :
    (p.narrowParameters ms).1.files = p.files ∧ (p.narrowParameters ms).1.nodeTypes = p.nodeTypes := by
  induction ms generalizing p with
  | nil => exact ⟨rfl, rfl⟩
  | cons m rest ih => exact ih (p.narrowParameter m).1

/-- Explaining a site changes nothing about a program but its types. -/
theorem Site.explain_ground (s : Site) (r : Recorded) :
    (s.explain r).1.files = s.program.files ∧ (s.explain r).1.nodeTypes = s.program.nodeTypes := by
  unfold explain
  split
  case h_4 =>
    unfold explainCall
    split
    · exact ⟨rfl, rfl⟩
    · exact s.program.narrowParameters_ground _
  all_goals exact ⟨rfl, rfl⟩

/-- What comes of a site is a single entry, for its root and under the given code. -/
theorem Site.outcome_explain (s : Site) (code : Nat) (kind : Kind) :
    (∃ e : Explanation, s.outcome code kind (s.explain {}).2 = .explained [e] ∧
        e.place = (s.file, s.root) ∧ e.code = code) ∨
      ∃ u : Unexplained, s.outcome code kind (s.explain {}).2 = .unexplained u ∧
        u.place = (s.file, s.root) ∧ u.code = code := by
  have hsite : AtMostOne _ {} (s.explain {}).2 := s.recordsAtMostOne_explain {} rfl
  generalize (s.explain {}).2 = ended at hsite ⊢
  cases hsite with
  | @unchanged ended r h =>
    cases ended with
    | error reason => exact Or.inr ⟨s.unexplained code kind reason, rfl, rfl, rfl⟩
    | ok _ =>
      exact Or.inr ⟨s.unexplained code kind .noConflictFound, by simp [outcome, h], rfl, rfl⟩
  | one entry h =>
    exact Or.inl ⟨s.explanation code kind entry.1 entry.2, by simp [outcome, h], rfl, rfl⟩

/-- The node to be explained is a node of the file. -/
theorem SourceFile.kind?_locateRoot {f : SourceFile} {flagged : NodeId} (type : Option TypeId)
    (h : (f.node? flagged).isSome = true) : ∃ kind, f.kind? (f.locateRoot flagged type) = some kind := by
  have hnode : ∃ n, f.node? (f.locateRoot flagged type) = some n := by
    unfold locateRoot
    cases hfound : f.findAbove flagged fun n => n.kind.isRoot (type = some TypeId.any) with
    | none => exact Option.isSome_iff_exists.mp h
    | some root =>
      have hany := f.any_of_findAbove hfound
      cases hn : f.node? root with
      | none => simp [hn] at hany
      | some n => exact ⟨n, hn⟩
  obtain ⟨n, hn⟩ := hnode
  exact ⟨n.kind, by simp [kind?, hn]⟩

namespace Session

theorem sameGround_explainRoot (s : Session) (source : SourceFile) (d : Diagnostic) (root : NodeId)
    (kind : Kind) : SameGround s (s.explainRoot source d root kind).1 := by
  have hindex : SameGround s (s.indexOf d.file source).1 := by
    unfold indexOf
    split <;> exact ⟨rfl, rfl, rfl⟩
  have hsite := Site.explain_ground ⟨(s.indexOf d.file source).1.program,
    (s.indexOf d.file source).1.options, d.file, source, (s.indexOf d.file source).2, d.node, root⟩ {}
  exact ⟨hsite.1.trans hindex.files, hsite.2.trans hindex.nodeTypes, hindex.options⟩

theorem explainRoot_outcome (s : Session) (source : SourceFile) (d : Diagnostic) (root : NodeId)
    (kind : Kind) :
    (∃ e : Explanation, (s.explainRoot source d root kind).2 = .explained [e] ∧
        e.place = (d.file, root) ∧ e.code = d.code) ∨
      ∃ u : Unexplained, (s.explainRoot source d root kind).2 = .unexplained u ∧
        u.place = (d.file, root) ∧ u.code = d.code :=
  Site.outcome_explain ⟨(s.indexOf d.file source).1.program, (s.indexOf d.file source).1.options,
    d.file, source, (s.indexOf d.file source).2, d.node, root⟩ d.code kind

/-- The file of a diagnostic is a file of the program that has its node. -/
theorem sourceOf_eq_ok {s : Session} {d : Diagnostic} {source : SourceFile}
    (h : s.sourceOf d = .ok source) :
    s.program.file? d.file = some source ∧ (source.node? d.node).isSome = true := by
  unfold sourceOf at h
  split at h
  · simp at h
  · rename_i found hfile
    split at h
    · rename_i hnode
      cases h
      exact ⟨hfile, hnode⟩
    · simp at h

/-- From any point of a run on, the entries that it adds are made for the places that come up first from
there. By induction on the diagnostics that are left. -/
theorem accounts_of_runFrom {s s' : Session} {seen : List Place} {report report' : Report}
    {ds : List Diagnostic} (h : s.runFrom seen report ds = (s', .ok report')) :
    ∃ es us, report'.explanations = report.explanations ++ es ∧
      report'.unexplained = report.unexplained ++ us ∧
      Accounts es us (firsts seen (s.occurrences ds)) := by
  induction ds generalizing s seen report with
  | nil =>
    simp only [runFrom, Prod.mk.injEq, Except.ok.injEq] at h
    exact ⟨[], [], by simp [h.2], by simp [h.2], .nil⟩
  | cons d rest ih =>
    rw [runFrom] at h
    split at h
    · rename_i hignored
      have hoccurrences : s.occurrences (d :: rest) = s.occurrences rest := by
        simp [occurrences, hignored]
      rw [hoccurrences]
      exact ih h
    rename_i hflagged
    cases hsource : s.sourceOf d with
    | error fault => simp [hsource] at h
    | ok source =>
      obtain ⟨hfile, hnode⟩ := sourceOf_eq_ok hsource
      have hoccurrences : s.occurrences (d :: rest) =
          ((d.file, s.rootOf source d), d.code) :: s.occurrences rest := by
        simp [occurrences, hflagged, placeOf, hfile]
      simp only [hsource] at h
      rw [hoccurrences, firsts]
      split at h
      · rename_i hseen
        rw [if_pos hseen]
        exact ih h
      rename_i hseen
      rw [if_neg hseen]
      obtain ⟨kind, hkind⟩ := SourceFile.kind?_locateRoot (s.program.typeOf d.file d.node) hnode
      have hkind' : source.kind? (s.rootOf source d) = some kind := hkind
      simp only [hkind'] at h
      obtain ⟨es, us, hes, hus, haccounts⟩ := ih h
      rw [(s.sameGround_explainRoot source d _ kind).occurrences] at haccounts
      rcases s.explainRoot_outcome source d (s.rootOf source d) kind with
        ⟨e, he, hplace, hcode⟩ | ⟨u, hu, hplace, hcode⟩
      · rw [← hplace] at haccounts
        rw [← hplace, ← hcode]
        refine ⟨e :: es, us, ?_, ?_, .explained e haccounts⟩
        · rw [hes, he, Report.add, List.append_assoc, List.singleton_append]
        · rw [hus, he, Report.add]
      · rw [← hplace] at haccounts
        rw [← hplace, ← hcode]
        refine ⟨es, u :: us, ?_, ?_, .unexplained u haccounts⟩
        · rw [hes, hu, Report.add]
        · rw [hus, hu, Report.add, List.append_assoc, List.singleton_append]

theorem mem_occurrences {s : Session} {ds : List Diagnostic} {p : Place} :
    p ∈ (s.occurrences ds).map Prod.fst ↔
      ∃ d ∈ ds, s.options.ignores d.code = false ∧ s.placeOf d = some p := by
  simp only [occurrences, List.mem_map, List.mem_filterMap]
  constructor
  · rintro ⟨⟨q, code⟩, ⟨d, hd, hoccurs⟩, rfl⟩
    split at hoccurs
    · simp at hoccurs
    · rename_i hflagged
      obtain ⟨q', hq, heq⟩ := Option.map_eq_some_iff.mp hoccurs
      cases heq
      exact ⟨d, hd, by simpa using hflagged, hq⟩
  · rintro ⟨d, hd, hflagged, hp⟩
    exact ⟨(p, d.code), ⟨d, hd, by simp [hflagged, hp]⟩, rfl⟩

/-- The report of a run accounts for every place exactly once. -/
theorem accountsFor_of_run {s : Session} {ds : List Diagnostic} {report : Report}
    (h : (s.run ds).2 = .ok report) : report.AccountsFor s ds := by
  have hrun : s.runFrom [] {} ds = ((s.run ds).1, .ok report) := Prod.ext rfl h
  obtain ⟨es, us, hes, hus, haccounts⟩ := accounts_of_runFrom hrun
  rw [List.nil_append] at hes hus
  subst hes
  subst hus
  have hperm : report.places.Perm ((firsts [] (s.occurrences ds)).map Prod.fst) := haccounts.perm
  have hes := haccounts.explanations_sublist
  have hus := haccounts.unexplained_sublist
  have hexplained := hes.map Prod.fst
  have hunexplained := hus.map Prod.fst
  rw [List.map_map] at hexplained hunexplained
  refine ⟨hperm.nodup_iff.mpr nodup_firsts, fun p => ?_, fun e he => ?_, fun u hu => ?_, ?_, ?_⟩
  · rw [hperm.mem_iff, mem_firsts_iff, mem_occurrences]
    simp
  · exact lookup_of_mem_firsts (hes.subset (List.mem_map_of_mem he))
  · exact lookup_of_mem_firsts (hus.subset (List.mem_map_of_mem hu))
  · exact pairwise_firsts.sublist hexplained
  · exact pairwise_firsts.sublist hunexplained

/-- A declaration whose initializer does not fit, and a name on its own. -/
def twoStatements : Session :=
  let d : Draft := { name := "a.ts" }
  let (d, value) := d.numericLiteral "1"
  let (d, declaration) := d.variableDeclaration "a" (some "string") (some value)
  let (d, statement) := d.variableStatement declaration
  let (d, name) := d.identifier "b"
  let types := [((⟨0⟩, value), TypeId.number), ((⟨0⟩, ⟨1⟩), TypeId.string)]
  { program := { files := [d.finish [statement, name]], nodeTypes := types } }

/-- Two diagnostics for the declaration and one that is ignored make one entry, and the name makes
one. -/
theorem accountsFor_twoStatements :
    let ds : List Diagnostic := [⟨6133, ⟨0⟩, ⟨3⟩⟩, ⟨2322, ⟨0⟩, ⟨0⟩⟩, ⟨2345, ⟨0⟩, ⟨3⟩⟩, ⟨7006, ⟨0⟩, ⟨5⟩⟩]
    ∃ report, (twoStatements.run ds).2 = .ok report ∧ report.AccountsFor twoStatements ds ∧
      report.places = [(⟨0⟩, ⟨3⟩), (⟨0⟩, ⟨5⟩)] := by
  intro ds
  have hplaces : (twoStatements.run ds).2.toOption.map Report.places =
      some [(⟨0⟩, ⟨3⟩), (⟨0⟩, ⟨5⟩)] := by decide
  obtain ⟨report, hrun, hreport⟩ := Option.map_eq_some_iff.mp hplaces
  cases hresult : (twoStatements.run ds).2 with
  | error fault => simp [hresult, Except.toOption] at hrun
  | ok found =>
    obtain rfl : found = report := by simpa [hresult, Except.toOption] using hrun
    exact ⟨found, rfl, accountsFor_of_run hresult, hreport⟩

end Session

end Misfit
