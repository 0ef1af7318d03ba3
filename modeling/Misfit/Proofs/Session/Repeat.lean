import Misfit.Proofs.Explain.Growth
import Misfit.Proofs.Session.Account

/-!
# Running again

A run leaves two things behind: the unions that it entered and the indexes that it built. Neither changes
what a later run finds, so a run that is repeated comes to the same report and enters nothing, and what
it reports is what the diagnostics at its places come to one by one.
-/
namespace Misfit

/-- The entries of one report and after them those of another one. -/
def Report.append (r r' : Report) : Report where
  explanations := r.explanations ++ r'.explanations
  unexplained := r.unexplained ++ r'.unexplained

/-- The entries of several reports, one report after the other. -/
def Report.concat (parts : List Report) : Report where
  explanations := parts.flatMap Report.explanations
  unexplained := parts.flatMap Report.unexplained

/-- Explaining a site with another table of types changes nothing about the program but that table. -/
theorem Site.explain_withTypes_eq (s : Site) (r : Recorded) (t : Types) :
    (s.withTypes t).explain r =
      (s.program.withTypes (s.explainIn r t).1, (s.explainIn r t).2) := by
  obtain ⟨hfiles, hnodes⟩ := (s.withTypes t).explain_ground r
  exact Prod.ext (Program.eq_withTypes hfiles hnodes) rfl

namespace Session

/-- The diagnostics that are not ignored, each with its place. -/
def placed (s : Session) (ds : List Diagnostic) : List (Place × Diagnostic) :=
  ds.filterMap fun d =>
    if s.options.ignores d.code then none else (s.placeOf d).map fun p => (p, d)

/-- The diagnostics that are the first at places that have not been seen before, ignored ones aside. -/
def leadingFrom (s : Session) (seen : List Place) (ds : List Diagnostic) : List Diagnostic :=
  (firsts seen (s.placed ds)).map Prod.snd

/-- The diagnostics that are the first at their places, ignored ones aside. -/
def leading (s : Session) (ds : List Diagnostic) : List Diagnostic := s.leadingFrom [] ds

/-- Runs diagnostics one by one, each in a run of its own. -/
def runEach (s : Session) : List Diagnostic → Session × List (Except Fault Report)
  | [] => (s, [])
  | d :: rest =>
    let (s, result) := s.run [d]
    let (s, results) := runEach s rest
    (s, result :: results)

/-- Every index that is kept is the index of its file. -/
def IndexesBuilt (s : Session) : Prop :=
  ∀ file index, s.indexes.lookup file = some index →
    ∃ source, s.program.file? file = some source ∧ index = Index.build source

/-- An index is kept for the file. -/
def Keeps (s : Session) (file : FileId) : Prop := (s.indexes.lookup file).isSome = true

/-- The table of types is settled, the types of nodes are known, and the indexes are those of their
files. -/
structure Ready (s : Session) : Prop where
  types : s.program.types.Settled
  nodes : ∀ file node i, s.program.typeOf file node = some i → s.program.types.Knows i
  indexes : s.IndexesBuilt

/-- A session over the same program at a later time: types may have been entered since, and indexes
built. -/
structure Later (s s' : Session) : Prop where
  ground : SameGround s s'
  types : s.program.types.Grows s'.program.types
  keeps : ∀ file, s.Keeps file → s'.Keeps file
  ready : s'.Ready

variable {s s₁ s₂ s' : Session} {d : Diagnostic} {ds : List Diagnostic} {source : SourceFile}
  {kind : Kind} {seen : List Place} {report : Report}

theorem SameGround.trans (h : SameGround s s₁) (h' : SameGround s₁ s₂) : SameGround s s₂ :=
  ⟨h'.files.trans h.files, h'.nodeTypes.trans h.nodeTypes, h'.options.trans h.options⟩

theorem Later.trans (h : Later s s₁) (h' : Later s₁ s₂) : Later s s₂ :=
  ⟨h.ground.trans h'.ground, h.types.trans h'.types,
    fun file hfile => h'.keeps file (h.keeps file hfile), h'.ready⟩

theorem Ready.later (h : s.Ready) : Later s s := ⟨⟨rfl, rfl, rfl⟩, h.types.grows, fun _ => id, h⟩

theorem SameGround.program_eq (h : SameGround s s') :
    s'.program = s.program.withTypes s'.program.types :=
  Program.eq_withTypes h.files h.nodeTypes

theorem SameGround.sourceOf (h : SameGround s s') (d : Diagnostic) : s'.sourceOf d = s.sourceOf d := by
  unfold Session.sourceOf
  rw [h.program_eq]
  rfl

theorem SameGround.rootOf (h : SameGround s s') (source : SourceFile) (d : Diagnostic) :
    s'.rootOf source d = s.rootOf source d := by
  unfold Session.rootOf
  rw [h.program_eq]
  rfl

/-! ### Indexes -/

theorem IndexesBuilt.indexOf_of_keeps (h : s.IndexesBuilt) {file : FileId}
    (hfile : s.program.file? file = some source) (hk : s.Keeps file) :
    s.indexOf file source = (s, Index.build source) := by
  obtain ⟨index, hindex⟩ := Option.isSome_iff_exists.mp hk
  obtain ⟨source', hsource', rfl⟩ := h file index hindex
  obtain rfl : source = source' := Option.some.inj (hfile.symm.trans hsource')
  simp only [indexOf, hindex]

/-- An index that is built now is kept. -/
theorem IndexesBuilt.indexOf_eq (h : s.IndexesBuilt) {file : FileId}
    (hfile : s.program.file? file = some source) :
    ∃ indexes, s.indexOf file source = ({ s with indexes }, Index.build source) ∧
      IndexesBuilt { s with indexes } ∧ Keeps { s with indexes } file ∧
      ∀ other, s.Keeps other → Keeps { s with indexes } other := by
  by_cases hk : s.Keeps file
  · exact ⟨s.indexes, h.indexOf_of_keeps hfile hk, h, hk, fun _ => id⟩
  · have hnone : s.indexes.lookup file = none := Option.not_isSome_iff_eq_none.mp hk
    refine ⟨(file, Index.build source) :: s.indexes, by simp only [indexOf, hnone], ?_, ?_, ?_⟩
    · intro other index hindex
      by_cases hother : other = file
      · subst hother
        obtain rfl : Index.build source = index := by simpa using hindex
        exact ⟨source, hfile, rfl⟩
      · rw [List.lookup_cons, beq_false_of_ne hother] at hindex
        exact h other index hindex
    · simp [Keeps]
    · intro other hother
      have hne : other ≠ file := fun heq => hk (heq ▸ hother)
      show (((file, Index.build source) :: s.indexes).lookup other).isSome = true
      rw [List.lookup_cons, beq_false_of_ne hne]
      exact hother

/-! ### Doing something again -/

/-- What is done once stays done: the session is at a later time then, and at every later time doing it
again comes to the same and changes nothing. -/
structure StaysDone {α : Type} (op : Session → Session × α) (s : Session) : Prop where
  later : Later s (op s).1
  again : ∀ s', Later (op s).1 s' → op s' = (s', (op s).2)

theorem StaysDone.later_of_eq {α : Type} {op : Session → Session × α} {a : α} (h : StaysDone op s)
    (heq : op s = (s₁, a)) : Later s s₁ := by
  have hlater := h.later
  rwa [heq] at hlater

theorem StaysDone.again_of_eq {α : Type} {op : Session → Session × α} {a : α} (h : StaysDone op s)
    (heq : op s = (s₁, a)) (hs' : Later s₁ s') : op s' = (s', a) := by
  have hagain := h.again s'
  rw [heq] at hagain
  exact hagain hs'

theorem Ready.staysDone_pure {α : Type} (hs : s.Ready) (a : α) : StaysDone (fun s => (s, a)) s :=
  ⟨hs.later, fun _ _ => rfl⟩

/-- Operations that come to the same at every later time. -/
theorem StaysDone.congr {α : Type} {op op' : Session → Session × α} (h : StaysDone op s)
    (hs : s.Ready) (heq : ∀ s', Later s s' → op' s' = op s') : StaysDone op' s := by
  have hself : op' s = op s := heq s hs.later
  refine ⟨hself ▸ h.later, fun s' hs' => ?_⟩
  rw [hself] at hs' ⊢
  rw [heq s' (h.later.trans hs')]
  exact h.again s' hs'

/-- One operation after the other. -/
theorem StaysDone.bind {α β : Type} {first : Session → Session × α} (h : StaysDone first s)
    (next : α → Session → Session × β) (hnext : StaysDone (next (first s).2) (first s).1) :
    StaysDone (fun s => next (first s).2 (first s).1) s where
  later := h.later.trans hnext.later
  again s' hs' := by
    have hfirst : first s' = (s', (first s).2) := h.again s' (hnext.later.trans hs')
    simp only [hfirst]
    exact hnext.again s' hs'

/-- The site of a diagnostic. -/
def siteOf (s : Session) (source : SourceFile) (d : Diagnostic) (root : NodeId) : Site :=
  { program := s.program, options := s.options, file := d.file, source, index := Index.build source
    flagged := d.node, root }

theorem SameGround.siteOf (h : SameGround s s') (source : SourceFile) (d : Diagnostic)
    (root : NodeId) :
    s'.siteOf source d root = (s.siteOf source d root).withTypes s'.program.types := by
  simp only [Session.siteOf, h.options, Site.withTypes]
  rw [← h.program_eq]

/-- Explaining a root with the index of its file. -/
theorem explainRoot_of_indexOf (h : s.indexOf d.file source = (s₁, Index.build source))
    (root : NodeId) (kind : Kind) :
    s.explainRoot source d root kind =
      ({ s₁ with program := ((s₁.siteOf source d root).explain {}).1 },
        (s₁.siteOf source d root).outcome d.code kind ((s₁.siteOf source d root).explain {}).2) := by
  simp only [explainRoot, h]
  rfl

theorem staysDone_explainRoot (hs : s.Ready) (hfile : s.program.file? d.file = some source)
    (root : NodeId) (kind : Kind) : StaysDone (fun s => s.explainRoot source d root kind) s := by
  obtain ⟨indexes, hindex, hbuilt, hkept, hmore⟩ := hs.indexes.indexOf_eq hfile
  let site := s.siteOf source d root
  let entered := (site.explainIn {} s.program.types).1
  have honce : Types.EntersOnce (site.explainIn {}) s.program.types :=
    Site.entersOnce_explainIn {} hs.types (hs.nodes d.file)
  have hnow : s.explainRoot source d root kind =
      (⟨s.program.withTypes entered, s.options, indexes⟩,
        site.outcome d.code kind (site.explainIn {} s.program.types).2) := by
    rw [explainRoot_of_indexOf hindex]
    have hexplain := site.explain_withTypes_eq {} s.program.types
    exact congrArg (fun e : Program × Except Reason Unit × Recorded =>
      ((⟨e.1, s.options, indexes⟩ : Session), site.outcome d.code kind e.2)) hexplain
  have hlater : Later s ⟨s.program.withTypes entered, s.options, indexes⟩ :=
    ⟨⟨rfl, rfl, rfl⟩, honce.grows, hmore, honce.settled,
      fun file node i hi => honce.grows.knows (hs.nodes file node i hi), hbuilt⟩
  refine ⟨hnow ▸ hlater, fun s' hs' => ?_⟩
  rw [hnow] at hs' ⊢
  have hground := (hlater.trans hs').ground
  have hfile' : s'.program.file? d.file = some source := by
    rw [hground.program_eq]
    exact hfile
  have hindex' := hs'.ready.indexes.indexOf_of_keeps hfile' (hs'.keeps d.file hkept)
  rw [explainRoot_of_indexOf hindex', hground.siteOf, site.explain_withTypes_eq,
    honce.again _ hs'.types]
  exact Prod.ext (by rw [show site.program = s.program from rfl, ← hground.program_eq]) rfl

/-! ### Runs -/

/-- A diagnostic that is not ignored, with the file that it names and the root that it is about. -/
structure Locates (s : Session) (d : Diagnostic) (source : SourceFile) (root : NodeId) (kind : Kind) :
    Prop where
  flagged : s.options.ignores d.code = false
  sourceOf_eq : s.sourceOf d = .ok source
  rootOf_eq : s.rootOf source d = root
  kind_eq : source.kind? root = some kind

section Locates

variable {root : NodeId} {rest : List Diagnostic}

theorem exists_locates (hflagged : s.options.ignores d.code = false)
    (hsource : s.sourceOf d = .ok source) : ∃ root kind, s.Locates d source root kind :=
  have ⟨kind, hkind⟩ := SourceFile.kind?_locateRoot (s.program.typeOf d.file d.node)
    (sourceOf_eq_ok hsource).2
  ⟨s.rootOf source d, kind, hflagged, hsource, rfl, hkind⟩

theorem Locates.file?_eq (h : s.Locates d source root kind) : s.program.file? d.file = some source :=
  (sourceOf_eq_ok h.sourceOf_eq).1

theorem Locates.of_sameGround (h : s.Locates d source root kind) (hs : SameGround s s') :
    s'.Locates d source root kind :=
  ⟨hs.options ▸ h.flagged, (hs.sourceOf d).trans h.sourceOf_eq,
    (hs.rootOf source d).trans h.rootOf_eq, h.kind_eq⟩

theorem runFrom_of_ignores (h : s.options.ignores d.code = true) :
    s.runFrom seen report (d :: rest) = s.runFrom seen report rest := by
  simp only [runFrom, h, if_true]

theorem runFrom_of_fault (hflagged : s.options.ignores d.code = false) {fault : Fault}
    (hsource : s.sourceOf d = .error fault) :
    s.runFrom seen report (d :: rest) = (s, .error fault) := by
  simp only [runFrom, hflagged, hsource, Bool.false_eq_true, if_false]

theorem Locates.runFrom_of_seen (h : s.Locates d source root kind) (hseen : (d.file, root) ∈ seen) :
    s.runFrom seen report (d :: rest) = s.runFrom seen report rest := by
  simp only [runFrom, h.flagged, h.sourceOf_eq, h.rootOf_eq, hseen, Bool.false_eq_true, if_false,
    if_true]

theorem Locates.runFrom_of_new (h : s.Locates d source root kind) (hnew : (d.file, root) ∉ seen) :
    s.runFrom seen report (d :: rest) =
      (s.explainRoot source d root kind).1.runFrom ((d.file, root) :: seen)
        (report.add (s.explainRoot source d root kind).2) rest := by
  simp only [runFrom, h.flagged, h.sourceOf_eq, h.rootOf_eq, h.kind_eq, hnew, Bool.false_eq_true,
    if_false]

theorem Locates.run_singleton (h : s.Locates d source root kind) :
    s.run [d] = ((s.explainRoot source d root kind).1,
      .ok (({} : Report).add (s.explainRoot source d root kind).2)) := by
  rw [run, h.runFrom_of_new (by simp)]
  rfl

end Locates

/-- What every explanation of a root keeps, of the session and of the report so far, holds after a run if
it holds before. A run that fails has got to some report by then. By induction on the diagnostics. -/
theorem runFrom_keeps {P : Session → Report → Prop}
    (hkeeps : ∀ {s report d source root kind}, s.Locates d source root kind → P s report →
      P (s.explainRoot source d root kind).1 (report.add (s.explainRoot source d root kind).2))
    (report : Report) (h : P s report) (seen : List Place) (ds : List Diagnostic) :
    ∃ report', P (s.runFrom seen report ds).1 report' ∧
      ∀ final, (s.runFrom seen report ds).2 = .ok final → final = report' := by
  induction ds generalizing s seen report with
  | nil => exact ⟨report, h, fun final hfinal => (Except.ok.inj hfinal).symm⟩
  | cons d rest ih =>
    by_cases hignores : s.options.ignores d.code = true
    · rw [runFrom_of_ignores hignores]
      exact ih report h seen
    have hflagged : s.options.ignores d.code = false := by simpa using hignores
    cases hsource : s.sourceOf d with
    | error fault =>
      rw [runFrom_of_fault hflagged hsource]
      exact ⟨report, h, fun final hfinal => nomatch hfinal⟩
    | ok source =>
      obtain ⟨root, kind, hd⟩ := exists_locates hflagged hsource
      by_cases hseen : (d.file, root) ∈ seen
      · rw [hd.runFrom_of_seen hseen]
        exact ih report h seen
      · rw [hd.runFrom_of_new hseen]
        exact ih _ (hkeeps hd h) _

/-- A run stays done, whether it comes to its end or not. By induction on the diagnostics. -/
theorem Ready.staysDone_runFrom (hs : s.Ready) (seen : List Place) (report : Report)
    (ds : List Diagnostic) : StaysDone (fun s => s.runFrom seen report ds) s := by
  induction ds generalizing s seen report with
  | nil => exact hs.staysDone_pure (Except.ok report)
  | cons d rest ih =>
    by_cases hignores : s.options.ignores d.code = true
    · refine (ih hs seen report).congr hs fun s' hs' => ?_
      exact runFrom_of_ignores (hs'.ground.options ▸ hignores)
    have hflagged : s.options.ignores d.code = false := by simpa using hignores
    cases hsource : s.sourceOf d with
    | error fault =>
      refine (hs.staysDone_pure (Except.error fault)).congr hs fun s' hs' => ?_
      exact runFrom_of_fault (hs'.ground.options ▸ hflagged) ((hs'.ground.sourceOf d).trans hsource)
    | ok source =>
      obtain ⟨root, kind, hd⟩ := exists_locates hflagged hsource
      by_cases hseen : (d.file, root) ∈ seen
      · refine (ih hs seen report).congr hs fun s' hs' => ?_
        exact (hd.of_sameGround hs'.ground).runFrom_of_seen hseen
      · have hroot := staysDone_explainRoot hs hd.file?_eq root kind
        have hboth := hroot.bind
          (fun outcome s => s.runFrom ((d.file, root) :: seen) (report.add outcome) rest)
          (ih hroot.later.ready _ _)
        refine hboth.congr hs fun s' hs' => ?_
        exact (hd.of_sameGround hs'.ground).runFrom_of_new hseen

/-! ### Runs of several diagnostics -/

theorem SameGround.leadingFrom (h : SameGround s s') (seen : List Place) (ds : List Diagnostic) :
    s'.leadingFrom seen ds = s.leadingFrom seen ds := by
  have hplaced : s'.placed ds = s.placed ds := by
    unfold placed placeOf
    simp only [h.options, h.rootOf]
    rw [h.program_eq]
    rfl
  simp only [Session.leadingFrom, hplaced]

theorem leadingFrom_of_ignores (h : s.options.ignores d.code = true) :
    s.leadingFrom seen (d :: ds) = s.leadingFrom seen ds := by
  simp [leadingFrom, placed, h]

theorem Locates.placed_cons {root : NodeId} (h : s.Locates d source root kind) :
    s.placed (d :: ds) = ((d.file, root), d) :: s.placed ds := by
  simp [placed, placeOf, h.flagged, h.file?_eq, h.rootOf_eq]

theorem Locates.leadingFrom_of_seen {root : NodeId} (h : s.Locates d source root kind)
    (hseen : (d.file, root) ∈ seen) : s.leadingFrom seen (d :: ds) = s.leadingFrom seen ds := by
  simp only [leadingFrom, h.placed_cons, firsts, hseen, if_true]

theorem Locates.leadingFrom_of_new {root : NodeId} (h : s.Locates d source root kind)
    (hnew : (d.file, root) ∉ seen) :
    s.leadingFrom seen (d :: ds) = d :: s.leadingFrom ((d.file, root) :: seen) ds := by
  simp only [leadingFrom, h.placed_cons, firsts, hnew, if_false, List.map_cons]

end Session

theorem Report.append_concat_cons (report : Report) (outcome : Outcome) (parts : List Report) :
    report.append (.concat (({} : Report).add outcome :: parts)) =
      (report.add outcome).append (.concat parts) := by
  cases outcome <;> simp [add, append, concat]

theorem Report.append_concat_nil (report : Report) : report.append (.concat []) = report := by
  simp [append, concat]

namespace Session

variable {s s₁ : Session} {d : Diagnostic} {ds : List Diagnostic} {seen : List Place} {report : Report}

/-- The report of a run is made of the reports that its leading diagnostics get in runs of their own, one
after the other or at any time later than the run. By induction on the diagnostics. -/
theorem Ready.parts_of_runFrom (hs : s.Ready) {report₁ : Report}
    (h : s.runFrom seen report ds = (s₁, .ok report₁)) :
    ∃ parts : List Report, report₁ = report.append (.concat parts) ∧
      s.runEach (s.leadingFrom seen ds) = (s₁, parts.map .ok) ∧
      ∀ s', Later s₁ s' → (s.leadingFrom seen ds).map (fun d => s'.run [d]) =
        parts.map fun part => (s', .ok part) := by
  induction ds generalizing s seen report with
  | nil =>
    obtain ⟨rfl, rfl⟩ : s = s₁ ∧ report = report₁ := by simpa [runFrom] using h
    exact ⟨[], (report.append_concat_nil).symm, rfl, fun _ _ => rfl⟩
  | cons d rest ih =>
    by_cases hignores : s.options.ignores d.code = true
    · rw [runFrom_of_ignores hignores] at h
      rw [leadingFrom_of_ignores hignores]
      exact ih hs h
    have hflagged : s.options.ignores d.code = false := by simpa using hignores
    cases hsource : s.sourceOf d with
    | error fault =>
      rw [runFrom_of_fault hflagged hsource] at h
      simp at h
    | ok source =>
      obtain ⟨root, kind, hd⟩ := exists_locates hflagged hsource
      by_cases hseen : (d.file, root) ∈ seen
      · rw [hd.runFrom_of_seen hseen] at h
        rw [hd.leadingFrom_of_seen hseen]
        exact ih hs h
      have hsingle : StaysDone (fun s => s.run [d]) s := hs.staysDone_runFrom [] {} [d]
      have hrun := hd.run_singleton
      rw [hd.runFrom_of_new hseen] at h
      generalize s.explainRoot source d root kind = step at h hrun
      obtain ⟨s₂, outcome⟩ := step
      have hnow : Later s s₂ := hsingle.later_of_eq hrun
      have hsince : Later s₂ s₁ := (hnow.ready.staysDone_runFrom _ _ rest).later_of_eq h
      obtain ⟨parts, hreport, heach, hlater⟩ := ih hnow.ready h
      rw [hd.leadingFrom_of_new hseen, ← hnow.ground.leadingFrom]
      refine ⟨({} : Report).add outcome :: parts, ?_, ?_, fun s' hs' => ?_⟩
      · rw [hreport, report.append_concat_cons]
      · simp only [runEach, hrun, heach, List.map_cons]
      · have hagain : s'.run [d] = (s', .ok (({} : Report).add outcome)) :=
          hsingle.again_of_eq hrun (hsince.trans hs')
        rw [List.map_cons, List.map_cons, hlater s' hs', hagain]

theorem ready_of_built (hbuilt : s.program.types.Built) (hclosed : s.program.Closed)
    (hindexes : s.IndexesBuilt) : s.Ready :=
  ⟨hbuilt.settled hclosed.types, fun _ _ _ => hclosed.knows_of_typeOf, hindexes⟩

/-- A run that comes to its end comes to the same when it is repeated, and changes nothing then. Its
report is made of the reports that its leading diagnostics get in runs of their own, whether these are
made one after the other instead of it, or each of them after it. -/
theorem run_repeats (hbuilt : s.program.types.Built) (hclosed : s.program.Closed)
    (hindexes : s.IndexesBuilt) (h : s.run ds = (s₁, .ok report)) :
    s₁.run ds = (s₁, .ok report) ∧
      ∃ parts : List Report, report = .concat parts ∧
        s.runEach (s.leading ds) = (s₁, parts.map .ok) ∧
        (s.leading ds).map (fun d => s₁.run [d]) = parts.map fun part => (s₁, .ok part) := by
  have hs : s.Ready := ready_of_built hbuilt hclosed hindexes
  have hrun : StaysDone (fun s => s.run ds) s := hs.staysDone_runFrom [] {} ds
  have hready : s₁.Ready := (hrun.later_of_eq h).ready
  obtain ⟨parts, hreport, heach, hlater⟩ := hs.parts_of_runFrom h
  exact ⟨hrun.again_of_eq h hready.later, parts, by simpa [Report.append] using hreport, heach,
    hlater s₁ hready.later⟩

/-- The call `f(true)` of a function whose parameter is a string, a number or `undefined`, and a name. -/
def optionalCall : Session :=
  let (t, parameter) := Types.initial.union [.string, .number, .undefined]
  let (t, callee) := t.function { parameters := [⟨"x", parameter, false, none⟩], result := .void }
  let d : Draft := { name := "a.ts" }
  let (d, f) := d.identifier "f"
  let (d, argument) := d.booleanLiteral true
  let (d, call) := d.call f [argument]
  let (d, statement) := d.expressionStatement call
  let (d, name) := d.identifier "b"
  let nodeTypes := [((⟨0⟩, f), callee), ((⟨0⟩, argument), TypeId.boolean)]
  { program := { types := t, files := [d.finish [statement, name]], nodeTypes } }

/-- The run enters the union of strings and numbers, and later runs find it. -/
theorem run_repeats_optionalCall :
    let ds : List Diagnostic :=
      [⟨2345, ⟨0⟩, ⟨1⟩⟩, ⟨6133, ⟨0⟩, ⟨4⟩⟩, ⟨2345, ⟨0⟩, ⟨2⟩⟩, ⟨7006, ⟨0⟩, ⟨4⟩⟩]
    ∃ s₁ report, optionalCall.run ds = (s₁, .ok report) ∧
      s₁.program.types.size = optionalCall.program.types.size + 1 ∧
      (report.explanations.length, report.unexplained.length) = (1, 1) ∧
      s₁.run ds = (s₁, .ok report) ∧
      ∃ parts : List Report, report = .concat parts ∧
        optionalCall.runEach (optionalCall.leading ds) = (s₁, parts.map .ok) ∧
        (optionalCall.leading ds).map (fun d => s₁.run [d]) =
          parts.map fun part => (s₁, .ok part) := by
  intro ds
  have hbuilt : optionalCall.program.types.Built :=
    (Types.Built.initial.union [.string, .number, .undefined]).function
      { parameters := [⟨"x", (Types.initial.union [.string, .number, .undefined]).2, false, none⟩]
        result := .void }
  have hentries : (optionalCall.run ds).2.toOption.map (fun report =>
      (report.explanations.length, report.unexplained.length)) = some (1, 1) := by decide
  have hsize : (optionalCall.run ds).1.program.types.size = optionalCall.program.types.size + 1 := by
    decide
  cases hrun : optionalCall.run ds with
  | mk s₁ result =>
    rw [hrun] at hentries hsize
    cases result with
    | error fault => simp [Except.toOption] at hentries
    | ok report =>
      exact ⟨s₁, report, rfl, hsize, Option.some.inj hentries,
        run_repeats hbuilt (by decide) (by simp [IndexesBuilt, optionalCall]) hrun⟩

end Session

end Misfit
