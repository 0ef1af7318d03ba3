import Misfit.Proofs.Session.Repeat

/-!
# Using a session again

Between two runs a session keeps its program and the indexes that it has built. Every index that is kept
is what building it again would come to, so it makes no difference which ones are kept. Hence lists of
diagnostics that are run in one session come to what they come to in sessions of their own, and enter the
same types, whether the runs before came to their end or not.
-/
namespace Misfit

/-- Explains lists of diagnostics one after the other, each in a session of its own over the program that
the one before has left; answers what each of them leaves and comes to. -/
def Program.explainAll (p : Program) (options : Options) :
    List (List Diagnostic) → List (Program × Except Fault Report)
  | [] => []
  | ds :: rest =>
    let (p, result) := p.explain options ds
    (p, result) :: explainAll p options rest

namespace Session

/-- Runs lists of diagnostics one after the other; answers the program that each run leaves and what the
run comes to. -/
def runAll (s : Session) : List (List Diagnostic) → List (Program × Except Fault Report)
  | [] => []
  | ds :: rest =>
    let (s, result) := s.run ds
    (s.program, result) :: runAll s rest

/-- The sessions differ at most in the files that they keep indexes of, and the indexes are those of the
files. -/
structure SameButIndexes (s s' : Session) : Prop where
  program : s'.program = s.program
  options : s'.options = s.options
  built : s.IndexesBuilt
  built' : s'.IndexesBuilt

variable {s s' : Session} {d : Diagnostic} {source : SourceFile}

theorem IndexesBuilt.withProgram (h : s.IndexesBuilt) {p : Program}
    (hfiles : p.files = s.program.files) : IndexesBuilt { s with program := p } := by
  intro file index hindex
  obtain ⟨source, hsource, rfl⟩ := h file index hindex
  refine ⟨source, ?_, rfl⟩
  rw [← hsource, Program.file?, Program.file?, hfiles]

theorem indexesBuilt_nil (p : Program) (options : Options) :
    IndexesBuilt { program := p, options } := by
  intro file index hindex
  simp at hindex

/-- What a session keeps may as well be forgotten. -/
theorem IndexesBuilt.sameButIndexes_nil (h : s.IndexesBuilt) :
    SameButIndexes s { program := s.program, options := s.options } :=
  ⟨rfl, rfl, h, indexesBuilt_nil s.program s.options⟩

theorem SameButIndexes.sameGround (h : SameButIndexes s s') : SameGround s s' :=
  ⟨by rw [h.program], by rw [h.program], h.options⟩

/-- Whether the index of a file is kept or built now, the root is explained with the same one. -/
theorem SameButIndexes.explainRoot (h : SameButIndexes s s')
    (hfile : s.program.file? d.file = some source) (root : NodeId) (kind : Kind) :
    SameButIndexes (s.explainRoot source d root kind).1 (s'.explainRoot source d root kind).1 ∧
      (s'.explainRoot source d root kind).2 = (s.explainRoot source d root kind).2 := by
  obtain ⟨indexes, hindex, hbuilt, -, -⟩ := h.built.indexOf_eq hfile
  obtain ⟨indexes', hindex', hbuilt', -, -⟩ := h.built'.indexOf_eq (h.program ▸ hfile)
  have hfiles := ((s.siteOf source d root).explain_ground {}).1
  have hsite : siteOf { s' with indexes := indexes' } source d root = s.siteOf source d root := by
    simp only [siteOf, h.program, h.options]
  rw [explainRoot_of_indexOf hindex, explainRoot_of_indexOf hindex', hsite]
  refine ⟨⟨rfl, h.options, hbuilt.withProgram hfiles, hbuilt'.withProgram ?_⟩, rfl⟩
  exact hfiles.trans (congrArg Program.files h.program.symm)

/-- Two sessions that differ in the indexes they keep stay in step through a run, up to its end or to the
diagnostic that it fails at. By induction on the diagnostics. -/
theorem SameButIndexes.runFrom (h : SameButIndexes s s') (seen : List Place) (report : Report)
    (ds : List Diagnostic) :
    SameButIndexes (s.runFrom seen report ds).1 (s'.runFrom seen report ds).1 ∧
      (s'.runFrom seen report ds).2 = (s.runFrom seen report ds).2 := by
  induction ds generalizing s s' seen report with
  | nil => exact ⟨h, rfl⟩
  | cons d rest ih =>
    by_cases hignores : s.options.ignores d.code = true
    · rw [runFrom_of_ignores hignores, runFrom_of_ignores (h.options ▸ hignores)]
      exact ih h seen report
    have hflagged : s.options.ignores d.code = false := by simpa using hignores
    cases hsource : s.sourceOf d with
    | error fault =>
      rw [runFrom_of_fault hflagged hsource,
        runFrom_of_fault (h.options ▸ hflagged) ((h.sameGround.sourceOf d).trans hsource)]
      exact ⟨h, rfl⟩
    | ok source =>
      obtain ⟨root, kind, hd⟩ := exists_locates hflagged hsource
      have hd' := hd.of_sameGround h.sameGround
      by_cases hseen : (d.file, root) ∈ seen
      · rw [hd.runFrom_of_seen hseen, hd'.runFrom_of_seen hseen]
        exact ih h seen report
      · obtain ⟨hroot, houtcome⟩ := h.explainRoot hd.file?_eq root kind
        rw [hd.runFrom_of_new hseen, hd'.runFrom_of_new hseen, houtcome]
        exact ih hroot _ _

theorem options_run (s : Session) (ds : List Diagnostic) : (s.run ds).1.options = s.options := by
  obtain ⟨-, hoptions, -⟩ := runFrom_keeps (P := fun s' _ => s'.options = s.options) (s := s)
    (fun _ hs => (sameGround_explainRoot _ _ _ _ _).options.trans hs) {} rfl [] ds
  exact hoptions

/-- Any number of runs in a session leave the programs and come to the results of sessions of their own. By
induction on the lists; what is kept from one run to the next is forgotten in between. -/
theorem IndexesBuilt.runAll_eq (h : s.IndexesBuilt) (lists : List (List Diagnostic)) :
    s.runAll lists = s.program.explainAll s.options lists := by
  induction lists generalizing s with
  | nil => rfl
  | cons ds rest ih =>
    obtain ⟨hafter, hresult⟩ := h.sameButIndexes_nil.runFrom [] {} ds
    have hprogram : (s.program.explain s.options ds).1 = (s.run ds).1.program := hafter.program
    have hexplain : (s.program.explain s.options ds).2 = (s.run ds).2 := hresult
    have hbuilt : (s.run ds).1.IndexesBuilt := hafter.built
    simp only [runAll, Program.explainAll, hprogram, hexplain]
    rw [ih hbuilt, s.options_run ds]

/-- Running lists of diagnostics in turn in one session leaves the program in the same states, and gives
the same reports and faults, as explaining each of them in a session of its own. -/
theorem runAll_eq_explainAll (p : Program) (options : Options) (lists : List (List Diagnostic)) :
    ({ program := p, options } : Session).runAll lists = p.explainAll options lists :=
  (indexesBuilt_nil p options).runAll_eq lists

end Session

end Misfit
