import Misfit.Explain.Root

/-!
# Sessions

A session explains diagnostics against one program. Ignored codes are skipped, and diagnostics with one
root are explained once. The index of a file is built when it is first needed and kept for later runs.
A diagnostic that names a file or a node that the program does not have ends the run.
-/
namespace Misfit

/-- A diagnostic of the checker: a code at a node. -/
structure Diagnostic where
  code : Nat
  file : FileId
  node : NodeId
  deriving DecidableEq, Repr

/-- What a run fails with. -/
inductive Fault
  | unknownFile (code : Nat) (file : FileId)
  | unknownNode (code : Nat) (fileName : String) (node : NodeId)
  deriving DecidableEq, Repr

namespace Fault

def message : Fault → String
  | unknownFile code file =>
    "diagnostic " ++ toString code ++ " refers to unknown file FileId(" ++ toString file.raw ++ ")"
  | unknownNode code fileName node =>
    "diagnostic " ++ toString code ++ " refers to unknown node NodeIndex(" ++ toString node.raw ++
      ") in " ++ fileName

end Fault

/-- A program under explanation, with the indexes built so far. -/
structure Session where
  program : Program
  options : Options := {}
  indexes : List (FileId × Index) := []

namespace Session

/-- A place to be explained. -/
abbrev Place := FileId × NodeId

/-- The index of a file: the one kept, or else a new one, which is kept from then on. -/
def indexOf (s : Session) (file : FileId) (source : SourceFile) : Session × Index :=
  match s.indexes.lookup file with
  | some index => (s, index)
  | none =>
    let index := Index.build source
    ({ s with indexes := (file, index) :: s.indexes }, index)

/-- The file of a diagnostic; the diagnostic has to name a file and a node of the program. -/
def sourceOf (s : Session) (d : Diagnostic) : Except Fault SourceFile :=
  match s.program.file? d.file with
  | none => .error (.unknownFile d.code d.file)
  | some source =>
    if (source.node? d.node).isSome then .ok source
    else .error (.unknownNode d.code source.name d.node)

/-- The root of a diagnostic in its file. -/
def rootOf (s : Session) (source : SourceFile) (d : Diagnostic) : NodeId :=
  source.locateRoot d.node (s.program.typeOf d.file d.node)

/-- Explains a root; the program may gain types and the session an index. -/
def explainRoot (s : Session) (source : SourceFile) (d : Diagnostic) (root : NodeId) (kind : Kind) :
    Session × Outcome :=
  let (s, index) := s.indexOf d.file source
  let site : Site :=
    { program := s.program, options := s.options, file := d.file, source, index, flagged := d.node
      root }
  let (program, ended) := site.explain {}
  ({ s with program }, site.outcome d.code kind ended)

/-- Explains diagnostics one after the other; `seen` are the places explained before. -/
def runFrom (s : Session) (seen : List Place) (report : Report) :
    List Diagnostic → Session × Except Fault Report
  | [] => (s, .ok report)
  | d :: rest =>
    if s.options.ignores d.code then runFrom s seen report rest
    else match s.sourceOf d with
      | .error fault => (s, .error fault)
      | .ok source =>
        let root := s.rootOf source d
        if (d.file, root) ∈ seen then runFrom s seen report rest
        else match source.kind? root with
          | none => runFrom s ((d.file, root) :: seen) report rest
          | some kind =>
            let (s, outcome) := s.explainRoot source d root kind
            runFrom s ((d.file, root) :: seen) (report.add outcome) rest

/-- Explains diagnostics one after the other. -/
def run (s : Session) (diagnostics : List Diagnostic) : Session × Except Fault Report :=
  s.runFrom [] {} diagnostics

end Session

/-- Explains diagnostics in a session of their own; answers the program with the types it gained. -/
def Program.explain (p : Program) (options : Options) (diagnostics : List Diagnostic) :
    Program × Except Fault Report :=
  let (s, result) := ({ program := p, options } : Session).run diagnostics
  (s.program, result)

end Misfit
