import Misfit.Proofs.Explain.Coherent
import Misfit.Proofs.Session.Repeat

/-!
# Coherent reports

Every explanation of a report was made at one site, so what holds of the explanations of a site holds
throughout the report.
-/
namespace Misfit

namespace Session

/-- What comes of the explanation of a root is coherent. -/
theorem Locates.coherent_explainRoot {s : Session} {d : Diagnostic} {source : SourceFile}
    {root : NodeId} {kind : Kind} (h : s.Locates d source root kind) {es : List Explanation}
    (hes : (s.explainRoot source d root kind).2 = .explained es) : ∀ e ∈ es, e.Coherent := by
  unfold explainRoot at hes
  exact Site.coherent_of_outcome _ h.kind_eq hes

theorem Locates.coherent_add {s : Session} {d : Diagnostic} {source : SourceFile} {root : NodeId}
    {kind : Kind} (hd : s.Locates d source root kind) {report : Report}
    (h : ∀ e ∈ report.explanations, e.Coherent) :
    ∀ e ∈ (report.add (s.explainRoot source d root kind).2).explanations, e.Coherent := by
  cases houtcome : (s.explainRoot source d root kind).2 with
  | unexplained u => exact h
  | explained es =>
    intro e he
    rcases List.mem_append.mp he with he | he
    · exact h e he
    · exact hd.coherent_explainRoot houtcome e he

/-- The parts of every explanation that a run reports go together. -/
theorem coherent_of_run {s : Session} {ds : List Diagnostic} {report : Report}
    (h : (s.run ds).2 = .ok report) : ∀ e ∈ report.explanations, e.Coherent := by
  obtain ⟨report', hreport', hfinal⟩ :=
    runFrom_keeps (P := fun _ report => ∀ e ∈ report.explanations, e.Coherent) (s := s)
      (fun hd hreport => hd.coherent_add hreport) {} (by simp) [] ds
  rw [hfinal report h]
  exact hreport'

/-- The call has one explanation, of the kind that only types clash with. -/
theorem coherent_optionalCall :
    ∃ report e, (optionalCall.run [⟨2345, ⟨0⟩, ⟨1⟩⟩]).2 = .ok report ∧ report.explanations = [e] ∧
      e.kind = .mismatch ∧ e.Coherent := by
  have hkinds : (optionalCall.run [⟨2345, ⟨0⟩, ⟨1⟩⟩]).2.toOption.map (fun report =>
      report.explanations.map Explanation.kind) = some [.mismatch] := by decide
  cases hrun : (optionalCall.run [⟨2345, ⟨0⟩, ⟨1⟩⟩]).2 with
  | error fault => simp [hrun, Except.toOption] at hkinds
  | ok report =>
    simp only [hrun, Except.toOption, Option.map_some, Option.some.injEq] at hkinds
    obtain ⟨e, hexplanations, hkind⟩ := List.map_eq_singleton_iff.mp hkinds
    exact ⟨report, e, rfl, hexplanations, hkind, coherent_of_run hrun e (by simp [hexplanations])⟩

end Session

end Misfit
