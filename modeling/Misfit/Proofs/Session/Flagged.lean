import Misfit.Proofs.Explain.Flagged
import Misfit.Proofs.Session.Repeat
import Mathlib.Data.List.Nodup
import Mathlib.Data.List.Perm.Basic

/-!
# Diagnostics by their places

What a run reports of a place does not depend on which of the diagnostics there comes first, except for
the code and the flagged argument. So once a run has entered what it needs, diagnostics at one place come
to the same report, and the diagnostics of the run come to the same entries in every order.
-/
namespace Misfit

/-- Two lists whose keys are the same, each once, come to the same values in some order, if the values of
a key do. -/
theorem perm_map_of_keys {α β γ : Type} {f : β → γ} {l l' : List (α × β)}
    (h : (l.map Prod.fst).Nodup) (h' : (l'.map Prod.fst).Nodup)
    (hkeys : ∀ a, a ∈ l.map Prod.fst ↔ a ∈ l'.map Prod.fst)
    (hf : ∀ a b b', (a, b) ∈ l → (a, b') ∈ l' → f b = f b') :
    (l.map fun entry => f entry.2).Perm (l'.map fun entry => f entry.2) := by
  have hnodup : ∀ k : List (α × β), (k.map Prod.fst).Nodup → (k.map (Prod.map id f)).Nodup := by
    intro k hk
    refine List.Nodup.of_map Prod.fst ?_
    simpa [Function.comp_def] using hk
  have hperm : (l.map (Prod.map id f)).Perm (l'.map (Prod.map id f)) := by
    refine (List.perm_ext_iff_of_nodup (hnodup l h) (hnodup l' h')).mpr fun entry => ?_
    constructor
    · intro hentry
      obtain ⟨⟨a, b⟩, hab, rfl⟩ := List.mem_map.mp hentry
      obtain ⟨⟨_, b'⟩, hab', rfl⟩ := List.mem_map.mp ((hkeys a).mp (List.mem_map_of_mem hab))
      exact List.mem_map.mpr ⟨_, hab', by rw [Prod.map, Prod.map, hf _ b b' hab hab']⟩
    · intro hentry
      obtain ⟨⟨a, b'⟩, hab', rfl⟩ := List.mem_map.mp hentry
      obtain ⟨⟨_, b⟩, hab, rfl⟩ := List.mem_map.mp ((hkeys a).mpr (List.mem_map_of_mem hab'))
      exact List.mem_map.mpr ⟨_, hab, by rw [Prod.map, Prod.map, hf _ b b' hab hab']⟩
  simpa [Function.comp_def] using hperm.map Prod.snd

namespace Report

/-- The report without codes and positions of flagged arguments. -/
def unflagged (r : Report) : Report where
  explanations := r.explanations.map Explanation.unflagged
  unexplained := r.unexplained.map Unexplained.unflagged

/-- The reports have the same entries, each in some order. -/
structure SameEntries (r r' : Report) : Prop where
  explanations : r.explanations.Perm r'.explanations
  unexplained : r.unexplained.Perm r'.unexplained

theorem unflagged_add (r : Report) (outcome : Outcome) :
    (r.add outcome).unflagged = r.unflagged.add outcome.unflagged := by
  cases outcome <;> simp [add, unflagged, Outcome.unflagged]

theorem unflagged_concat (parts : List Report) :
    (concat parts).unflagged = concat (parts.map unflagged) := by
  simp [concat, unflagged, List.map_flatMap, List.flatMap_map]

theorem sameEntries_concat {parts parts' : List Report} (h : parts.Perm parts') :
    (concat parts).SameEntries (concat parts') :=
  ⟨h.flatMap_right _, h.flatMap_right _⟩

end Report

/-- An index that names no node is left for what it is. -/
theorem SourceFile.locateRoot_of_node?_none {f : SourceFile} {flagged : NodeId}
    (h : f.node? flagged = none) (type : Option TypeId) : f.locateRoot flagged type = flagged := by
  simp [locateRoot, findAbove, lineage, f.climb_of_none _ h]

namespace Session

variable {s s₁ : Session} {d d' : Diagnostic} {ds ds' : List Diagnostic} {source : SourceFile}
  {root : NodeId} {kind : Kind} {report : Report}

theorem Locates.placeOf_eq (h : s.Locates d source root kind) : s.placeOf d = some (d.file, root) := by
  rw [placeOf, h.file?_eq, Option.map_some, h.rootOf_eq]

/-- Diagnostics at one place have their root in the same file. -/
theorem Locates.of_placeOf (h : s.Locates d source root kind) (hplace : s.placeOf d' = s.placeOf d)
    (hflagged : s.options.ignores d'.code = false) :
    s.Locates d' source root kind ∧ d'.file = d.file := by
  rw [h.placeOf_eq] at hplace
  obtain ⟨source', hfile', hplace'⟩ := Option.map_eq_some_iff.mp hplace
  obtain ⟨hfile, hroot⟩ := Prod.mk.inj hplace'
  rw [hfile] at hfile'
  obtain rfl : source' = source := Option.some.inj (hfile'.symm.trans h.file?_eq)
  have hnode : (source'.node? d'.node).isSome = true := by
    cases hnone : source'.node? d'.node with
    | some n => rfl
    | none =>
      -- Then the root would be the node that is not there.
      rw [rootOf, SourceFile.locateRoot_of_node?_none hnone] at hroot
      have hkind := h.kind_eq
      rw [SourceFile.kind?, ← hroot, hnone] at hkind
      simp at hkind
  have hsource : s.sourceOf d' = .ok source' := by
    simp only [sourceOf, hfile, h.file?_eq, hnode, if_true]
  exact ⟨⟨hflagged, hsource, hroot, h.kind_eq⟩, hfile⟩

theorem explainRoot_flag (s : Session) (source : SourceFile) (hfile : d'.file = d.file) (root : NodeId)
    (kind : Kind) :
    (s.explainRoot source d' root kind).1 = (s.explainRoot source d root kind).1 ∧
      (s.explainRoot source d' root kind).2.unflagged =
        (s.explainRoot source d root kind).2.unflagged := by
  unfold explainRoot
  rw [hfile]
  let site : Site :=
    { program := (s.indexOf d.file source).1.program, options := (s.indexOf d.file source).1.options
      file := d.file, source, index := (s.indexOf d.file source).2, flagged := d.node, root }
  have hprogram : ((site.flag d'.node).explain {}).1 = (site.explain {}).1 :=
    (site.explain_flag d'.node {}).1
  refine ⟨?_, site.outcome_flag d'.node d.code d'.code kind⟩
  exact congrArg (fun program => { (s.indexOf d.file source).1 with program }) hprogram

/-- On their own, two diagnostics at one place leave the session alike and come to the same report, except
for the code and the flagged argument. -/
theorem Locates.run_singleton_flag (h : s.Locates d source root kind)
    (hplace : s.placeOf d' = s.placeOf d) (hflagged : s.options.ignores d'.code = false) {part : Report}
    (hrun : s.run [d] = (s₁, .ok part)) :
    ∃ part', s.run [d'] = (s₁, .ok part') ∧ part'.unflagged = part.unflagged := by
  obtain ⟨h', hfile⟩ := h.of_placeOf hplace hflagged
  obtain ⟨hsession, houtcome⟩ := s.explainRoot_flag source hfile root kind
  rw [h.run_singleton] at hrun
  obtain ⟨rfl, hpart⟩ := Prod.mk.inj hrun
  obtain rfl := Except.ok.inj hpart
  refine ⟨({} : Report).add (s.explainRoot source d' root kind).2, ?_, ?_⟩
  · rw [h'.run_singleton, hsession]
  · rw [Report.unflagged_add, Report.unflagged_add, houtcome]

/-! ### The diagnostics of a run -/

theorem mem_placed {p : Place} :
    (p, d) ∈ s.placed ds ↔ d ∈ ds ∧ s.options.ignores d.code = false ∧ s.placeOf d = some p := by
  simp only [placed, List.mem_filterMap]
  constructor
  · rintro ⟨e, he, hplaced⟩
    split at hplaced
    · simp at hplaced
    · rename_i hflagged
      obtain ⟨q, hq, heq⟩ := Option.map_eq_some_iff.mp hplaced
      obtain ⟨rfl, rfl⟩ := Prod.mk.inj heq
      exact ⟨he, by simpa using hflagged, hq⟩
  · rintro ⟨hd, hflagged, hp⟩
    exact ⟨d, hd, by simp [hflagged, hp]⟩

/-- A run that comes to its end has found the file and the node of every diagnostic that is not ignored. -/
theorem locates_of_runFrom {seen : List Place} {report₁ : Report}
    (h : s.runFrom seen report ds = (s₁, .ok report₁)) (hd : d ∈ ds)
    (hflagged : s.options.ignores d.code = false) : ∃ source root kind, s.Locates d source root kind := by
  induction ds generalizing s seen report with
  | nil => simp at hd
  | cons first rest ih =>
    by_cases hignores : s.options.ignores first.code = true
    · rw [runFrom_of_ignores hignores] at h
      rcases List.mem_cons.mp hd with rfl | hd
      · simp [hflagged] at hignores
      · exact ih h hd hflagged
    have hfirst : s.options.ignores first.code = false := by simpa using hignores
    cases hsource : s.sourceOf first with
    | error fault =>
      rw [runFrom_of_fault hfirst hsource] at h
      simp at h
    | ok source =>
      obtain ⟨root, kind, hlocates⟩ := exists_locates hfirst hsource
      rcases List.mem_cons.mp hd with rfl | hd
      · exact ⟨source, root, kind, hlocates⟩
      by_cases hseen : (first.file, root) ∈ seen
      · rw [hlocates.runFrom_of_seen hseen] at h
        exact ih h hd hflagged
      · rw [hlocates.runFrom_of_new hseen] at h
        have hground := s.sameGround_explainRoot source first root kind
        obtain ⟨source', root', kind', h'⟩ := ih h hd (hground.options ▸ hflagged)
        have hback : SameGround (s.explainRoot source first root kind).1 s :=
          ⟨hground.files.symm, hground.nodeTypes.symm, hground.options.symm⟩
        exact ⟨source', root', kind', h'.of_sameGround hback⟩

theorem SameGround.placeOf {s' : Session} (h : SameGround s s') (d : Diagnostic) :
    s'.placeOf d = s.placeOf d := by
  unfold Session.placeOf
  rw [h.program_eq]
  simp only [h.rootOf]
  rfl

/-- After a run, each of its diagnostics comes to a report on its own, and changes nothing then. -/
theorem Ready.run_singleton_of_mem (hs : s.Ready) (h : s.run ds = (s₁, .ok report)) (hd : d ∈ ds)
    (hflagged : s.options.ignores d.code = false) : ∃ part, s₁.run [d] = (s₁, .ok part) := by
  have hrun : StaysDone (fun s => s.run ds) s := hs.staysDone_runFrom [] {} ds
  have hlater : Later s s₁ := hrun.later_of_eq h
  obtain ⟨parts, -, -, hparts⟩ := hs.parts_of_runFrom h
  obtain ⟨source, root, kind, hlocates⟩ := locates_of_runFrom h hd hflagged
  -- The first diagnostic at the place was explained in the run, and comes to the same report again.
  have hplace : (d.file, root) ∈ (firsts [] (s.placed ds)).map Prod.fst := by
    refine mem_firsts_iff.mpr ⟨by simp, ?_⟩
    exact List.mem_map.mpr ⟨_, mem_placed.mpr ⟨hd, hflagged, hlocates.placeOf_eq⟩, rfl⟩
  obtain ⟨⟨_, first⟩, hfirst, rfl⟩ := List.mem_map.mp hplace
  obtain ⟨-, hfirstFlagged, hfirstPlace⟩ := mem_placed.mp (firsts_sublist.subset hfirst)
  have hleading : first ∈ s.leading ds := List.mem_map.mpr ⟨_, hfirst, rfl⟩
  have hresult : s₁.run [first] ∈ parts.map fun part => (s₁, Except.ok part) := by
    rw [← hparts s₁ hlater.ready.later]
    exact List.mem_map_of_mem hleading
  obtain ⟨part, -, hpart⟩ := List.mem_map.mp hresult
  have hsame : s.placeOf first = s.placeOf d := hfirstPlace.trans hlocates.placeOf_eq.symm
  obtain ⟨hfirstLocates, -⟩ := hlocates.of_placeOf hsame hfirstFlagged
  have hground := hlater.ground
  obtain ⟨part', hpart', -⟩ := (hfirstLocates.of_sameGround hground).run_singleton_flag
    (by rw [hground.placeOf, hground.placeOf, hsame]) (hground.options ▸ hflagged) hpart.symm
  exact ⟨part', hpart'⟩

/-- Where each diagnostic comes to a report on its own and changes nothing, all of them together come to
the reports of the leading ones. By induction on the diagnostics. -/
theorem runFrom_of_singletons
    (h : ∀ d ∈ ds, s.options.ignores d.code = false → ∃ part, s.run [d] = (s, .ok part))
    (seen : List Place) (report : Report) :
    ∃ parts : List Report, s.runFrom seen report ds = (s, .ok (report.append (.concat parts))) ∧
      (s.leadingFrom seen ds).map (fun d => s.run [d]) = parts.map fun part => (s, .ok part) := by
  induction ds generalizing seen report with
  | nil => exact ⟨[], by rw [report.append_concat_nil]; rfl, rfl⟩
  | cons d rest ih =>
    obtain ⟨hd, hrest⟩ := List.forall_mem_cons.mp h
    by_cases hignores : s.options.ignores d.code = true
    · rw [runFrom_of_ignores hignores, leadingFrom_of_ignores hignores]
      exact ih hrest seen report
    have hflagged : s.options.ignores d.code = false := by simpa using hignores
    obtain ⟨part, hpart⟩ := hd hflagged
    obtain ⟨source, root, kind, hlocates⟩ := locates_of_runFrom hpart List.mem_cons_self hflagged
    by_cases hseen : (d.file, root) ∈ seen
    · rw [hlocates.runFrom_of_seen hseen, hlocates.leadingFrom_of_seen hseen]
      exact ih hrest seen report
    have hsingle := hlocates.run_singleton.symm.trans hpart
    obtain ⟨hsession, hadd⟩ := Prod.mk.inj hsingle
    obtain rfl := Except.ok.inj hadd
    rw [hlocates.runFrom_of_new hseen, hlocates.leadingFrom_of_new hseen, hsession]
    obtain ⟨parts, hrun, hparts⟩ := ih hrest ((d.file, root) :: seen)
      (report.add (s.explainRoot source d root kind).2)
    refine ⟨({} : Report).add (s.explainRoot source d root kind).2 :: parts, ?_, ?_⟩
    · rw [hrun, report.append_concat_cons]
    · rw [List.map_cons, List.map_cons, hparts, hpart]

/-- Diagnostics in another order lead with the same places. -/
theorem perm_leading (h : ds'.Perm ds) {β : Type} {f : Diagnostic → β}
    (hf : ∀ d ∈ ds, ∀ d' ∈ ds, s.options.ignores d.code = false → s.options.ignores d'.code = false →
      s.placeOf d' = s.placeOf d → f d' = f d) :
    ((s.leading ds').map f).Perm ((s.leading ds).map f) := by
  have hplaced : ∀ entry, entry ∈ s.placed ds' ↔ entry ∈ s.placed ds := fun entry =>
    (h.filterMap _).mem_iff
  have hkeys : ∀ p, p ∈ (firsts [] (s.placed ds')).map Prod.fst ↔
      p ∈ (firsts [] (s.placed ds)).map Prod.fst := by
    intro p
    rw [mem_firsts_iff, mem_firsts_iff]
    simp only [List.mem_map, hplaced]
  simp only [leading, leadingFrom, List.map_map]
  refine perm_map_of_keys nodup_firsts nodup_firsts hkeys fun p d' d hd' hd => ?_
  obtain ⟨hmem, hflagged, hplace⟩ := mem_placed.mp (firsts_sublist.subset hd)
  obtain ⟨hmem', hflagged', hplace'⟩ := mem_placed.mp (firsts_sublist.subset hd')
  exact hf d hmem d' (h.mem_iff.mp hmem') hflagged hflagged' (hplace'.trans hplace.symm)

/-- After a run, a diagnostic of it and any other one at its place come to the same report on their own,
except for the code and the flagged argument, and change nothing. -/
theorem Ready.run_alike_of_mem (hs : s.Ready) (h : s.run ds = (s₁, .ok report)) (hd : d ∈ ds)
    (hflagged : s.options.ignores d.code = false) (hflagged' : s.options.ignores d'.code = false)
    (hplace : s.placeOf d' = s.placeOf d) :
    ∃ part part', s₁.run [d] = (s₁, .ok part) ∧ s₁.run [d'] = (s₁, .ok part') ∧
      part'.unflagged = part.unflagged := by
  have hrun : StaysDone (fun s => s.run ds) s := hs.staysDone_runFrom [] {} ds
  have hground := (hrun.later_of_eq h).ground
  obtain ⟨part, hpart⟩ := hs.run_singleton_of_mem h hd hflagged
  obtain ⟨source, root, kind, hlocates⟩ := locates_of_runFrom h hd hflagged
  obtain ⟨part', hpart', hsame⟩ := (hlocates.of_sameGround hground).run_singleton_flag
    (by rw [hground.placeOf, hground.placeOf, hplace]) (hground.options ▸ hflagged') hpart
  exact ⟨part, part', hpart, hpart', hsame⟩

/-- After a run, its diagnostics in another order come to the same entries, except for codes and flagged
arguments. -/
theorem Ready.run_perm (hs : s.Ready) (h : s.run ds = (s₁, .ok report)) (hperm : ds'.Perm ds) :
    ∃ report', s₁.run ds' = (s₁, .ok report') ∧ report'.unflagged.SameEntries report.unflagged := by
  have hrun : StaysDone (fun s => s.run ds) s := hs.staysDone_runFrom [] {} ds
  have hlater : Later s s₁ := hrun.later_of_eq h
  have hground := hlater.ground
  have hsingletons : ∀ d ∈ ds, s₁.options.ignores d.code = false → ∃ part, s₁.run [d] = (s₁, .ok part) :=
    fun d hd hflagged => hs.run_singleton_of_mem h hd (hground.options ▸ hflagged)
  obtain ⟨parts, hparts, hleading⟩ := runFrom_of_singletons hsingletons [] {}
  obtain ⟨parts', hparts', hleading'⟩ :=
    runFrom_of_singletons (fun d hd => hsingletons d (hperm.mem_iff.mp hd)) [] {}
  have hreport : report = .concat parts := by
    have hsame := (hrun.again_of_eq h hlater.ready.later).symm.trans hparts
    simpa [Report.append] using hsame
  -- What a leading diagnostic comes to, without code and flagged argument, depends on its place only.
  let f : Diagnostic → Except Fault Report := fun d => (s₁.run [d]).2.map Report.unflagged
  have hf : ∀ d ∈ ds, ∀ d' ∈ ds, s₁.options.ignores d.code = false →
      s₁.options.ignores d'.code = false → s₁.placeOf d' = s₁.placeOf d → f d' = f d := by
    intro d hd d' _ hflagged hflagged' hplace
    rw [hground.options] at hflagged hflagged'
    rw [hground.placeOf, hground.placeOf] at hplace
    obtain ⟨part, part', hpart, hpart', hsame⟩ := hs.run_alike_of_mem h hd hflagged hflagged' hplace
    simp only [f, hpart, hpart', Except.map, hsame]
  have hresults : ∀ (es : List Diagnostic) (qs : List Report),
      (s₁.leadingFrom [] es).map (fun d => s₁.run [d]) = qs.map (fun part => (s₁, .ok part)) →
      (s₁.leading es).map f = (qs.map Report.unflagged).map .ok := by
    intro es qs hqs
    have hmap := congrArg (List.map fun result => result.2.map Report.unflagged) hqs
    simpa [Function.comp_def, leading, f, Except.map] using hmap
  have hentries : (parts'.map Report.unflagged).Perm (parts.map Report.unflagged) := by
    have hboth := perm_leading hperm hf
    rw [hresults ds' parts' hleading', hresults ds parts hleading] at hboth
    exact (List.map_perm_map_iff fun _ _ => Except.ok.inj).mp hboth
  refine ⟨.concat parts', by simpa [run, Report.append] using hparts', ?_⟩
  rw [hreport, Report.unflagged_concat, Report.unflagged_concat]
  exact Report.sameEntries_concat hentries

/-- Once a diagnostic has been run, it and any other one at its place come to reports that differ in the
code and the flagged argument at most. Once a list of diagnostics has been run, the list in another order
comes to the report of the list, except for the order of the entries and these two. None of these runs
changes the session. -/
theorem run_reports_by_place (hbuilt : s.program.types.Built) (hclosed : s.program.Closed)
    (hindexes : s.IndexesBuilt) :
    (∀ d d' source, s.options.ignores d.code = false → s.options.ignores d'.code = false →
        s.sourceOf d = .ok source → s.placeOf d' = s.placeOf d →
        ∃ s₁ part part', (s.run [d]).1 = s₁ ∧ s₁.run [d] = (s₁, .ok part) ∧
          s₁.run [d'] = (s₁, .ok part') ∧ part'.unflagged = part.unflagged) ∧
      ∀ ds ds' s₁ report, s.run ds = (s₁, .ok report) → ds'.Perm ds →
        ∃ report', s₁.run ds = (s₁, .ok report) ∧ s₁.run ds' = (s₁, .ok report') ∧
          report'.unflagged.SameEntries report.unflagged := by
  have hs : s.Ready := ready_of_built hbuilt hclosed hindexes
  constructor
  · intro d d' source hflagged hflagged' hsource hplace
    obtain ⟨root, kind, hlocates⟩ := exists_locates hflagged hsource
    obtain ⟨part, part', hpart⟩ :=
      hs.run_alike_of_mem hlocates.run_singleton List.mem_cons_self hflagged hflagged' hplace
    exact ⟨_, part, part', by rw [hlocates.run_singleton], hpart⟩
  · intro ds ds' s₁ report h hperm
    have hrun : StaysDone (fun s => s.run ds) s := hs.staysDone_runFrom [] {} ds
    obtain ⟨report', hreport', hsame⟩ := hs.run_perm h hperm
    exact ⟨report', hrun.again_of_eq h (hrun.later_of_eq h).ready.later, hreport', hsame⟩

/-- The argument of the call is flagged, then the call itself; and the argument and a name, in both
orders. -/
theorem run_reports_by_place_optionalCall :
    let argument : Diagnostic := ⟨2345, ⟨0⟩, ⟨1⟩⟩
    let call : Diagnostic := ⟨2322, ⟨0⟩, ⟨2⟩⟩
    let name : Diagnostic := ⟨7006, ⟨0⟩, ⟨4⟩⟩
    (∃ s₁ part part', (optionalCall.run [argument]).1 = s₁ ∧ s₁.run [argument] = (s₁, .ok part) ∧
        s₁.run [call] = (s₁, .ok part') ∧ part'.unflagged = part.unflagged) ∧
      ∃ s₁ report report', optionalCall.run [argument, name] = (s₁, .ok report) ∧
        (report.explanations.length, report.unexplained.length) = (1, 1) ∧
        s₁.run [argument, name] = (s₁, .ok report) ∧ s₁.run [name, argument] = (s₁, .ok report') ∧
        report'.unflagged.SameEntries report.unflagged := by
  intro argument call name
  have hbuilt : optionalCall.program.types.Built :=
    (Types.Built.initial.union [.string, .number, .undefined]).function
      { parameters := [⟨"x", (Types.initial.union [.string, .number, .undefined]).2, false, none⟩]
        result := .void }
  obtain ⟨halike, hperm⟩ :=
    run_reports_by_place hbuilt (by decide) (by simp [IndexesBuilt, optionalCall])
  have hsource : optionalCall.sourceOf argument = .ok (optionalCall.program.files.head (by decide)) := by
    rfl
  have hentries : (optionalCall.run [argument, name]).2.toOption.map (fun report =>
      (report.explanations.length, report.unexplained.length)) = some (1, 1) := by decide
  refine ⟨halike argument call _ (by decide) (by decide) hsource (by decide), ?_⟩
  cases hrun : optionalCall.run [argument, name] with
  | mk s₁ result =>
    rw [hrun] at hentries
    cases result with
    | error fault => simp [Except.toOption] at hentries
    | ok report =>
      obtain ⟨report', hagain, hreport', hsame⟩ := hperm _ _ _ _ hrun (List.Perm.swap argument name [])
      exact ⟨s₁, report, report', rfl, Option.some.inj hentries, hagain, hreport', hsame⟩

end Session

end Misfit
