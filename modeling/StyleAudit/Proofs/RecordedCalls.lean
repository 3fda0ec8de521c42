import StyleAudit.CommandLine.Outcome
/-!
Calls of the program. The reports that are made pick by pick are those of the survey as a whole, and what is written while they
are made is the progress line for each of its marks.
-/
namespace StyleAudit.CommandLine

open Files

section
variable (d : Directory) (columns : Option String)

theorem run_bind_of_run {α β : Type} {r : StateM Outcome α} {f : α → StateM Outcome β} {a : α} {before behind : Outcome}
    (h : r.run before = (a, behind)) : (r >>= f).run before = (f a).run behind := by
  rw [StateT.run_bind, h]
  rfl

/-- What is written into a record comes behind what it has. -/
theorem write_recorded (o written : Outcome) : (write (recorded d columns) o).run written =
    (o.exit, { written with errors := written.errors ++ o.errors, output := written.output ++ o.output }) := rfl

/-- The progress lines of picks, if they are to be shown. -/
def Job.shown (j : Job) (progress : Report.Progress) (picks : List Pick) : String :=
  if j.options.has .progress then String.join (progress.marks (picks.map (·.scanPath))) else ""

theorem audit_recorded (j : Job) (picks : List Pick) (progress : Report.Progress) (report : RunReport) (written : Outcome) :
    (j.audit (recorded d columns) picks progress report).run written =
      ({ report with record := report.record ++ picks.map fun p => (p.key, p.report j.vocabulary) },
        { written with errors := written.errors ++ j.shown progress picks }) := by
  induction picks generalizing progress report written with
  | nil =>
      have none : j.shown progress [] = "" := by
        rw [Job.shown]
        split <;> rfl
      rw [none, List.map_nil, List.append_nil, String.append_empty]
      rfl
  | cons pick rest ih =>
      have later := ih progress.advance (report.add pick.key (pick.report j.vocabulary))
      simp only [RunReport.add, List.append_assoc, List.singleton_append] at later
      rw [Job.audit, List.map_cons]
      simp only [Job.shown, List.map_cons, Report.Progress.marks, String.join_cons] at later ⊢
      split
      · next shown =>
          simp only [if_pos shown] at later
          rw [← String.append_assoc]
          exact later _
      · next silent =>
          simp only [if_neg silent] at later
          exact later _

theorem run_recorded (j : Job) (written : Outcome) : (j.run (recorded d columns)).run written =
    (j.survey.run j.vocabulary, { written with errors := written.errors ++ (j.outcome columns).errors }) :=
  audit_recorded d columns j j.survey.picks (j.progress columns) _ written

/-- Of the tables only those are read that the job is prepared with. -/
theorem readTables_recorded (o : Options) (written : Outcome) : ∃ tables,
    (readTables (recorded d columns) o).run written = (tables, written) ∧
      ∀ source, prepare o source tables = prepare o source fun t => d.read (tablePath (o.vocabulary.getD "") t) := by
  unfold readTables prepare
  cases o.vocabulary with
  | none => exact ⟨_, rfl, fun _ => rfl⟩
  | some directory => exact ⟨_, rfl, fun _ => rfl⟩

/-- A call comes to what its arguments stop at, to what there is to say if its job cannot be prepared, or to what the job
comes to. -/
theorem call_eq (arguments : List String) : call d columns arguments =
    match Options.ofArguments arguments with
    | .error stop => stop.outcome
    | .ok o =>
      match prepare o (Source.find? d o.source) fun table => d.read (tablePath (o.vocabulary.getD "") table) with
      | .error outcome => outcome
      | .ok job => job.outcome columns := by
  rw [call, callIn]
  cases Options.ofArguments arguments with
  | error stop => simp only [write_recorded, String.empty_append]
  | ok o =>
      obtain ⟨tables, read, same⟩ := readTables_recorded d columns o ⟨0, "", ""⟩
      have source : ((recorded d columns).source o.source).run ⟨0, "", ""⟩ = (Source.find? d o.source, ⟨0, "", ""⟩) := rfl
      simp only [run_bind_of_run source, run_bind_of_run read, same]
      cases prepare o (Source.find? d o.source) fun table => d.read (tablePath (o.vocabulary.getD "") table) with
      | error outcome => simp only [write_recorded, String.empty_append]
      | ok job =>
          simp only [run_bind_of_run (run_recorded d columns job _), write_recorded, String.empty_append, String.append_empty]
          rfl

end
end StyleAudit.CommandLine
