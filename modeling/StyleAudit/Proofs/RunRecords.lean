import StyleAudit.Audit.PickQueue
import StyleAudit.CommandLine.Outcome
import StyleAudit.Proofs.Buckets
import StyleAudit.Proofs.SurveyedFiles
/-!
The reports of a run. A record in which no scan path comes twice keeps every report, so a run over a tree has one report
for each file, and what becomes of a file depends on no other.
-/
namespace StyleAudit

open Files

/-! Records in which no key comes twice. -/

section
variable {κ α : Type} [DecidableEq κ]

theorem mem_entriesOf {record : List (κ × α)} {key : κ} {entry : α} :
    entry ∈ entriesOf key record ↔ (key, entry) ∈ record := by
  induction record with
  | nil => exact iff_of_false List.not_mem_nil List.not_mem_nil
  | cons first rest ih =>
      obtain ⟨k, other⟩ := first
      rw [entriesOf_cons, List.mem_cons, Prod.mk.injEq, ← ih]
      split
      · next same => rw [List.mem_cons, and_iff_right same.symm]
      · next apart => rw [or_iff_right fun both => apart both.1.symm]

theorem length_entriesOf_le {record : List (κ × α)} (distinct : (record.map Prod.fst).Nodup) (key : κ) :
    (entriesOf key record).length ≤ 1 := by
  induction record with
  | nil => exact Nat.zero_le _
  | cons first rest ih =>
      obtain ⟨k, entry⟩ := first
      obtain ⟨new, distinct⟩ := List.nodup_cons.mp distinct
      rw [entriesOf_cons]
      split
      · next same =>
          have none : entriesOf key rest = [] := by
            refine List.eq_nil_iff_forall_not_mem.mpr fun other mem => new ?_
            exact List.mem_map.mpr ⟨(key, other), mem_entriesOf.mp mem, same.symm⟩
          rw [none]
          exact Nat.le_refl _
      · exact ih distinct

variable [LT κ] [DecidableLT κ] [IsTrans κ (· < ·)] [Std.Trichotomous (α := κ) (· < ·)]
  [Std.Irrefl (α := κ) (· < ·)]

theorem bucket_single {record : List (κ × α)} (distinct : (record.map Prod.fst).Nodup) {key : κ} {entries : List α}
    (mem : (key, entries) ∈ grouped record) : ∃ entry, entries = [entry] := by
  obtain ⟨same, some⟩ := mem_grouped.mp mem
  have few := length_entriesOf_le distinct key
  rw [← same] at few
  exact List.length_eq_one_iff.mp (Nat.le_antisymm few (List.length_pos_iff.mpr some))

theorem mem_latest {record : List (κ × α)} (distinct : (record.map Prod.fst).Nodup) {key : κ} {entry : α} :
    (key, entry) ∈ latest record ↔ (key, entry) ∈ record := by
  rw [mem_latest_iff, ← mem_entriesOf]
  constructor
  · exact List.mem_of_getLast?
  · intro mem
    have few := length_entriesOf_le distinct key
    obtain ⟨single, same⟩ := List.length_eq_one_iff.mp (Nat.le_antisymm few (List.length_pos_of_mem mem))
    rw [same] at mem ⊢
    exact congrArg some (List.mem_singleton.mp mem).symm

theorem length_latest {record : List (κ × α)} (distinct : (record.map Prod.fst).Nodup) :
    (latest record).length = record.length := by
  have kept : (latest record).length = (grouped record).length := by
    rw [latest, List.length_filterMap_eq_countP, List.countP_eq_length]
    intro b mem
    obtain ⟨key, entries⟩ := b
    obtain ⟨entry, rfl⟩ := bucket_single distinct mem
    rfl
  have total : ∀ buckets : List (κ × List α), (∀ b ∈ buckets, ∃ entry, b.2 = [entry]) →
      Findings.total buckets = buckets.length := by
    intro buckets single
    induction buckets with
    | nil => rfl
    | cons b rest ih =>
        obtain ⟨⟨entry, same⟩, others⟩ := List.forall_mem_cons.mp single
        have first := congrArg List.length same
        simp only [Findings.total, List.map_cons, List.foldr_cons, List.length_cons] at ih first ⊢
        rw [ih others, first, Nat.add_comm]
        rfl
  rw [kept, ← total_grouped record]
  exact (total _ fun _ mem => bucket_single distinct mem).symm

end

/-! Reports under their keys. -/

/-- The report is the one under the key, in the reports of its media type. -/
def Filed (r : RunReport) (key : FileKey) (report : FileReport) : Prop :=
  ∃ reports, (key.mediaType, reports) ∈ r.details ∧ (key.scanPath, report) ∈ reports

namespace RunReport

variable {r : RunReport}

theorem distinct_entries (distinct : (r.record.map fun entry => entry.1.scanPath).Nodup) (type : String) :
    ((entriesOf type (r.record.map fun (key, report) => (key.mediaType, key.scanPath, report))).map Prod.fst).Nodup := by
  refine distinct.sublist ?_
  induction r.record with
  | nil => exact .slnil
  | cons entry rest ih =>
      rw [List.map_cons, List.map_cons, entriesOf_cons]
      split
      · exact ih.cons_cons _
      · exact ih.cons _

theorem filed_iff (distinct : (r.record.map fun entry => entry.1.scanPath).Nodup) {key : FileKey}
    {report : FileReport} : Filed r key report ↔ (key, report) ∈ r.record := by
  obtain ⟨type, scanPath⟩ := key
  have recorded : (scanPath, report) ∈
      entriesOf type (r.record.map fun (key, report) => (key.mediaType, key.scanPath, report)) ↔
        (⟨type, scanPath⟩, report) ∈ r.record := by
    rw [mem_entriesOf, List.mem_map]
    constructor
    · rintro ⟨⟨key, _⟩, mem, same⟩
      obtain ⟨rfl, rfl, rfl⟩ : key.mediaType = type ∧ key.scanPath = scanPath ∧ _ = report := by simpa using same
      exact mem
    · exact fun mem => ⟨_, mem, rfl⟩
  rw [← recorded, ← mem_latest (distinct_entries distinct type), Filed, RunReport.details]
  constructor
  · rintro ⟨reports, mem, here⟩
    obtain ⟨⟨_, entries⟩, bucket, same⟩ := List.mem_map.mp mem
    obtain ⟨rfl, rfl⟩ := Prod.mk.inj same
    rwa [← (mem_grouped.mp bucket).1]
  · intro here
    refine ⟨_, List.mem_map.mpr ⟨(type, _), mem_grouped.mpr ⟨rfl, ?_⟩, rfl⟩, here⟩
    exact List.ne_nil_of_mem ((mem_latest (distinct_entries distinct type)).mp here)

/-- As many reports are kept as were made. -/
theorem reportCount_eq (distinct : (r.record.map fun entry => entry.1.scanPath).Nodup) :
    r.reportCount = r.record.length := by
  have lengths : r.details.map (·.2.length) = (grouped (r.record.map fun (key, report) =>
      (key.mediaType, key.scanPath, report))).map (·.2.length) := by
    rw [RunReport.details, List.map_map]
    refine List.map_congr_left fun b mem => ?_
    obtain ⟨type, entries⟩ := b
    have keys := distinct_entries distinct type
    rw [← (mem_grouped.mp mem).1] at keys
    exact length_latest keys
  have total := total_grouped (r.record.map fun (key, report) => (key.mediaType, key.scanPath, report))
  rw [List.length_map] at total
  rw [RunReport.reportCount, lengths]
  exact total

end RunReport

/-! The run over a directory. -/

/-- What is to be reported of a file at a place with a content. -/
inductive IsReport (v : Vocabulary) (place : FilePlace) : Content → FileReport → Prop
  | sheet {bytes : List UInt8} {audit : SheetAudit} : mediaType place.name = styleSheetType →
      SheetAudit.ofBytes v place.scanPath bytes = .ok audit → IsReport v place (.ok bytes) (.sheet audit)
  | failed {bytes : List UInt8} {e : AuditError} : mediaType place.name = styleSheetType →
      SheetAudit.ofBytes v place.scanPath bytes = .error e → IsReport v place (.ok bytes) (.failed place.name e.message)
  | unreadable {reason : String} : mediaType place.name = styleSheetType → IsReport v place (.error reason)
      (.failed place.name (AuditError.unreadable place.scanPath reason).message)
  | unsupported {content : Content} : mediaType place.name ≠ styleSheetType →
      IsReport v place content (.unsupported place.name)

/-- What a run reports of a file. -/
def reportOf (v : Vocabulary) (file : FilePlace × Content) : FileReport :=
  if mediaType file.1.name = styleSheetType then
    match SheetAudit.ofContent v file.1.scanPath file.2 with
    | .ok audit => .sheet audit
    | .error e => .failed file.1.name e.message
  else .unsupported file.1.name

theorem isReport_iff {v : Vocabulary} {place : FilePlace} {content : Content} {report : FileReport} :
    IsReport v place content report ↔ report = reportOf v (place, content) := by
  constructor
  · intro h
    cases h with
    | sheet type audited => rw [reportOf, if_pos type, SheetAudit.ofContent, audited]
    | failed type stopped => rw [reportOf, if_pos type, SheetAudit.ofContent, stopped]
    | unreadable type => rw [reportOf, if_pos type, SheetAudit.ofContent]
    | unsupported other => rw [reportOf, if_neg other]
  · rintro rfl
    rw [reportOf]
    split
    · next type =>
        cases content with
        | error reason => exact .unreadable type
        | ok bytes =>
            rw [SheetAudit.ofContent]
            cases audited : SheetAudit.ofBytes v place.scanPath bytes with
            | ok audit => exact .sheet type audited
            | error e => exact .failed type audited
    · next other => exact .unsupported other

theorem pick_report (source : String) (file : FilePlace × Content) (v : Vocabulary) :
    (file.1.pick source file.2).report v = reportOf v file := rfl

/-- A survey and its run, with the files of which each has one report, in the order in which they are picked. -/
structure ReportsEach (v : Vocabulary) (s : Survey) (files : List (FilePlace × Content)) : Prop where
  distinct : (files.map fun file => file.1.scanPath).Nodup
  filed : ∀ key report, Filed (s.run v) key report ↔ ∃ file ∈ files, key = file.1.key ∧ IsReport v file.1 file.2 report
  each : ∀ file ∈ files, ∃! report, Filed (s.run v) file.1.key report
  count : (s.run v).reportCount = files.length
  found : (PickQueue.ofSurvey s).files = files.length ∧ (s.run v).files = files.length
  picked : (PickQueue.ofSurvey s).left.map Pick.key = files.map fun file => file.1.key
  total : ∀ options columns, (CommandLine.Job.progress ⟨options, v, s⟩ columns).total = files.length
  marks : s.marks = files.map fun file => file.1.scanPath

section
variable {d : Directory} {name : String} {byLink : Bool} {entries : Directory}

theorem ofName_directory (h : Source.find? d name = some (.directory byLink entries)) :
    Survey.ofName d name = some (.ofSource name (.directory byLink entries)) := by
  rw [Survey.ofName, h]
  rfl

/-- The record of a run over a tree. -/
theorem run_record (v : Vocabulary) (name : String) (byLink : Bool) (entries : Directory) :
    (Survey.run v (.ofSource name (.directory byLink entries))).record =
      (filesInOrder name entries).map fun file => (file.1.key, reportOf v file) := by
  rw [Survey.run, picks_ofSource, List.map_map]
  exact List.map_congr_left fun file _ => Prod.ext rfl (pick_report name file v)

theorem nodup_filesInOrder (tree : IsTree entries) (name : String) :
    ((filesInOrder name entries).map fun file => file.1.scanPath).Nodup :=
  ((filesInOrder_perm name entries).map _).nodup_iff.mpr (nodup_scanPaths tree)

theorem mem_filesInOrder {place : FilePlace} {content : Content} :
    (place, content) ∈ filesInOrder name entries ↔ LeadsTo entries place content := by
  rw [(filesInOrder_perm name entries).mem_iff, mem_filesBelow]

theorem run_distinct (tree : IsTree entries) (v : Vocabulary) (name : String) (byLink : Bool) :
    ((Survey.run v (.ofSource name (.directory byLink entries))).record.map fun entry => entry.1.scanPath).Nodup := by
  rw [run_record, List.map_map]
  exact nodup_filesInOrder tree name

/-- A report is filed for a file, and says what is to be reported of it. -/
theorem run_filed (tree : IsTree entries) (v : Vocabulary) (name : String) (byLink : Bool) {key : FileKey}
    {report : FileReport} : Filed (Survey.run v (.ofSource name (.directory byLink entries))) key report ↔
      ∃ place content, LeadsTo entries place content ∧ key = place.key ∧ IsReport v place content report := by
  rw [RunReport.filed_iff (run_distinct tree v name byLink), run_record, List.mem_map]
  constructor
  · rintro ⟨⟨place, content⟩, mem, same⟩
    obtain ⟨rfl, rfl⟩ := Prod.mk.inj same
    exact ⟨place, content, mem_filesInOrder.mp mem, rfl, isReport_iff.mpr rfl⟩
  · rintro ⟨place, content, leads, rfl, reported⟩
    exact ⟨(place, content), mem_filesInOrder.mpr leads, by rw [isReport_iff.mp reported]⟩

/-- Files of a tree have keys of their own. -/
theorem key_injective (tree : IsTree entries) {entries' : Directory} (tree' : IsTree entries') {place other : FilePlace}
    {content content' : Content} (h : LeadsTo entries place content) (h' : LeadsTo entries' other content')
    (same : place.key = other.key) : place = other :=
  scanPath_injective (h.names tree) (h'.names tree') (congrArg FileKey.scanPath same)

/-- What is filed for one file of a tree. -/
theorem run_filed_file (tree : IsTree entries) (v : Vocabulary) (name : String) (byLink : Bool) {place : FilePlace}
    {content : Content} (leads : LeadsTo entries place content) {report : FileReport} :
    Filed (Survey.run v (.ofSource name (.directory byLink entries))) place.key report ↔
      report = reportOf v (place, content) := by
  rw [run_filed tree, ← isReport_iff]
  constructor
  · rintro ⟨other, content', leads', same, reported⟩
    obtain rfl := key_injective tree tree leads leads' same
    rwa [leads.unique tree leads']
  · exact fun reported => ⟨place, content, leads, rfl, reported⟩

theorem reportsEach (tree : IsTree entries) (v : Vocabulary) (name : String) (byLink : Bool) :
    ReportsEach v (.ofSource name (.directory byLink entries)) (filesInOrder name entries) where
  distinct := nodup_filesInOrder tree name
  filed key report := by
    rw [run_filed tree]
    constructor
    · rintro ⟨place, content, leads, same, reported⟩
      exact ⟨(place, content), mem_filesInOrder.mpr leads, same, reported⟩
    · rintro ⟨⟨place, content⟩, mem, same, reported⟩
      exact ⟨place, content, mem_filesInOrder.mp mem, same, reported⟩
  each file mem := by
    obtain ⟨place, content⟩ := file
    have filed : ∀ report, Filed _ place.key report ↔ _ := fun _ =>
      run_filed_file tree v name byLink (mem_filesInOrder.mp mem)
    exact ⟨_, (filed _).mpr rfl, fun _ other => (filed _).mp other⟩
  count := by
    rw [RunReport.reportCount_eq (run_distinct tree v name byLink), run_record, List.length_map]
  found := by
    have length := congrArg List.length (picks_ofSource name byLink entries)
    rw [List.length_map] at length
    exact ⟨length, length⟩
  picked := by
    rw [PickQueue.ofSurvey, picks_ofSource, List.map_map]
    rfl
  total options columns := by
    have length := congrArg List.length (picks_ofSource name byLink entries)
    rw [List.length_map] at length
    exact length
  marks := by
    rw [Survey.marks, picks_ofSource, List.map_map]
    rfl

/-- A run over a tree reports each of its files once, under its media type and its scan path: as a style sheet, as one
that cannot be audited, or as a file of another type. The reports, the picks, the total and the marks are as many as the
files. A change of one file, also to a tree with it or without it, leaves the report of every other file as it is. -/
theorem run_tree (v : Vocabulary) (found : Source.find? d name = some (.directory byLink entries))
    (tree : IsTree entries) :
    ∃ s files, Survey.ofName d name = some s ∧
      (∀ place content, (place, content) ∈ files ↔ LeadsTo entries place content) ∧ ReportsEach v s files ∧
      ∀ {d' : Directory} {name' : String} {byLink' : Bool} {entries' : Directory} {place : FilePlace},
        Source.find? d' name' = some (.directory byLink' entries') → IsTree entries' → ChangedAt place entries entries' →
        ∃ s', Survey.ofName d' name' = some s' ∧ ∀ other content, other ≠ place → LeadsTo entries other content →
          ∀ report, Filed (s.run v) other.key report ↔ Filed (s'.run v) other.key report := by
  refine ⟨_, filesInOrder name entries, ofName_directory found, fun _ _ => mem_filesInOrder,
    reportsEach tree v name byLink, ?_⟩
  intro d' name' byLink' entries' place found' tree' changed
  refine ⟨_, ofName_directory found', fun other content apart leads report => ?_⟩
  have leads' := (changed.leadsTo apart content).mp leads
  rw [run_filed_file tree v name byLink leads, run_filed_file tree' v name' byLink' leads']

end

/-- A style sheet that cannot be read, beside a hidden directory, and what else there is. -/
def sampleSite (more : Directory) : Directory :=
  (".git", .directory [("x.css", .file (.ok []))]) :: ("css", .directory [("b.css", .file (.error "denied"))]) :: more

theorem isTree_sampleSite {more : Directory} (tree : IsTree more) (css : "css" ∉ more.map Prod.fst)
    (git : ".git" ∉ more.map Prod.fst) : IsTree (sampleSite more) := by
  have inside : IsTree (("css", .directory [("b.css", .file (.error "denied"))]) :: more) := by
    refine isTree_cons.mpr ⟨css, by decide, ?_, tree⟩
    rintro entries ⟨⟩
    exact isTree_file (by decide) _
  refine isTree_cons.mpr ⟨?_, by decide, ?_, inside⟩
  · rw [List.map_cons, List.mem_cons, not_or]
    exact ⟨by decide, git⟩
  · rintro entries ⟨⟩
    exact isTree_file (by decide) _

/-- The sample with a text and without. -/
theorem run_tree_sample :
    ∃ s s', Survey.ofName [("site", .directory (sampleSite [("note.txt", .file (.ok []))]))] "site" = some s ∧
      Survey.ofName [("site", .directory (sampleSite []))] "site" = some s' ∧
      s.marks.length = (s.run ⟨[], [], []⟩).reportCount ∧
      Filed (s.run ⟨[], [], []⟩) ⟨"text/css", "/css/b.css"⟩
        (.failed "b.css" "/css/b.css: could not read file: denied") ∧
      Filed (s'.run ⟨[], [], []⟩) ⟨"text/css", "/css/b.css"⟩
        (.failed "b.css" "/css/b.css: could not read file: denied") := by
  have entry : ∀ following entries, Directory.find? [("site", .directory entries)] following "site" =
      some (.directory entries) := by
    intro following entries
    have pieces : Path.pieces "site" = ["site"] := by decide
    rw [Directory.find?, if_neg (by decide), pieces, Directory.locate, if_neg (by decide), if_neg (by decide),
      List.lookup_cons_self]
    exact Directory.locate.eq_1 ..
  have found : ∀ entries, Source.find? [("site", .directory entries)] "site" = some (.directory false entries) := by
    intro entries
    rw [Source.find?, entry, entry]
  have note : IsTree [("note.txt", .file (.ok []))] := isTree_file (by decide) _
  have tree := isTree_sampleSite note (by decide) (by decide)
  have tree' := isTree_sampleSite isTree_nil (by decide) (by decide)
  have changed : ChangedAt ⟨[], "note.txt"⟩ (sampleSite [("note.txt", .file (.ok []))]) (sampleSite []) := by
    have added : ChangedAt ⟨[], "note.txt"⟩ (sampleSite [] ++ []) (sampleSite [] ++ [("note.txt", .file (.ok []))]) :=
      .add
    exact .undo added
  have leads : LeadsTo (sampleSite [("note.txt", .file (.ok []))]) (FilePlace.within "css" ⟨[], "b.css"⟩)
      (.error "denied") :=
    .inside (List.mem_cons_of_mem _ List.mem_cons_self) (by decide) (.here List.mem_cons_self (by decide))
  obtain ⟨s, files, ofName, listed, reports, others⟩ := run_tree ⟨[], [], []⟩ (found _) tree
  obtain ⟨s', ofName', same⟩ := others (found _) tree' changed
  have key : FilePlace.key ⟨["css"], "b.css"⟩ = ⟨"text/css", "/css/b.css"⟩ := by decide +kernel
  have message : (AuditError.unreadable (FilePlace.scanPath ⟨["css"], "b.css"⟩) "denied").message =
      "/css/b.css: could not read file: denied" := by decide +kernel
  have filed := (reports.filed _ _).mpr ⟨_, (listed _ _).mpr leads, rfl, .unreadable (by decide +kernel)⟩
  have filed' := (same _ _ (by decide) leads _).mp filed
  change Filed _ (FilePlace.key ⟨["css"], "b.css"⟩)
    (.failed "b.css" (AuditError.unreadable _ "denied").message) at filed filed'
  rw [key] at filed filed'
  refine ⟨s, s', ofName, ofName', ?_, message ▸ filed, message ▸ filed'⟩
  rw [reports.marks, List.length_map, reports.count]

end StyleAudit
