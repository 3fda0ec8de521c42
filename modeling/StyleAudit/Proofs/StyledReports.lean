import Mathlib.Data.String.Basic
import StyleAudit.Proofs.Buckets
import StyleAudit.Report.Text
/-!
Styled reports. Styles are shown by control sequences around texts that are the same without them, and no width or
length is taken from a styled text. So what is left of a report when its control sequences are taken out is the report
without styles.
-/
namespace StyleAudit.Report

/-! Taking out control sequences. -/

/-- What the parameters of a control sequence consist of. -/
def isParameterChar (c : Char) : Bool := c.isDigit || c == ';'

/-- What stands behind a control sequence that sets a style, if the text begins with one. -/
def behindSequence? : List Char → Option (List Char)
  | '\x1b' :: '[' :: rest =>
    match rest.dropWhile isParameterChar with
    | 'm' :: behind => some behind
    | _ => none
  | _ => none

theorem length_behindSequence {text behind : List Char} (h : behindSequence? text = some behind) :
    behind.length < text.length := by
  unfold behindSequence? at h
  split at h
  · next rest =>
      have shorter := (List.dropWhile_suffix isParameterChar (l := rest)).length_le
      split at h
      · next last found =>
          obtain rfl := Option.some.inj h
          rw [found] at shorter
          simp only [List.length_cons] at shorter ⊢
          omega
      · cases h
  · cases h

/-- A text without the control sequences that set styles. -/
def withoutStyles (text : List Char) : List Char :=
  match text with
  | [] => []
  | c :: rest =>
    match _found : behindSequence? (c :: rest) with
    | some behind => withoutStyles behind
    | none => c :: withoutStyles rest
termination_by text.length
decreasing_by
  · exact length_behindSequence _found
  · exact Nat.lt_succ_self _

theorem withoutStyles_cons {c : Char} (h : c ≠ '\x1b') (rest : List Char) :
    withoutStyles (c :: rest) = c :: withoutStyles rest := by
  have none : behindSequence? (c :: rest) = none := by
    unfold behindSequence?
    split
    · next same => exact absurd (List.cons.inj same).1 h
    · rfl
  rw [withoutStyles]
  split
  · next found => rw [none] at found; cases found
  · rfl

theorem withoutStyles_append {text : List Char} (h : '\x1b' ∉ text) (rest : List Char) :
    withoutStyles (text ++ rest) = text ++ withoutStyles rest := by
  induction text with
  | nil => rfl
  | cons c text ih =>
      obtain ⟨first, others⟩ := not_or.mp (List.mem_cons.not.mp h)
      rw [List.cons_append, withoutStyles_cons (Ne.symm first), ih others, List.cons_append]

theorem withoutStyles_sequence {parameters : List Char} (h : ∀ c ∈ parameters, isParameterChar c = true)
    (rest : List Char) : withoutStyles ('\x1b' :: '[' :: (parameters ++ 'm' :: rest)) = withoutStyles rest := by
  have behind : behindSequence? ('\x1b' :: '[' :: (parameters ++ 'm' :: rest)) = some rest := by
    rw [behindSequence?, List.dropWhile_append_of_pos h]
    rfl
  rw [withoutStyles]
  split
  · next found =>
      rw [behind] at found
      rw [Option.some.inj found]
  · next found => rw [behind] at found; cases found

/-! Texts without escape characters. -/

/-- The text holds no escape character. -/
def IsPlain (text : String) : Prop := '\x1b' ∉ text.toList

instance (text : String) : Decidable (IsPlain text) := inferInstanceAs (Decidable ('\x1b' ∉ text.toList))

/-- A text that is given by its characters. A string literal is one, and its characters are seen without decoding it. -/
theorem isPlain_ofList {text : List Char} (h : '\x1b' ∉ text) : IsPlain (String.ofList text) := by
  rwa [IsPlain, String.toList_ofList]

@[simp] theorem isPlain_append {s t : String} : IsPlain (s ++ t) ↔ IsPlain s ∧ IsPlain t := by
  rw [IsPlain, String.toList_append, List.mem_append, not_or]
  rfl

@[simp] theorem isPlain_repr (n : Nat) : IsPlain n.repr := by
  intro mem
  rw [Nat.toList_repr] at mem
  exact absurd (Nat.isDigit_of_mem_toDigits (by decide) (by decide) mem) (by decide)

theorem isPlain_replicate (n : Nat) {c : Char} (h : c ≠ '\x1b') : IsPlain (String.ofList (List.replicate n c)) :=
  isPlain_ofList fun mem => h (List.eq_of_mem_replicate mem).symm

@[simp] theorem isPlain_blanks (n : Nat) : IsPlain (blanks n) := isPlain_replicate n (by decide)

/-! Styled pieces and lines. -/

theorem Piece.withoutStyles_render (p : Piece) (plain : IsPlain p.text) (rest : List Char) :
    withoutStyles ((p.render true).toList ++ rest) = (p.render false).toList ++ withoutStyles rest := by
  obtain ⟨style, text⟩ := p
  cases style with
  | none => exact withoutStyles_append plain rest
  | some style =>
      have parameters : ∀ c ∈ style.parameters.toList, isParameterChar c = true :=
        List.all_eq_true.mp (by cases style <;> rfl)
      have reset : ∀ c ∈ ['0'], isParameterChar c = true := List.all_eq_true.mp rfl
      have spelled : (Piece.render true ⟨some style, text⟩).toList ++ rest = '\x1b' :: '[' ::
          (style.parameters.toList ++ 'm' :: (text.toList ++ ('\x1b' :: '[' :: (['0'] ++ 'm' :: rest)))) := by
        simp [Piece.render, controlSequence]
      rw [spelled, withoutStyles_sequence parameters, withoutStyles_append plain, withoutStyles_sequence reset]
      rfl

namespace Line

/-- The line holds no escape character but in its styles. -/
def IsPlain (l : Line) : Prop := ∀ p ∈ l.pieces, Report.IsPlain p.text

end Line

theorem withoutStyles_line (l : Line) (plain : l.IsPlain) (rest : List Char) :
    withoutStyles ((l.render true).toList ++ rest) = (l.render false).toList ++ withoutStyles rest := by
  rw [Line.IsPlain] at plain
  rw [Line.render, Line.render]
  generalize l.pieces = pieces at plain
  induction pieces with
  | nil => rfl
  | cons p pieces ih =>
      obtain ⟨first, others⟩ := List.forall_mem_cons.mp plain
      rw [List.map_cons, List.map_cons, String.join_cons, String.join_cons, String.toList_append, String.toList_append,
        List.append_assoc, List.append_assoc, p.withoutStyles_render first, ih others]

theorem withoutStyles_render {ls : List Line} (plain : ∀ l ∈ ls, l.IsPlain) :
    withoutStyles (render true ls).toList = (render false ls).toList := by
  rw [render, render]
  induction ls with
  | nil => rw [List.map_nil, List.map_nil, String.join_nil, String.toList_empty, withoutStyles]
  | cons l ls ih =>
      obtain ⟨first, others⟩ := List.forall_mem_cons.mp plain
      have lineEnd : '\x1b' ∉ "\n".toList := by decide
      rw [List.map_cons, List.map_cons, String.join_cons, String.join_cons, String.toList_append, String.toList_append,
        String.toList_append, String.toList_append, List.append_assoc, List.append_assoc, withoutStyles_line l first,
        withoutStyles_append lineEnd, ih others]

/-! Lines without escape characters. -/

namespace Line

@[simp] theorem isPlain_plain {text : String} : (plain text).IsPlain ↔ Report.IsPlain text := by
  simp [IsPlain, pieces]

@[simp] theorem isPlain_setOff {before text after : String} {style : Style} :
    (setOff before style text after).IsPlain ↔
      Report.IsPlain before ∧ Report.IsPlain text ∧ Report.IsPlain after := by
  simp [IsPlain, pieces]

@[simp] theorem isPlain_count {label : String} {style : Style} {n : Nat} :
    (count label style n).IsPlain ↔ Report.IsPlain label := by
  simp +decide [IsPlain, pieces]

theorem isPlain_entry {head text : String} (h : Report.IsPlain head) (h' : Report.IsPlain text) (isFirst : Bool) :
    (entry head isFirst text).IsPlain := by
  cases isFirst <;> simp [IsPlain, pieces, h, h']

@[simp] theorem isPlain_hit {token : String} {line : Nat} : (hit token line).IsPlain ↔ Report.IsPlain token := by
  simp +decide [IsPlain, pieces]

@[simp] theorem isPlain_empty : empty.IsPlain := by
  simp +decide [empty]

end Line

/-- None of the lines holds an escape character but in its styles. -/
def ArePlain (ls : List Line) : Prop := ∀ l ∈ ls, l.IsPlain

@[simp] theorem arePlain_nil : ArePlain [] := nofun

@[simp] theorem arePlain_cons {l : Line} {ls : List Line} : ArePlain (l :: ls) ↔ l.IsPlain ∧ ArePlain ls :=
  List.forall_mem_cons

@[simp] theorem arePlain_append {ls ms : List Line} : ArePlain (ls ++ ms) ↔ ArePlain ls ∧ ArePlain ms :=
  List.forall_mem_append

theorem arePlain_flatMap {α : Type} {f : α → List Line} {as : List α} (h : ∀ a ∈ as, ArePlain (f a)) :
    ArePlain (as.flatMap f) :=
  List.forall_mem_flatMap.mpr h

theorem arePlain_listing {head : String} {texts : List String} (h : IsPlain head) (h' : ∀ t ∈ texts, IsPlain t) :
    ArePlain (listing head texts) := by
  cases texts with
  | nil => exact arePlain_nil
  | cons text rest =>
      obtain ⟨first, others⟩ := List.forall_mem_cons.mp h'
      exact arePlain_cons.mpr ⟨Line.isPlain_entry h first true,
        List.forall_mem_map.mpr fun t mem => Line.isPlain_entry h (others t mem) false⟩

@[simp] theorem arePlain_paragraph {text : String} : ArePlain (paragraph text) ↔ IsPlain text := by
  simp +decide [paragraph]

@[simp] theorem isPlain_lineHead (line : Nat) : IsPlain (lineHead line) := by
  change IsPlain ("      - @ line " ++ toString line ++ ": ")
  simp +decide

/-! What a report draws on. -/

def useTexts : Use → List String
  | .element name | .microformat name | .wellKnown name | .wellKnownFormat name => [name]
  | .oneLetter start token | .twoLetters start token => [start, token]

/-- The texts of findings that a report shows. -/
def findingTexts (f : Findings) : List String :=
  f.repairs.map (·.replacement.before) ++ f.failures.flatMap (fun x => [x.2.before, x.2.after, x.2.reason]) ++
    f.uses.flatMap (useTexts ·.2)

def reportTexts : FileReport → List String
  | .sheet audit => audit.scanPath :: findingTexts audit.findings
  | .failed _ message => [message]
  | .unsupported _ => []

/-- The texts of a run that its report shows: media types, scan paths, and what was found or went wrong. -/
def runTexts (r : RunReport) : List String :=
  r.details.flatMap fun (type, reports) => type :: reports.flatMap fun (path, report) => path :: reportTexts report

/-! Sections. -/

section
variable {κ α : Type} [DecidableEq κ] [LT κ] [DecidableLT κ]

/-- What buckets hold was recorded. -/
theorem mem_of_grouped {record : List (κ × α)} {b : κ × List α} (mem : b ∈ grouped record) {entry : α}
    (held : entry ∈ b.2) : (b.1, entry) ∈ record :=
  (ungrouped_grouped record).mem_iff.mp (List.mem_flatMap.mpr ⟨b, mem, List.mem_map.mpr ⟨entry, held, rfl⟩⟩)

end

set_option maxRecDepth 2000 in
theorem isPlain_description (k : RepairKind) : IsPlain k.description := by
  cases k <;> exact isPlain_ofList (by decide)

section
variable {f : Findings} (plain : ∀ t ∈ findingTexts f, IsPlain t)
include plain

theorem isPlain_repair {r : Repair} (mem : r ∈ f.repairs) : IsPlain r.replacement.before :=
  plain _ (List.mem_append_left _ (List.mem_append_left _ (List.mem_map.mpr ⟨r, mem, rfl⟩)))

theorem isPlain_failure {x : Nat × Failure} (mem : x ∈ f.failures) :
    IsPlain x.2.before ∧ IsPlain x.2.after ∧ IsPlain x.2.reason := by
  have listed : ∀ t ∈ [x.2.before, x.2.after, x.2.reason], IsPlain t := fun t held =>
    plain t (List.mem_append_left _ (List.mem_append_right _ (List.mem_flatMap.mpr ⟨x, mem, held⟩)))
  simpa using listed

theorem isPlain_use {x : Nat × Use} (mem : x ∈ f.uses) : ∀ t ∈ useTexts x.2, IsPlain t := fun t held =>
  plain t (List.mem_append_right _ (List.mem_flatMap.mpr ⟨x, mem, held⟩))

theorem arePlain_repairLines (s : Severity) : ArePlain (repairLines f s) := by
  have label : IsPlain (severityLabel s) := by cases s <;> decide
  refine arePlain_cons.mpr ⟨Line.isPlain_count.mpr label, arePlain_flatMap fun b mem => ?_⟩
  obtain ⟨k, -, rfl⟩ := List.mem_map.mp (List.mem_filter.mp mem).1
  refine arePlain_append.mpr ⟨arePlain_append.mpr ⟨arePlain_paragraph.mpr (isPlain_description k), ?_⟩, by simp⟩
  refine arePlain_flatMap fun c filed => arePlain_listing (isPlain_lineHead _) (List.forall_mem_map.mpr ?_)
  intro replacement held
  obtain ⟨r, kept, same⟩ := List.mem_map.mp (mem_of_grouped filed held)
  obtain ⟨-, rfl⟩ := Prod.mk.inj same
  exact isPlain_repair plain (List.mem_filter.mp kept).1

theorem arePlain_failureLines : ArePlain (failureLines f) := by
  refine arePlain_cons.mpr ⟨Line.isPlain_count.mpr (by decide), ?_⟩
  split
  · exact arePlain_nil
  · refine arePlain_append.mpr ⟨arePlain_append.mpr ⟨arePlain_paragraph.mpr (isPlain_ofList (by decide)), ?_⟩, by simp⟩
    refine arePlain_flatMap fun b filed => ?_
    have entry : ∀ isFirst, ∀ x ∈ b.2, ArePlain (failureEntry (lineHead b.1) isFirst x) := by
      intro isFirst x held
      obtain ⟨before, after, reason⟩ := isPlain_failure plain (mem_of_grouped filed held)
      have listed : IsPlain (x.before ++ "\t(cleanup)=> " ++ x.after) := by simp +decide [before, after]
      have none : IsPlain "" := by decide
      exact arePlain_cons.mpr ⟨Line.isPlain_entry (isPlain_lineHead _) listed isFirst,
        by simp [reason, none]⟩
    obtain ⟨line, failures⟩ := b
    cases failures with
    | nil => exact arePlain_nil
    | cons first rest =>
        exact arePlain_append.mpr ⟨entry true first List.mem_cons_self,
          arePlain_flatMap fun x held => entry false x (List.mem_cons_of_mem _ held)⟩

/-- What is viewed of uses has names and tokens of them. -/
theorem isPlain_viewed {α : Type} {pick : Nat → Use → Option (String × α)} {b : String × List α}
    (mem : b ∈ f.view pick) : ∀ entry ∈ b.2, ∃ line use, pick line use = some (b.1, entry) ∧
      ∀ t ∈ useTexts use, IsPlain t := by
  intro entry held
  obtain ⟨⟨line, use⟩, used, picked⟩ := List.mem_filterMap.mp (mem_of_grouped mem held)
  exact ⟨line, use, picked, isPlain_use plain used⟩

theorem isPlain_name {α : Type} {pick : Nat → Use → Option (String × α)}
    (within : ∀ line use x, pick line use = some x → x.1 ∈ useTexts use) {b : String × List α} (mem : b ∈ f.view pick) :
    IsPlain b.1 := by
  obtain ⟨entry, held⟩ := List.exists_mem_of_ne_nil _ (mem_grouped.mp mem).2
  obtain ⟨line, use, picked, texts⟩ := isPlain_viewed plain mem entry held
  exact texts b.1 (within line use _ picked)

theorem arePlain_usages {written : String → String} (h : ∀ name, IsPlain name → IsPlain (written name))
    {pick : Nat → Use → Option (String × Nat)} (within : ∀ line use x, pick line use = some x → x.1 ∈ useTexts use) :
    ArePlain (usageLines written (f.view pick)) := by
  refine arePlain_flatMap fun b mem => arePlain_listing ?_ (List.forall_mem_map.mpr fun line _ => ?_)
  · simp +decide [h _ (isPlain_name plain within mem)]
  · simp +decide

theorem arePlain_shortStarts {title : String} (titled : IsPlain title)
    {pick : Nat → Use → Option (String × Nat × String)}
    (within : ∀ line use x, pick line use = some x → x.1 ∈ useTexts use ∧ x.2.2 ∈ useTexts use) :
    ArePlain (shortStartLines title (f.view pick)) := by
  rw [shortStartLines]
  split
  · exact arePlain_nil
  · refine arePlain_cons.mpr ⟨by simp +decide [titled], arePlain_flatMap fun b mem => ?_⟩
    have name := isPlain_name plain (fun line use x picked => (within line use x picked).1) mem
    refine arePlain_cons.mpr ⟨by simp +decide [name], List.forall_mem_map.mpr fun hit held => ?_⟩
    obtain ⟨line, use, picked, texts⟩ := isPlain_viewed plain mem hit held
    exact Line.isPlain_hit.mpr (texts _ (within line use _ picked).2)

theorem arePlain_vocabularyLines {label remark : String} {written : String → String} {n : Nat}
    {pick : Nat → Use → Option (String × Nat)} (labeled : IsPlain label) (remarked : IsPlain remark)
    (h : ∀ name, IsPlain name → IsPlain (written name))
    (within : ∀ line use x, pick line use = some x → x.1 ∈ useTexts use) :
    ArePlain (vocabularyLines label remark written n (f.view pick)) := by
  refine arePlain_cons.mpr ⟨Line.isPlain_count.mpr labeled, ?_⟩
  split
  · exact arePlain_nil
  · simp [remarked, arePlain_usages plain h within]

theorem arePlain_remarkLines {remark : String} {pick : Nat → Use → Option (String × Nat)} (remarked : IsPlain remark)
    (within : ∀ line use x, pick line use = some x → x.1 ∈ useTexts use) :
    ArePlain (remarkLines remark (f.view pick)) := by
  have className : ∀ name, IsPlain name → IsPlain (writtenClass name) := fun name h => by
    simp +decide [writtenClass, h]
  rw [remarkLines]
  split
  · exact arePlain_nil
  · simp [remarked, arePlain_usages plain className within]

set_option maxRecDepth 2000 in
theorem arePlain_microformat2Lines : ArePlain (microformat2Lines f) := by
  refine arePlain_cons.mpr ⟨Line.isPlain_count.mpr (by decide), ?_⟩
  split
  · exact arePlain_nil
  · have one : ArePlain (shortStartLines "Single Letter Prefixes" f.oneLetter) :=
      arePlain_shortStarts plain (isPlain_ofList (by decide)) fun line use x picked => by
        cases use <;> cases picked
        simp [useTexts]
    have two : ArePlain (shortStartLines "Double Letter Prefixes" f.twoLetters) :=
      arePlain_shortStarts plain (isPlain_ofList (by decide)) fun line use x picked => by
        cases use <;> cases picked
        simp [useTexts]
    refine arePlain_append.mpr ⟨arePlain_append.mpr ⟨arePlain_append.mpr ⟨?_, ?_⟩, ?_⟩, by simp⟩
    · exact arePlain_remarkLines plain (isPlain_ofList (by decide)) fun line use x picked => by
        cases use <;> cases picked
        simp [useTexts]
    · exact arePlain_remarkLines plain (isPlain_ofList (by decide)) fun line use x picked => by
        cases use <;> cases picked
        simp [useTexts]
    · split
      · exact arePlain_nil
      · exact arePlain_append.mpr ⟨arePlain_append.mpr ⟨arePlain_paragraph.mpr (isPlain_ofList (by decide)), one⟩, two⟩

theorem arePlain_nameLines : ArePlain (nameLines f) := by
  have element : ∀ name, IsPlain name → IsPlain (writtenElement name) := fun name h => by
    simp +decide [writtenElement, h]
  have className : ∀ name, IsPlain name → IsPlain (writtenClass name) := fun name h => by
    simp +decide [writtenClass, h]
  refine arePlain_append.mpr ⟨arePlain_append.mpr ⟨arePlain_cons.mpr ⟨?_, ?_⟩, ?_⟩, arePlain_microformat2Lines plain⟩
  · exact Line.isPlain_plain.mpr (by decide)
  · exact arePlain_vocabularyLines plain (by decide) (isPlain_ofList (by decide)) element fun line use x picked => by
      cases use <;> cases picked
      simp [useTexts]
  · exact arePlain_vocabularyLines plain (by decide) (isPlain_ofList (by decide)) className fun line use x picked => by
      cases use <;> cases picked
      simp [useTexts]

end

theorem isPlain_side (width : Nat) : (side width).IsPlain := by
  have dashes := isPlain_replicate width (c := '-') (by decide)
  simp +decide [side, dashes]

theorem arePlain_sheetLines {a : SheetAudit} (plain : ∀ t ∈ reportTexts (.sheet a), IsPlain t) :
    ArePlain (sheetLines a) := by
  obtain ⟨place, found⟩ := List.forall_mem_cons.mp plain
  have writing : ArePlain (writingLines a.findings) := by
    refine arePlain_append.mpr ⟨arePlain_append.mpr ⟨arePlain_cons.mpr ⟨?_, ?_⟩, ?_⟩, arePlain_failureLines found⟩
    · exact Line.isPlain_plain.mpr (by decide)
    · exact arePlain_repairLines found .notice
    · exact arePlain_repairLines found .warning
  have head : ArePlain [side (a.scanPath.length + 4), .setOff "|  " .heading a.scanPath "  |",
      side (a.scanPath.length + 4), .plain (" - Selectors: " ++ toString a.selectorCount)] := by
    simp +decide [isPlain_side, place]
  exact arePlain_append.mpr ⟨arePlain_append.mpr ⟨arePlain_append.mpr ⟨head, writing⟩, arePlain_nameLines found⟩,
    by simp⟩

/-! The whole report. -/

theorem isPlain_counted {n : Nat} {one many : String} (h : IsPlain one) (h' : IsPlain many) :
    IsPlain (counted n one many) := by
  rw [counted]
  split <;> simp +decide [h, h']

theorem isPlain_title {style : Style} {text : String} (h : IsPlain text) : (title style text).IsPlain := by
  simp +decide [title, h]

theorem arePlain_typeLines {type : String} {reports : List (String × FileReport)} (typed : IsPlain type)
    (plain : ∀ p ∈ reports, IsPlain p.1 ∧ ∀ t ∈ reportTexts p.2, IsPlain t) : ArePlain (typeLines type reports) := by
  refine arePlain_cons.mpr ⟨Line.isPlain_empty, arePlain_cons.mpr ⟨isPlain_title typed, ?_⟩⟩
  split
  · refine arePlain_flatMap fun a mem => arePlain_sheetLines ?_
    obtain ⟨⟨path, report⟩, held, same⟩ := List.mem_filterMap.mp mem
    cases report with
    | sheet audit =>
        obtain rfl : audit = a := Option.some.inj same
        exact (plain _ held).2
    | failed | unsupported => cases same
  · exact List.forall_mem_map.mpr fun p held => by simp +decide [(plain p held).1]

theorem arePlain_failedLines {failures : List (String × String)} (plain : ∀ x ∈ failures, IsPlain x.1 ∧ IsPlain x.2) :
    ArePlain (failedLines failures) := by
  have listed : ArePlain (failures.flatMap fun x => [.plain (" " ++ x.1), .plain ("   " ++ x.2)]) :=
    arePlain_flatMap fun x mem => by simp +decide [plain x mem]
  cases failures with
  | nil => exact arePlain_nil
  | cons first rest =>
      refine arePlain_append.mpr ⟨arePlain_cons.mpr ⟨Line.isPlain_empty, arePlain_cons.mpr ⟨?_, listed⟩⟩, by simp⟩
      exact isPlain_title (by decide)

theorem isPlain_summaryHeading {text : String} (h : IsPlain text) : (summaryHeading text).IsPlain := by
  simp +decide [summaryHeading, padded, h]

theorem isPlain_summaryRow {label : String} (h : IsPlain label) (n : Nat) : (summaryRow label n).IsPlain := by
  simp +decide [summaryRow, padded, h]

theorem arePlain_summaryLines (t : Totals) : ArePlain (summaryLines t) := by
  have headed : IsPlain (centered summaryWidth "All CSS Files Summary") := by
    have name : IsPlain "All CSS Files Summary" := isPlain_ofList (by decide)
    simp [centered, name]
  have border : IsPlain "|" := by decide
  simp only [summaryLines, arePlain_cons, isPlain_side, Line.isPlain_setOff, Line.isPlain_plain, isPlain_append,
    isPlain_blanks, headed, border, arePlain_nil, true_and, and_true]
  refine ⟨isPlain_summaryHeading ?_, isPlain_summaryRow ?_ _, isPlain_summaryRow ?_ _, isPlain_summaryRow ?_ _,
    isPlain_summaryHeading ?_, isPlain_summaryRow ?_ _, isPlain_summaryRow ?_ _, isPlain_summaryRow ?_ _⟩
  all_goals exact isPlain_ofList (by decide)

/-- The texts of a media type and of what is held of it. -/
theorem isPlain_typed {r : RunReport} (plain : ∀ t ∈ runTexts r, IsPlain t) {b : String × List (String × FileReport)}
    (mem : b ∈ r.details) : IsPlain b.1 ∧ ∀ p ∈ b.2, IsPlain p.1 ∧ ∀ t ∈ reportTexts p.2, IsPlain t := by
  have typed : ∀ t ∈ b.1 :: b.2.flatMap (fun p => p.1 :: reportTexts p.2), IsPlain t := fun t held =>
    plain t (List.mem_flatMap.mpr ⟨b, mem, held⟩)
  obtain ⟨type, others⟩ := List.forall_mem_cons.mp typed
  exact ⟨type, fun p held => List.forall_mem_cons.mp fun t shown => others t (List.mem_flatMap.mpr ⟨p, held, shown⟩)⟩

theorem arePlain_lines {r : RunReport} (plain : ∀ t ∈ runTexts r, IsPlain t) (everyType : Bool) :
    ArePlain (lines everyType r) := by
  refine arePlain_append.mpr ⟨arePlain_append.mpr ⟨arePlain_append.mpr ⟨?_, ?_⟩, ?_⟩, arePlain_summaryLines _⟩
  · have directories : IsPlain (counted r.directories "directory" "directories") :=
      isPlain_counted (by decide) (by decide)
    have files : IsPlain (counted r.files "file" "files") := isPlain_counted (by decide) (by decide)
    simp [directories, files]
  · refine arePlain_flatMap fun b mem => ?_
    obtain ⟨type, reports⟩ := isPlain_typed plain (List.mem_filter.mp mem).1
    exact arePlain_typeLines type reports
  · refine arePlain_failedLines fun x mem => ?_
    obtain ⟨b, typed, mem⟩ := List.mem_flatMap.mp mem
    obtain ⟨⟨path, report⟩, held, same⟩ := List.mem_filterMap.mp mem
    obtain ⟨placed, texts⟩ := (isPlain_typed plain typed).2 _ held
    cases report with
    | failed filename message =>
        obtain rfl : (path, message) = x := Option.some.inj same
        exact ⟨placed, texts message (List.mem_singleton_self _)⟩
    | sheet | unsupported => cases same

/-- What is left of a report with colors, without its control sequences, is the report without colors. -/
theorem text_withoutStyles {r : RunReport} (plain : ∀ t ∈ runTexts r, IsPlain t) (everyType : Bool) :
    withoutStyles (text everyType true r).toList = (text everyType false r).toList :=
  withoutStyles_render (arePlain_lines plain everyType)

/-- A run with a style sheet in which a selector could not be mended, and with a file that could not be audited. -/
def styledSample : RunReport :=
  (RunReport.addSheet {} ⟨"/a.css", ⟨5, 5⟩, [], [], .failure 1 ⟨"a$", "a$", "unexpected $"⟩⟩).add
    ⟨"text/css", "/b.css"⟩ (.failed "b.css" "/b.css: could not read file: denied")

theorem text_withoutStyles_sample : (∀ t ∈ runTexts styledSample, IsPlain t) ∧
    (withoutStyles (text true true styledSample).toList = (text true false styledSample).toList ∧
      withoutStyles (text false true styledSample).toList = (text false false styledSample).toList) := by
  have plain : ∀ t ∈ runTexts styledSample, IsPlain t := by decide +kernel
  exact ⟨plain, text_withoutStyles plain true, text_withoutStyles plain false⟩

end StyleAudit.Report
