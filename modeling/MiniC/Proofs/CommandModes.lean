import MiniC.Command.Answer
import MiniC.Proofs.Pointing
import MiniC.Proofs.ReportText

/-!
# Text and JSON answers about one file

The summary of a file, the check of it and its JSON report are three answers about one run. They
have the same status, and what the two texts print is found in the report that the JSON text reads
back as (`textOf_of_errors`, `summary_eq`). That report can be read back because it points into the
source (`Report.fits_ofRun`), so that no line or column exceeds the length of it.
-/

namespace MiniC

/-! ## Reports that point into a source -/

/-- A line is counted from one by the line feeds before it, and a column by the characters. -/
theorem Span.InText.fits {source : String} {s : Span} (h : s.InText source.toList)
    (hsize : source.length < 2 ^ 64) : (Position.ofSpan s).Fits := by
  have hline : s.line = 1 + (source.toList.take s.start).count '\n' := h.located.1
  have hcolumn : s.column = 1 + (s.start - lineStart source.toList s.start) := h.located.2
  have hfeeds := (source.toList.take s.start).count_le_length (a := '\n')
  have hstart := h.start_lt
  have hstop := h.stop_le
  rw [List.length_take] at hfeeds
  rw [String.length_toList] at hfeeds hstop
  constructor
  · change s.line < 2 ^ 64
    omega
  · change s.column < 2 ^ 64
    omega

def NamedType.line (e : NamedType) : String := e.name ++ ": " ++ e.type

namespace Report

theorem fits_ofRun {source : String} {p : Program} (hparse : Program.parse source = .ok p)
    (hsize : source.length < 2 ^ 64) (file : String) : (ofRun file p.run).Fits := by
  have hident : ∀ id ∈ p.idents, (Position.ofSpan id.span).Fits := by
    intro id hid
    exact ((Program.isToken_of_parse hparse id hid).namedAt hparse).range.fits hsize
  have hsymbol : ∀ x ∈ p.run.result.symbols, (Position.ofSpan x.span).Fits := by
    intro x hx
    obtain ⟨id, hid, -, hspan⟩ := p.symbols_anchored x hx
    rw [hspan]
    exact hident id hid
  constructor
  · intro d hd
    obtain ⟨e, he, rfl⟩ := List.mem_map.1 hd
    obtain ⟨kind, id, hid, rfl⟩ := p.errors_anchored e he
    exact hident id hid
  · intro e he
    obtain ⟨x, hx, rfl⟩ := List.mem_map.1 he
    exact hsymbol x (List.mem_of_mem_filter hx)
  · intro e he
    obtain ⟨x, hx, rfl⟩ := List.mem_map.1 he
    exact hsymbol x (List.mem_of_mem_filter hx)

/-- The messages of a report, in order. -/
def messages (r : Report) : List String := r.diagnostics.map (·.message)

/-- A summary of what a report lists, line by line. -/
def summaryLines (r : Report) : List String :=
  ["Variables:"] ++ r.globals.map NamedType.line ++ ["", "Functions:"] ++
    r.functions.map NamedType.line

end Report

/-! ## Answers -/

/-- The line about a source that is no program. -/
def SyntaxError.line (e : SyntaxError) : String :=
  "Parse error at line " ++ e.span.line.repr ++ ":" ++ e.span.column.repr ++ ": " ++ e.message

namespace Answer

theorem unlines_append (ls ms : List String) : unlines (ls ++ ms) = unlines ls ++ unlines ms := by
  rw [unlines, List.map_append, String.join_append]
  rfl

theorem unlines_singleton (l : String) : unlines [l] = l ++ "\n" := by
  simp [unlines]

/-- The lines of symbols in a summary are those of their entries in a report. -/
theorem join_line (a : Analysis) (xs : List Symbol) :
    String.join (xs.map a.line) = unlines ((xs.map (.ofSymbol a)).map NamedType.line) := by
  rw [unlines, List.map_map, List.map_map]
  rfl

theorem summary_eq (file : String) (r : Run) :
    r.result.summary = unlines (Report.ofRun file r).summaryLines := by
  have hvariables : unlines ["Variables:"] = "Variables:\n" := by decide
  have hfunctions : unlines ["", "Functions:"] = "\nFunctions:\n" := by decide
  rw [Analysis.summary, join_line, join_line, Report.summaryLines, unlines_append, unlines_append,
    unlines_append, hvariables, hfunctions]
  rfl

theorem messages_ofRun (file : String) (r : Run) :
    (Report.ofRun file r).messages = r.errors.map (·.message) := by
  rw [Report.messages, Report.ofRun, List.map_map]
  rfl

/-- An answer about a source text, with the run over it. -/
theorem ofSource_of_parse {source : String} {p : Program} (h : Program.parse source = .ok p)
    (mode : Mode) (json : Bool) (file : String) :
    ofSource mode json file source =
      ⟨if p.run.errors.isEmpty then 0 else 1,
        if json then unlines [(Report.ofRun file p.run).text] else textOf mode p.run, ""⟩ := by
  rw [ofSource, h]

theorem ofSource_of_error {source : String} {e : SyntaxError}
    (h : Program.parse source = .error e) (mode : Mode) (json : Bool) (file : String) :
    ofSource mode json file source = ⟨1, "", unlines [e.line]⟩ := by
  rw [ofSource, h]
  rfl

theorem status_ofSource (mode : Mode) (json : Bool) (file source : String) :
    (ofSource mode json file source).status = 0 ↔
      ∃ p, Program.parse source = .ok p ∧ p.run.errors = [] := by
  cases h : Program.parse source with
  | error e => simp [ofSource_of_error h]
  | ok p => simp [ofSource_of_parse h]

theorem status_eq (mode mode' : Mode) (json json' : Bool) (file source : String) :
    (ofSource mode json file source).status = (ofSource mode' json' file source).status := by
  cases h : Program.parse source with
  | error e => rw [ofSource_of_error h, ofSource_of_error h]
  | ok p => rw [ofSource_of_parse h, ofSource_of_parse h]

/-- Where there are errors, every mode prints the messages of the report. -/
theorem textOf_of_errors {r : Run} (h : r.errors ≠ []) (mode : Mode) (file : String) :
    textOf mode r = unlines (Report.ofRun file r).messages := by
  unfold textOf
  rw [if_neg (by simpa using h), messages_ofRun]

theorem read?_json {source : String} {p : Program} (h : Program.parse source = .ok p)
    (hsize : source.length < 2 ^ 64) (mode : Mode) (file : String) :
    Report.read? (ofSource mode true file source).out = some (Report.ofRun file p.run) := by
  rw [ofSource_of_parse h, if_pos rfl, unlines_singleton]
  exact Report.read?_text (Report.fits_ofRun h hsize file) (Json.blanks_singleton rfl)

end Answer

/-- The three answers about a source tell the same: they have one status, which says whether the
source is a program without errors. If it is no program all of them have the same error line only.
Otherwise the JSON text reads back as a report, and the other two texts consist of what is in it. -/
structure SameStory (source : String) (summary check json : Answer) : Prop where
  status : check.status = summary.status ∧ json.status = summary.status
  success : summary.status = 0 ↔ ∃ p, Program.parse source = .ok p ∧ p.run.errors = []
  unparsed : ∀ e, Program.parse source = .error e → ∀ answer ∈ [summary, check, json],
    answer.out = "" ∧ answer.err = Answer.unlines [e.line]
  parsed : ∀ p, Program.parse source = .ok p → ∃ report, Report.read? json.out = some report ∧
    report.success = (json.status == 0) ∧
      (p.run.errors ≠ [] → summary.out = Answer.unlines report.messages ∧
        check.out = Answer.unlines report.messages) ∧
      (p.run.errors = [] → summary.out = Answer.unlines report.summaryLines)

theorem SameStory.ofSource {source : String} (hsize : source.length < 2 ^ 64) (file : String) :
    SameStory source (.ofSource .summary false file source) (.ofSource .check false file source)
      (.ofSource .summary true file source) where
  status := ⟨Answer.status_eq .., Answer.status_eq ..⟩
  success := Answer.status_ofSource ..
  unparsed := by
    intro e he answer hanswer
    simp only [Answer.ofSource_of_error he, List.mem_cons, List.not_mem_nil, or_false, or_self]
      at hanswer
    rw [hanswer]
    exact ⟨rfl, rfl⟩
  parsed := by
    intro p hp
    refine ⟨Report.ofRun file p.run, Answer.read?_json hp hsize .summary file, ?_, ?_, ?_⟩
    · rw [Answer.ofSource_of_parse hp]
      cases herrors : p.run.errors.isEmpty <;> simp [Report.ofRun, herrors]
    · intro herrors
      rw [Answer.ofSource_of_parse hp, Answer.ofSource_of_parse hp]
      exact ⟨Answer.textOf_of_errors herrors .summary file,
        Answer.textOf_of_errors herrors .check file⟩
    · intro herrors
      rw [Answer.ofSource_of_parse hp, ← Answer.summary_eq]
      simp [Answer.textOf, herrors]

theorem Answer.ofInvocation_of_read {read : String → Except ReadFault ByteArray}
    {file source : String} (hread : read file >>= decode = .ok source) (mode : Mode) (json : Bool) :
    ofInvocation read (.analyze mode json file) = ofSource mode json file source := by
  simp only [ofInvocation, hread]

/-- **Text and JSON answers agree.** About every file that can be read, the summary, the check and
the JSON report tell the same. Lines and columns are machine words, which a source does not
exceed. -/
theorem modes_tell_same {read : String → Except ReadFault ByteArray} {file source : String}
    (hread : read file >>= Answer.decode = .ok source) (hsize : source.length < 2 ^ 64) :
    SameStory source (.ofInvocation read (.analyze .summary false file))
      (.ofInvocation read (.analyze .check false file))
      (.ofInvocation read (.analyze .summary true file)) := by
  rw [Answer.ofInvocation_of_read hread, Answer.ofInvocation_of_read hread,
    Answer.ofInvocation_of_read hread]
  exact .ofSource hsize file

theorem Answer.decode_toUTF8 (s : String) : decode s.toUTF8 = .ok s := by
  simp only [decode, String.fromUTF8?, String.toUTF8_eq_toByteArray, dif_pos s.isValidUTF8]
  rfl

/-- Two errors, one of them found at the end only. -/
def twoFaults : String := "struct S x;\nint f(int a) \x7b return b; \x7d\n"

theorem twoFaults_modes_tell_same :
    twoFaults.length < 2 ^ 64 ∧
      (Program.parse twoFaults).map (·.run.errors.map (·.kind)) =
        .ok [.undeclaredUse, .incompleteType] ∧
      let read := fun _ => Except.ok twoFaults.toUTF8
      SameStory twoFaults (.ofInvocation read (.analyze .summary false "two.spl"))
        (.ofInvocation read (.analyze .check false "two.spl"))
        (.ofInvocation read (.analyze .summary true "two.spl")) := by
  have hsize : twoFaults.length < 2 ^ 64 := by decide
  exact ⟨hsize, by decide +kernel, modes_tell_same (Answer.decode_toUTF8 twoFaults) hsize⟩

end MiniC
