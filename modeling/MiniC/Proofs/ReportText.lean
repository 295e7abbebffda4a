import Mathlib.Algebra.Group.Nat.Defs
import MiniC.Proofs.JsonText
import MiniC.Report.Format

/-!
# Reports read back from their text

A report reads back from its JSON text as itself, if its lines and columns are below 2^64. Each
record is read from the object that it is written as, because the keys of that object differ
(`fields?_object`), and a list is read where each of its entries is (`list?_map`).
-/

namespace MiniC

namespace Json

theorem filter_key {members : List (String × Json)} (h : (members.map Prod.fst).Nodup)
    {m : String × Json} (hm : m ∈ members) : members.filter (·.1 == m.1) = [m] := by
  induction members with
  | nil => cases hm
  | cons first members ih =>
    obtain ⟨hfirst, hrest⟩ := List.nodup_cons.1 h
    rcases List.mem_cons.1 hm with rfl | hm
    · rw [List.filter_cons_of_pos (by simp), List.filter_eq_nil_iff.2]
      intro x hx heq
      exact hfirst (beq_iff_eq.1 heq ▸ List.mem_map_of_mem hx)
    · rw [List.filter_cons_of_neg, ih hrest hm]
      intro heq
      exact hfirst (beq_iff_eq.1 heq ▸ List.mem_map_of_mem hm)

/-- The fields of a record are read from the object that holds each of them once. -/
theorem fields?_object {members : List (String × Json)} (h : (members.map Prod.fst).Nodup) :
    (Json.object members).fields? (members.map Prod.fst) = some (members.map Prod.snd) := by
  apply mapM_map
  intro m hm
  rw [filter_key h hm]

theorem list?_map {read : Json → Option α} {write : α → Json} {xs : List α}
    (h : ∀ x ∈ xs, read (write x) = some x) :
    (Json.list (xs.map write)).list? read = some xs := by
  rw [list?, mapM_map (e := id) h, List.map_id]

end Json

/-- The position can be read back. -/
def Position.Fits (l : Position) : Prop := l.line < 2 ^ 64 ∧ l.column < 2 ^ 64

/-- All positions in the report can be read back. -/
structure Report.Fits (r : Report) : Prop where
  diagnostics : ∀ d ∈ r.diagnostics, d.location.Fits
  globals : ∀ e ∈ r.globals, e.location.Fits
  functions : ∀ e ∈ r.functions, e.location.Fits

theorem SemanticError.Kind.ofJson?_toJson (k : Kind) : ofJson? k.toJson = some k := by
  cases k <;> decide

theorem Json.word?_nat {n : Nat} (h : n < 2 ^ 64) : (Json.nat n).word? = some n := if_pos h

theorem Position.ofJson?_toJson {l : Position} (h : l.Fits) : ofJson? l.toJson = some l := by
  have hfields : l.toJson.fields? ["line", "column"] = some [.nat l.line, .nat l.column] :=
    Json.fields?_object (by simp)
  simp [ofJson?, hfields, Json.word?_nat h.1, Json.word?_nat h.2]

theorem Diagnostic.ofJson?_toJson {d : Diagnostic} (h : d.location.Fits) :
    ofJson? d.toJson = some d := by
  have hfields : d.toJson.fields? ["code", "kind", "message", "name", "location"] =
      some [.string d.code, d.kind.toJson, .string d.message, .string d.name, d.location.toJson] :=
    Json.fields?_object (by simp)
  simp [ofJson?, hfields, Json.string?, SemanticError.Kind.ofJson?_toJson,
    Position.ofJson?_toJson h]

theorem NamedType.ofJson?_toJson {e : NamedType} (h : e.location.Fits) :
    ofJson? e.toJson = some e := by
  have hfields : e.toJson.fields? ["name", "type", "location"] =
      some [.string e.name, .string e.type, e.location.toJson] :=
    Json.fields?_object (by simp)
  simp [ofJson?, hfields, Json.string?, Position.ofJson?_toJson h]

theorem TagLayout.ofJson?_toJson (e : TagLayout) : ofJson? e.toJson = some e := by
  have hfields : e.toJson.fields? ["tag", "complete", "layout"] =
      some [.string e.tag, .bool e.complete, .string e.layout] :=
    Json.fields?_object (by simp)
  simp [ofJson?, hfields, Json.string?, Json.bool?]

namespace Report

theorem ofJson?_toJson {r : Report} (h : r.Fits) : ofJson? r.toJson = some r := by
  have hfields : r.toJson.fields? ["success", "source_file", "diagnostics", "variables",
      "functions", "structs"] =
      some [.bool r.success, .string r.sourceFile, .list (r.diagnostics.map Diagnostic.toJson),
        .list (r.globals.map NamedType.toJson), .list (r.functions.map NamedType.toJson),
        .list (r.structs.map TagLayout.toJson)] :=
    Json.fields?_object (by simp)
  have hdiagnostics := Json.list?_map fun d hd => Diagnostic.ofJson?_toJson (h.diagnostics d hd)
  have hglobals := Json.list?_map fun e he => NamedType.ofJson?_toJson (h.globals e he)
  have hfunctions := Json.list?_map fun e he => NamedType.ofJson?_toJson (h.functions e he)
  have hstructs := Json.list?_map fun e (_ : e ∈ r.structs) => TagLayout.ofJson?_toJson e
  simp [ofJson?, hfields, Json.bool?, Json.string?, hdiagnostics, hglobals, hfunctions, hstructs]

/-- A report reads back from its text, also with blanks after it. -/
theorem read?_text {r : Report} (h : r.Fits) {b : String} (hb : Json.Blanks b.toList) :
    read? (r.text ++ b) = some r := by
  rw [read?, text, Json.parse?_pretty _ hb]
  exact ofJson?_toJson h

end Report

/-- The text of a report reads back as the report, so it is the text of no other. -/
theorem report_reads_back (r : Report) (h : r.Fits) :
    Report.read? r.text = some r ∧
      ∀ other : Report, other.Fits → other.text = r.text → other = r := by
  have hread : ∀ s : Report, s.Fits → Report.read? s.text = some s := by
    intro s hs
    have hs := Report.read?_text hs (b := "") Json.blanks_nil
    rwa [String.append_empty] at hs
  refine ⟨hread r h, ?_⟩
  intro other hother htext
  have hsame := hread other hother
  rw [htext, hread r h] at hsame
  exact (Option.some.inj hsame).symm

/-- A report whose texts need every kind of escape, with an empty list and the last column. -/
def thornyReport : Report where
  success := false
  sourceFile := "a \"b\"\\c/\x00\x08\x0c\x1f\x7f\u00e9\u2028😀.c"
  diagnostics :=
    [⟨"", .redefinition, "two\nlines\r\n", "\t", ⟨0, 18446744073709551615⟩⟩,
      ⟨"E002", .incompleteType, "]\x7d,", "null", ⟨18446744073709551615, 1⟩⟩]
  globals := [⟨"x", "struct \x7b \x7d", ⟨1, 1⟩⟩]
  functions := []
  structs := [⟨"", true, "\\u0041"⟩, ⟨"t", false, "\""⟩]

theorem thornyReport_reads_back :
    thornyReport.Fits ∧ Report.read? thornyReport.text = some thornyReport ∧
      ∀ other : Report, other.Fits → other.text = thornyReport.text → other = thornyReport := by
  have hfits : thornyReport.Fits := by
    constructor <;> simp [thornyReport, Position.Fits]
  exact ⟨hfits, report_reads_back thornyReport hfits⟩

end MiniC
