import MiniC.Proofs.Layout.Readers
import MiniC.Proofs.Renaming

/-!
# Layout does not matter

The tokens of a source without their spans decide what becomes of it (`parse_ignores_layout`):
blanks and comments between them may be put in, changed or taken out. The readers do the same with
two sources of the same tokens (`readItems_tracks`), so their trees have one erasure. The erased
tree is a relabeling of either, and its run differs from theirs in nothing but spans
(`Program.run_erase`).
-/

namespace MiniC

/-! ## Runs without spans -/

def SemanticError.erase (e : SemanticError) : SemanticError := { e with span := .blank }

def Symbol.erase (x : Symbol) : Symbol := { x with span := .blank }

/-- The struct tags have no spans. -/
def Analysis.erase (a : Analysis) : Analysis := ⟨a.symbols.map Symbol.erase, a.structs⟩

theorem Symbol.relabel_blank (x : Symbol) : x.relabel .blank = x.erase := by
  rw [relabel, Ty.relabel_of_names fun _ => rfl]
  rfl

namespace Analysis

theorem relabel_blank (a : Analysis) : a.relabel .blank = a.erase := by
  rw [relabel, List.map_congr_left fun x _ => x.relabel_blank,
    StructTable.relabel_of_names _ fun _ _ => rfl]
  rfl

/-- The summary has the lines of the variables, then those of the functions, and no line has a
span. -/
theorem summary_erase (a : Analysis) : a.erase.summary = a.summary := by
  have hlines (kind : SymbolKind) :
      (a.erase.symbols.filter (·.kind == kind)).map a.erase.line =
        (a.symbols.filter (·.kind == kind)).map a.line := by
    rw [erase, List.filter_map, List.map_map]
    rfl
  rw [summary, summary, globals, globals, functions, functions, hlines, hlines]

end Analysis

/-- The run of a tree without spans is the run of the tree, without spans. -/
theorem Program.run_erase (p : Program) :
    p.erase.run.errors = p.run.errors.map SemanticError.erase ∧
      p.erase.run.result = p.run.result.erase := by
  obtain ⟨findings, a, -, h⟩ := p.run_relabel
  obtain ⟨herrors, hresult⟩ := h .refl
  obtain ⟨herrors', hresult'⟩ := h .blank
  rw [relabel_refl] at herrors hresult
  constructor
  · rw [herrors, herrors', List.map_map]
    rfl
  · rw [hresult, hresult', a.relabel_refl, a.relabel_blank]

/-- Two runs with the same outcome, wherever their errors and symbols stand. -/
structure Run.SameButSpans (r r' : Run) : Prop where
  errors : r.errors.map (fun e => (e.kind, e.name)) = r'.errors.map fun e => (e.kind, e.name)
  symbols : r.result.symbols.map Symbol.erase = r'.result.symbols.map Symbol.erase
  structs : r.result.structs = r'.result.structs
  summary : r.result.summary = r'.result.summary

theorem Program.run_sameButSpans {p p' : Program} (h : p.erase = p'.erase) :
    p.run.SameButSpans p'.run := by
  have herrors : p.run.errors.map SemanticError.erase = p'.run.errors.map SemanticError.erase := by
    rw [← p.run_erase.1, ← p'.run_erase.1, h]
  have hresult : p.run.result.erase = p'.run.result.erase := by
    rw [← p.run_erase.2, ← p'.run_erase.2, h]
  have hpairs := congrArg (List.map fun e => (e.kind, e.name)) herrors
  have hstructs : p.run.result.erase.structs = p'.run.result.erase.structs := by rw [hresult]
  constructor
  · rw [List.map_map, List.map_map] at hpairs
    exact hpairs
  · exact congrArg Analysis.symbols hresult
  · exact hstructs
  · rw [← p.run.result.summary_erase, hresult, Analysis.summary_erase]

/-! ## Sources -/

/-- **Layout does not matter.** Two sources whose tokens are of the same kinds are both refused,
with the same message and at the tokens of the same number; or both are read, as trees that differ
in nothing but spans, and the analysis of the one differs from that of the other in nothing but
spans. -/
theorem parse_ignores_layout {source source' : String}
    (h : (Token.ofSource source).map (·.kind) = (Token.ofSource source').map (·.kind)) :
    (∃ e e', Program.parse source = .error e ∧ Program.parse source' = .error e' ∧
        e.Matches (Token.ofSource source) (Token.ofSource source') e' ∧ e.message = e'.message) ∨
      ∃ p p', Program.parse source = .ok p ∧ Program.parse source' = .ok p' ∧
        p.erase = p'.erase ∧ p.run.SameButSpans p'.run := by
  obtain ⟨w, hw, -⟩ := Token.ofSource_ended source
  have hpaired : (Input.ofTokens (Token.ofSource source)).Paired
      (.ofTokens (Token.ofSource source')) := ⟨h, w, hw⟩
  rcases readItems_tracks hpaired with ⟨e, e', he, he', hmatch⟩ | ⟨items, items', hi, hi', heq⟩
  · left
    refine ⟨e, e', Program.ofTokens_eq_error_iff.2 he, Program.ofTokens_eq_error_iff.2 he',
      hmatch, ?_⟩
    rw [SyntaxError.message, SyntaxError.message, hmatch.1]
  · right
    have herase : (Program.mk items).erase = (Program.mk items').erase := congrArg Program.mk heq
    exact ⟨⟨items⟩, ⟨items'⟩, Program.ofTokens_eq_ok_iff.2 hi, Program.ofTokens_eq_ok_iff.2 hi',
      herase, Program.run_sameButSpans herase⟩

/-- A source with as few blanks as possible. -/
def crowded : String := "struct S x;int f()\x7breturn y;\x7d"

/-- The tokens of `crowded` on lines of their own, with comments. -/
def commented : String :=
  "struct S x; // never defined\n\nint f()\n\x7b\n  return /* not declared */ y;\n\x7d\n"

theorem commented_ignores_layout : ∃ p p', Program.parse crowded = .ok p ∧
    Program.parse commented = .ok p' ∧ p.erase = p'.erase ∧ p.run.SameButSpans p'.run ∧
    p.run.errors =
      [⟨.undeclaredUse, "y", ⟨26, 27, 1, 27⟩⟩, ⟨.incompleteType, "x", ⟨9, 10, 1, 10⟩⟩] := by
  have hkinds :
      (Token.ofSource crowded).map (·.kind) = (Token.ofSource commented).map (·.kind) := by
    decide +kernel
  have hrun : (Program.parse crowded).map (·.run.errors) =
      .ok [⟨.undeclaredUse, "y", ⟨26, 27, 1, 27⟩⟩, ⟨.incompleteType, "x", ⟨9, 10, 1, 10⟩⟩] := by
    decide +kernel
  rcases parse_ignores_layout hkinds with ⟨e, -, he, -⟩ | ⟨p, p', hp, hp', herase, hsame⟩
  · rw [he] at hrun
    cases hrun
  · rw [hp] at hrun
    exact ⟨p, p', hp, hp', herase, hsame, Except.ok.inj hrun⟩

end MiniC
