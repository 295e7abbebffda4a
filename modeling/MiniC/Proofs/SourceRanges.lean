import MiniC.Proofs.Acceptance
import MiniC.Proofs.Outline.Reading

/-!
# Trees in their source

Every span of a tree that is read from a source is a range of that source. Tokens lie in the source
in order, and the readers join the spans of tokens only. The last token of a source can end beyond
it, if it is a literal that is cut off; but then the source is no program, because programs end with
a semicolon or a closing brace.
-/

namespace MiniC

/-- All tokens of a program lie in its source. -/
theorem Token.inText_of_parse {source : String} {p : Program} (h : Program.parse source = .ok p)
    {t : Token} (ht : t ∈ Token.ofSource source) (hkind : t.kind ≠ .eof) :
    t.span.InText source.toList := by
  obtain ⟨ts, e, htokens, htiling, -⟩ := Cursor.tiling (.ofSource source)
  have hsource : Token.ofSource source = ts ++ [e] := htokens
  have hts : t ∈ ts := by
    rw [hsource, List.mem_append, List.mem_singleton] at ht
    rcases ht with ht | rfl
    · exact ht
    · exact absurd htiling.kinds.1 hkind
  refine ⟨htiling.widths.2 t hts, ?_, Cursor.located_of_mem (.ofSource source) ht⟩
  by_contra hover
  -- `t` is the last token and a literal, but the phrase ends with a semicolon or a brace
  obtain ⟨pre, post, rfl⟩ := List.append_of_mem hts
  obtain ⟨rfl, hquoted, -⟩ := htiling.overrun pre t post rfl (Nat.lt_of_not_le hover)
  have hw : (Token.ofSource source).map (·.kind) = (pre ++ [t]).map (·.kind) ++ [.eof] := by
    rw [hsource, List.map_append, List.map_singleton, htiling.kinds.1]
  have hphrase : Phrase true .program ((pre ++ [t]).map (·.kind)) p.linear :=
    Program.phrase_of_ofTokens (.ofSource source nofun) hw h
  have hlast := hphrase.closed (.inr rfl) t.kind (by simp)
  rcases hlast with hlast | hlast <;> rw [hlast] at hquoted <;> cases hquoted

theorem Input.ahead_ofSource {source : String} {p : Program} (h : Program.parse source = .ok p) :
    (Input.ofTokens (Token.ofSource source)).Ahead source := by
  obtain ⟨ts, e, htokens, htiling, -⟩ := Cursor.tiling (.ofSource source)
  have hrest : (Input.ofTokens (Token.ofSource source)).rest = ts ++ [e] := htokens
  exact {
    ended := ⟨ts, e, hrest, htiling.kinds.1⟩
    mem := fun _ ht => ht
    range := fun _ ht hkind => Token.inText_of_parse h ht hkind
    ordered := hrest ▸ htiling.ordered
    after := fun _ _ => Nat.zero_le _ }

/-- The items of a program lie in its source one after the other. -/
theorem Program.inRow_of_parse {source : String} {p : Program} (h : Program.parse source = .ok p) :
    ∃ j, Outline.InRow source 0 j p.outlines :=
  Input.readItems_lays _ (Input.ahead_ofSource h) (ofTokens_eq_ok_iff.1 h)

/-- **Trees lie in their source.** The items of a program that is read from a source are apart and
in order. Every span in it is a range of the source that is not empty and has the line and column of
its start, it contains the spans of all parts, and these are apart and in order. -/
theorem parse_places_outlines {source : String} {p : Program}
    (h : Program.parse source = .ok p) :
    p.outlines.Pairwise (·.span.stop ≤ ·.span.start) ∧
      ∀ o ∈ Outline.nodesOf p.outlines, o.Placed source.toList := by
  obtain ⟨j, hrow⟩ := Program.inRow_of_parse h
  refine ⟨hrow.pairwise, fun o ho => ?_⟩
  obtain ⟨i, k, hlies⟩ := Outline.InRow.of_mem_nodes _ hrow o ho
  exact hlies.placed

/-- An operand in parentheses, of which the tree keeps nothing, and a function over three lines. -/
def groupedOperand : String := "int f(int a)\n\x7b return (a) +\n'b'; \x7d /* c */ char *s;"

theorem groupedOperand_places : ∃ p, Program.parse groupedOperand = .ok p ∧
    p.outlines.map (·.span) = [⟨0, 34, 1, 1⟩, ⟨43, 51, 3, 16⟩] ∧
    p.outlines.Pairwise (·.span.stop ≤ ·.span.start) ∧
      ∀ o ∈ Outline.nodesOf p.outlines, o.Placed groupedOperand.toList := by
  have hspans : (Program.parse groupedOperand).map (·.outlines.map (·.span)) =
      .ok [⟨0, 34, 1, 1⟩, ⟨43, 51, 3, 16⟩] := by decide +kernel
  obtain ⟨p, hp, hspans⟩ := Program.exists_parse_of_map hspans
  exact ⟨p, hp, hspans, parse_places_outlines hp⟩

end MiniC
