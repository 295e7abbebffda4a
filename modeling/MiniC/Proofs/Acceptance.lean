import MiniC.Proofs.Grammar.Complete
import MiniC.Proofs.Grammar.Program
import MiniC.Proofs.Grammar.Tokens

/-!
# Which sources are programs

A source is read exactly if its tokens are a program of the lax grammar. The strict grammar has the
same programs but for those with a comma right before a closing parenthesis: its phrases have no
such comma (`Phrase.tidy`), and without one reading never needs the lax rule. What is read keeps the
tokens of the source, and what is not read is refused at the first token that no program has after
the tokens before it.
-/

namespace MiniC

/-! ## The tokens of sources -/

theorem Lexed.ofSource {lax : Bool} (source : String)
    (h : lax = false →
      ¬ [.mark .comma, .mark .rightParen] <:+: (Token.ofSource source).map (·.kind)) :
    Lexed lax ((Token.ofSource source).map (·.kind)) where
  ended := Cursor.tokens_ended _
  proper := List.forall_mem_map.2 (Cursor.tokens_proper _)
  strict := h

/-! ## Programs -/

namespace Program

variable {lax : Bool} {tokens : List Token} {w : List Kind} {p : Program} {e : SyntaxError}

/-- A source is read if something is known of its tree. -/
theorem exists_parse_of_map {source : String} {f : Program → α} {a : α}
    (h : (parse source).map f = .ok a) : ∃ p, parse source = .ok p ∧ f p = a := by
  cases hp : parse source with
  | error e =>
    rw [hp] at h
    cases h
  | ok p =>
    rw [hp] at h
    exact ⟨p, rfl, Except.ok.inj h⟩

/-- Programs of the grammar are read. -/
theorem ofTokens_of_derives (h : Derives lax .program w)
    (hw : tokens.map (·.kind) = w ++ [.eof]) : ∃ p, ofTokens tokens = .ok p := by
  obtain ⟨v, h⟩ := h
  obtain ⟨items, hitems⟩ := h.accepts (.ofTokens tokens) hw
  exact ⟨⟨items⟩, ofTokens_eq_ok_iff.2 hitems⟩

/-- What is read is a program of the grammar, and the tree has its tokens. -/
theorem phrase_of_ofTokens (htokens : Lexed lax (tokens.map (·.kind)))
    (hw : tokens.map (·.kind) = w ++ [.eof]) (h : ofTokens tokens = .ok p) :
    Phrase lax .program w p.linear := by
  have hread := ofTokens_eq_ok_iff.1 h
  cases program_settles (s := .ofTokens tokens) htokens with
  | reads items w' hitems hw' hphrase =>
    obtain rfl : p.items = items := Except.ok.inj (hread.symm.trans hitems)
    obtain ⟨rfl, -⟩ := List.append_inj' (hw.symm.trans hw') rfl
    exact hphrase
  | fails u t rest e hrest _ _ hrun =>
    have hfails : (Input.ofTokens tokens).readItems = .error e := by
      rw [← hrun rest, ← hrest]
    cases hread.symm.trans hfails

/-- What is refused is refused at a token, whatever comes after it, and the tokens before it are
the beginning of a program. -/
theorem refusal_of_ofTokens (htokens : Lexed lax (tokens.map (·.kind)))
    (h : ofTokens tokens = .error e) :
    ∃ u t rest, tokens = u ++ t :: rest ∧ e.span = t.span ∧
      (∃ v, Derives lax .program (u.map (·.kind) ++ v)) ∧
      ∀ rest', ofTokens (u ++ t :: rest') = .error e := by
  have hread := ofTokens_eq_error_iff.1 h
  cases program_settles (s := .ofTokens tokens) htokens with
  | reads items w hitems => cases hread.symm.trans hitems
  | fails u t rest e' hrest hv hspan hrun =>
    obtain rfl : e = e' := by
      have hfails : (Input.ofTokens tokens).readItems = .error e' := by
        rw [← hrun rest, ← hrest]
      exact Except.error.inj (hread.symm.trans hfails)
    exact ⟨u, t, rest, hrest, hspan, hv, fun rest' => ofTokens_eq_error_iff.2 (hrun rest')⟩

/-- The beginning of a program can be completed with tokens that a source can have. -/
theorem ofTokens_completed {u : List Token} {v : List Kind}
    (h : Derives lax .program (u.map (·.kind) ++ v)) :
    ∃ more p, Lexed true ((u ++ more).map (·.kind)) ∧ ofTokens (u ++ more) = .ok p := by
  let more : List Token := (v ++ [Kind.eof]).map (⟨·, .blank⟩)
  have hkinds : (u ++ more).map (·.kind) = u.map (·.kind) ++ v ++ [.eof] := by
    simp [more, Function.comp_def]
  obtain ⟨p, hp⟩ := ofTokens_of_derives h hkinds
  obtain ⟨v', h⟩ := h
  refine ⟨more, p, hkinds ▸ ⟨⟨_, rfl, fun heof => (h.proper _ heof).2 rfl⟩, ?_, nofun⟩, hp⟩
  intro c hc
  rcases List.mem_append.1 hc with hc | hc
  · exact (h.proper c hc).1
  · rw [List.mem_singleton.1 hc]
    trivial

end Program

/-- **Accepted sources.** A source is read exactly if its tokens are a program of the lax grammar.
They are one of the strict grammar exactly if, besides, no comma among them stands right before a
closing parenthesis. -/
theorem parse_accepts_grammar (source : String) :
    ∃ w, (Token.ofSource source).map (·.kind) = w ++ [.eof] ∧
      ((∃ p, Program.parse source = .ok p) ↔ Derives true .program w) ∧
      (Derives false .program w ↔ (∃ p, Program.parse source = .ok p) ∧
        ¬ [.mark .comma, .mark .rightParen] <:+: w) := by
  obtain ⟨w, hw, -⟩ := Token.ofSource_ended source
  refine ⟨w, hw, ⟨?_, fun h => Program.ofTokens_of_derives h hw⟩, ?_, ?_⟩
  · rintro ⟨p, hp⟩
    exact ⟨_, Program.phrase_of_ofTokens (.ofSource source nofun) hw hp⟩
  · rintro ⟨v, h⟩
    exact ⟨Program.ofTokens_of_derives ⟨v, h⟩ hw, h.tidy.no_closingComma⟩
  · rintro ⟨⟨p, hp⟩, hstrict⟩
    refine ⟨_, Program.phrase_of_ofTokens (.ofSource source fun _ => ?_) hw hp⟩
    -- the end mark is no closing parenthesis
    rw [hw, List.infix_concat_iff, List.suffix_concat_iff]
    rintro ((hnil | ⟨k, hk, -⟩) | hin)
    · cases hnil
    · simpa using congrArg List.getLast? hk
    · exact hstrict hin

example : (Program.parse "int f(int a,);").isOk = true := by decide +kernel

/-- **Kept tokens.** The tokens of a program in order are those of the source but for parentheses
around expressions and commas that close a list; so what is left out is among the source's
parentheses and commas. -/
theorem parse_keeps_tokens {source : String} {p : Program} (h : Program.parse source = .ok p) :
    ∃ w, (Token.ofSource source).map (·.kind) = w ++ [.eof] ∧ Phrase true .program w p.linear ∧
      p.linear.Sublist w ∧ p.linear.filter (!·.isFraming) = w.filter (!·.isFraming) := by
  obtain ⟨w, hw, -⟩ := Token.ofSource_ended source
  have hphrase : Phrase true .program w p.linear :=
    Program.phrase_of_ofTokens (.ofSource source nofun) hw h
  exact ⟨w, hw, hphrase, hphrase.sublist, hphrase.filter_eq⟩

/-- Commas close both kinds of lists, and an operand has parentheses. -/
def closedLists : String := "int f(int a,) { return g((a) + 1,); }"

theorem closedLists_keeps_tokens : ∃ p, Program.parse closedLists = .ok p ∧
    p.linear ++ [.eof] =
      (Token.ofSource "int f(int a) { return g(a + 1); }").map (·.kind) ∧
    ∃ w, (Token.ofSource closedLists).map (·.kind) = w ++ [.eof] ∧
      Phrase true .program w p.linear ∧ p.linear.Sublist w ∧
      p.linear.filter (!·.isFraming) = w.filter (!·.isFraming) := by
  have hlinear : (Program.parse closedLists).map (·.linear ++ [.eof]) =
      .ok ((Token.ofSource "int f(int a) { return g(a + 1); }").map (·.kind)) := by decide +kernel
  obtain ⟨p, hp, hlinear⟩ := Program.exists_parse_of_map hlinear
  exact ⟨p, hp, hlinear, parse_keeps_tokens hp⟩

/-- **Refused sources.** The error stands at a token of the source. All tokens that agree with the
source up to and with that one are refused with the same error, and the tokens before it are the
beginning of a program. -/
theorem parse_refuses_first {source : String} {e : SyntaxError}
    (h : Program.parse source = .error e) :
    ∃ k t, (Token.ofSource source)[k]? = some t ∧ e.span = t.span ∧
      (∀ tokens : List Token, tokens.take (k + 1) = (Token.ofSource source).take (k + 1) →
        Program.ofTokens tokens = .error e) ∧
      ∃ more p, Lexed true (((Token.ofSource source).take k ++ more).map (·.kind)) ∧
        Program.ofTokens ((Token.ofSource source).take k ++ more) = .ok p := by
  have htokens : Lexed true ((Token.ofSource source).map (·.kind)) := .ofSource source nofun
  obtain ⟨u, t, rest, hsource, hspan, ⟨v, hv⟩, hsame⟩ := Program.refusal_of_ofTokens htokens h
  rw [hsource]
  refine ⟨u.length, t, by simp, hspan, fun tokens htokens => ?_, ?_⟩
  · rw [← List.take_append_drop (u.length + 1) tokens, htokens, List.take_length_add_append,
      List.append_assoc]
    exact hsame _
  · rw [List.take_left]
    exact Program.ofTokens_completed hv

/-- The condition of a loop inside a function is not closed. -/
def openCondition : String := "int a[2]; int f(int n) { while (n < 2 { n = n + 1; } }"

theorem openCondition_refuses_first : ∃ e, Program.parse openCondition = .error e ∧
    e.cause = .unexpected (.mark .rightParen) (.mark .leftBrace) ∧
    ∃ k t, (Token.ofSource openCondition)[k]? = some t ∧ e.span = t.span ∧
      (∀ tokens : List Token, tokens.take (k + 1) = (Token.ofSource openCondition).take (k + 1) →
        Program.ofTokens tokens = .error e) ∧
      ∃ more p, Lexed true (((Token.ofSource openCondition).take k ++ more).map (·.kind)) ∧
        Program.ofTokens ((Token.ofSource openCondition).take k ++ more) = .ok p := by
  have herror : (Program.parse openCondition).map (·.linear) =
      .error ⟨.unexpected (.mark .rightParen) (.mark .leftBrace), ⟨38, 39, 1, 39⟩⟩ := by
    decide +kernel
  cases h : Program.parse openCondition with
  | error e =>
    rw [h] at herror
    exact ⟨e, rfl, congrArg SyntaxError.cause (Except.error.inj herror), parse_refuses_first h⟩
  | ok p =>
    rw [h] at herror
    cases herror

end MiniC
