import MiniC.Proofs.Tiling

/-!
# How far a lexeme reaches

Which token stands at the front of a text is decided by the characters that it covers
(`Lexeme.read_take`), and it covers as many as it can: a word ends before a character that is no
part of a word, and a mark with the next character is neither a mark nor the start of a comment.
What comes after a token does not hang on what came before it, so reading can start afresh there
(`Cursor.tokens_within`). A place in the text that is left is then counted from the place where that
text starts (`Place.within`).

`tokens_maximal` says all of this of every token of a source, and `tokens_line_column` says that the
line and the column of a token are those of its start.
-/

namespace MiniC

/-! ## Marks -/

/-- The characters of a mark. -/
def Mark.text : Mark → List Char
  | .plus => ['+']
  | .minus => ['-']
  | .star => ['*']
  | .slash => ['/']
  | .percent => ['%']
  | .assign => ['=']
  | .equal => ['=', '=']
  | .notEqual => ['!', '=']
  | .less => ['<']
  | .lessEqual => ['<', '=']
  | .greater => ['>']
  | .greaterEqual => ['>', '=']
  | .andAnd => ['&', '&']
  | .orOr => ['|', '|']
  | .bang => ['!']
  | .ampersand => ['&']
  | .bar => ['|']
  | .caret => ['^']
  | .tilde => ['~']
  | .shiftLeft => ['<', '<']
  | .shiftRight => ['>', '>']
  | .arrow => ['-', '>']
  | .dot => ['.']
  | .leftParen => ['(']
  | .rightParen => [')']
  | .leftBrace => ['{']
  | .rightBrace => ['}']
  | .leftBracket => ['[']
  | .rightBracket => [']']
  | .comma => [',']
  | .semicolon => [';']

theorem Mark.ofChar?_eq_some_iff {c : Char} {m : Mark} : ofChar? c = some m ↔ m.text = [c] := by
  constructor
  · intro h
    unfold ofChar? at h
    split at h <;> cases h <;> rfl
  · intro h
    cases m <;> cases h <;> rfl

theorem Mark.ofPair?_eq_some_iff {c d : Char} {m : Mark} :
    ofPair? c d = some m ↔ m.text = [c, d] := by
  constructor
  · intro h
    unfold ofPair? at h
    split at h <;> cases h <;> rfl
  · intro h
    cases m <;> cases h <;> rfl

theorem Mark.length_text (m : Mark) : m.text.length = 1 ∨ m.text.length = 2 := by
  cases m <;> decide

/-- Words and numbers. -/
def Kind.isWord : Kind → Bool
  | .keyword _ | .ident _ | .integer _ => true
  | _ => false

/-! ## Lexemes by themselves -/

namespace Quoted

/-- A character that starts no escape. -/
theorem ne_backslash {c : Char} {r : List Char} (hone : c = '\\' → r = [] → False)
    (hmany : ∀ d r', c = '\\' → r = d :: r' → False) : c ≠ '\\' := by
  intro hc
  cases r with
  | nil => exact hone hc rfl
  | cons d r => exact hmany d r hc rfl

theorem string_take (r : List Char) : string (r.take (string r).width) = string r := by
  fun_induction string r with
  | case1 | case2 | case4 | case5 => rfl
  | case3 c r q ih =>
    change string ('\\' :: c :: r.take q.width) = _
    rw [string, ih]
  | case6 c r hone hmany hquote hline q ih =>
    have hslash := ne_backslash hone hmany
    change string (c :: r.take q.width) = _
    rw [string, if_neg hquote, if_neg hline, ih]
    · exact fun h _ => hslash h
    · exact fun _ _ h _ => hslash h

theorem closing_take (r : List Char) : closing (r.take (closing r)) = closing r := by
  fun_cases closing r <;> rfl

theorem char_take (r : List Char) : char (r.take (char r).width) = char r := by
  fun_cases char r with
  | case1 | case2 => rfl
  | case3 c r =>
    change char ('\\' :: c :: r.take (closing r)) = _
    rw [char, closing_take]
  | case4 c r hone hmany =>
    have hslash := ne_backslash hone hmany
    change char (c :: r.take (closing r)) = _
    rw [char, closing_take]
    · exact fun h _ => hslash h
    · exact fun _ _ h _ => hslash h

end Quoted

namespace Lexeme

theorem word_take (c : Char) (r : List Char) : word c (r.take (word c r).tail) = word c r := by
  rw [take_tail_word]
  simp only [word, List.takeWhile_idem]

theorem symbol_take (c : Char) (r : List Char) :
    symbol c (r.take (symbol c r).tail) = symbol c r := by
  cases hpair : r.head?.bind (Mark.ofPair? c) with
  | some m =>
    have hsymbol : symbol c r = ⟨.mark m, 1, false⟩ := by rw [symbol, hpair]
    have hhead : (r.take 1).head? = r.head? := by cases r <;> rfl
    rw [hsymbol, symbol, hhead, hpair]
  | none =>
    have hsymbol : symbol c r = symbol c [] := by
      rw [symbol, hpair]
      rfl
    have htail : (symbol c []).tail = 0 := by
      unfold symbol
      cases Mark.ofChar? c <;> rfl
    rw [hsymbol, htail, List.take_zero]

/-- A lexeme is decided by the characters that it covers. -/
theorem read_take (c : Char) (r : List Char) : read c (r.take (read c r).tail) = read c r := by
  unfold read
  split
  · exact word_take c r
  · split
    · simp only [Quoted.string_take]
    · split
      · simp only [Quoted.char_take]
      · exact symbol_take c r

theorem read_cases (c : Char) (r : List Char) :
    read c r = word c r ∨ (read c r).kind.isQuoted = true ∨ read c r = symbol c r := by
  unfold read
  split
  · exact .inl rfl
  · split
    · exact .inr (.inl rfl)
    · split
      · exact .inr (.inl rfl)
      · exact .inr (.inr rfl)

theorem isWord_word (c : Char) (r : List Char) : (word c r).kind.isWord = true := by
  rw [kind_word]
  split
  · rfl
  · split <;> rfl

/-- A pair of characters that is a mark, or one character. -/
theorem symbol_cases (c : Char) (r : List Char) :
    (∃ d m, r.head? = some d ∧ m.text = [c, d] ∧ symbol c r = ⟨.mark m, 1, false⟩) ∨
      (∀ d ∈ r.head?, Mark.ofPair? c d = none) ∧
        ((∃ m, m.text = [c] ∧ symbol c r = ⟨.mark m, 0, false⟩) ∨
          symbol c r = ⟨.unknown c, 0, false⟩) := by
  unfold symbol
  cases hpair : r.head?.bind (Mark.ofPair? c) with
  | some m =>
    obtain ⟨d, hd, hm⟩ := Option.bind_eq_some_iff.1 hpair
    exact .inl ⟨d, m, hd, Mark.ofPair?_eq_some_iff.1 hm, rfl⟩
  | none =>
    refine .inr ⟨Option.bind_eq_none_iff.1 hpair, ?_⟩
    cases hchar : Mark.ofChar? c with
    | some m => exact .inl ⟨m, Mark.ofChar?_eq_some_iff.1 hchar, rfl⟩
    | none => exact .inr rfl

/-- What comes after a word does not belong to it. -/
theorem isWordChar_after {c d : Char} {r : List Char} (h : (read c r).kind.isWord = true)
    (hd : d ∈ (r.drop (read c r).tail).head?) : isWordChar d = false := by
  have hword : read c r = word c r := by
    rcases read_cases c r with hread | hquoted | hread
    · exact hread
    · cases hkind : (read c r).kind <;> simp_all [Kind.isWord, Kind.isQuoted]
    · rw [hread] at h
      rcases symbol_cases c r with ⟨_, _, _, _, hs⟩ | ⟨_, ⟨_, _, hs⟩ | hs⟩ <;>
        simp [hs, Kind.isWord] at h
  have hparts : r.takeWhile isWordChar ++ r.drop (word c r).tail =
      r.takeWhile isWordChar ++ r.dropWhile isWordChar := by
    rw [List.takeWhile_append_dropWhile, ← take_tail_word c, List.take_append_drop]
  rw [hword, List.append_cancel_left hparts] at hd
  have hne := List.head?_dropWhile_not isWordChar r
  simpa [Option.mem_def.1 hd] using hne

/-- The characters of a mark are those it was read from, and with the next one they are no mark. -/
theorem read_of_mark {c : Char} {r : List Char} {m : Mark} (h : (read c r).kind = .mark m) :
    c :: r.take (read c r).tail = m.text ∧
      ∀ d ∈ (r.drop (read c r).tail).head?, ∀ m' : Mark, m'.text ≠ m.text ++ [d] := by
  have hsymbol : read c r = symbol c r := by
    rcases read_cases c r with hread | hquoted | hread
    · have hword := isWord_word c r
      rw [← hread, h] at hword
      cases hword
    · rw [h] at hquoted
      cases hquoted
    · exact hread
  rw [hsymbol] at h ⊢
  rcases symbol_cases c r with ⟨d, m', hd, hm, hs⟩ | ⟨hpair, ⟨m', hm, hs⟩ | hs⟩
  · -- no mark has three characters
    rw [hs] at h ⊢
    cases h
    obtain ⟨r, rfl⟩ := List.head?_eq_some_iff.1 hd
    refine ⟨hm.symm, fun e _ m' hm' => ?_⟩
    have hlen := congrArg List.length hm'
    have hshort := m'.length_text
    rw [hm] at hlen
    simp at hlen
    omega
  · rw [hs] at h ⊢
    cases h
    refine ⟨hm.symm, fun d hd m' hm' => ?_⟩
    rw [hm] at hm'
    cases (hpair d hd).symm.trans (Mark.ofPair?_eq_some_iff.2 hm')
  · rw [hs] at h
    cases h

end Lexeme

/-! ## Where no gap starts -/

/-- A blank or a comment starts here. -/
def opensGap : List Char → Bool
  | [] => false
  | c :: r => isBlank c || c = '/' && (r.head? = some '/' || r.head? = some '*')

theorem opensGap_take {c : Char} {r : List Char} (h : opensGap (c :: r) = false) (n : Nat) :
    opensGap (c :: r.take n) = false := by
  cases n with
  | zero => simp_all [opensGap]
  | succ n =>
    have hhead : (r.take (n + 1)).head? = r.head? := by cases r <;> rfl
    simpa only [opensGap, hhead] using h

/-- With the character after them, the first characters start no comment. -/
theorem not_comment_of_opensGap {c d e : Char} {r : List Char} {n : Nat}
    (h : opensGap (c :: r) = false) (he : e ∈ (r.drop n).head?) (hd : d = '/' ∨ d = '*') :
    c :: r.take n ++ [e] ≠ ['/', d] := by
  intro heq
  obtain ⟨rest, hrest⟩ := List.head?_eq_some_iff.1 he
  have hr : c :: r = '/' :: d :: rest := by
    calc c :: r = c :: r.take n ++ [e] ++ rest := by
          rw [List.append_assoc, List.singleton_append, ← hrest, List.cons_append,
            List.take_append_drop]
      _ = '/' :: d :: rest := by rw [heq, List.cons_append, List.singleton_append]
  rw [hr] at h
  rcases hd with rfl | rfl <;> cases h

namespace Gap

theorem opensGap_skip (g : Gap) (p : Place) (cs : List Char) :
    opensGap (g.skip p cs).2 = false := by
  fun_induction Gap.skip g p cs with
  | case1 => rfl
  | case5 p c r hline hblock hc =>
    cases r <;> simp_all [opensGap]
  | _ => assumption

theorem skip_of_opensGap {cs : List Char} (h : opensGap cs = false) (p : Place) :
    Gap.skip .between p cs = (p, cs) := by
  unfold Gap.skip
  split <;> simp_all [opensGap]

end Gap

/-! ## Tokens by themselves -/

namespace Cursor

/-- A lexeme at the front is the next token. -/
theorem next?_of_rest {c : Cursor} {ch : Char} {r : List Char} (h : c.skipGap.rest = ch :: r) :
    c.next? = some (⟨(Lexeme.read ch r).kind,
        .between c.skipGap.place ((Lexeme.read ch r).stop c.skipGap.place ch r)⟩,
      ⟨(Lexeme.read ch r).stop c.skipGap.place ch r, r.drop (Lexeme.read ch r).tail⟩) := by
  rw [next?, h]

theorem skipGap_of_opensGap {c : Cursor} (h : opensGap c.rest = false) : c.skipGap = c := by
  rw [skipGap, Gap.skip_of_opensGap h]

theorem tokens_of_nil (p : Place) : (Cursor.mk p []).tokens = [⟨.eof, .between p p⟩] :=
  tokens_of_none rfl

/-- The word of a token by itself. -/
theorem kinds_alone {ch : Char} {r : List Char} (h : opensGap (ch :: r) = false) (p : Place) :
    (Cursor.mk p (ch :: r.take (Lexeme.read ch r).tail)).tokens.map (·.kind) =
      [(Lexeme.read ch r).kind, .eof] := by
  have hskip : (Cursor.mk p (ch :: r.take (Lexeme.read ch r).tail)).skipGap =
      ⟨p, ch :: r.take (Lexeme.read ch r).tail⟩ := skipGap_of_opensGap (opensGap_take h _)
  have hnext := next?_of_rest (congrArg Cursor.rest hskip)
  have hdrop : (r.take (Lexeme.read ch r).tail).drop (Lexeme.read ch r).tail = [] := by simp
  rw [tokens_of_next? hnext, Lexeme.read_take, hdrop, tokens_of_nil]
  rfl

theorem rest_of_next? {c d : Cursor} {t : Token} (h : c.next? = some (t, d)) :
    ∃ ch r, c.skipGap.rest = ch :: r := by
  cases hrest : c.skipGap.rest with
  | nil =>
    rw [next?, hrest] at h
    cases h
  | cons ch r => exact ⟨ch, r, rfl⟩

/-- The gap of a step is all that can be skipped. -/
theorem rest_of_step {c d : Cursor} {t : Token} {gap word : List Char} (h : c.next? = some (t, d))
    (hstep : Step c t d gap word) : word ++ d.rest = c.skipGap.rest := by
  obtain ⟨gap', hrest, hplace, -⟩ := c.skipGap_spec
  have hstart : t.span.start = c.place.offset + gap'.length := by
    obtain ⟨ch, r, hr⟩ := rest_of_next? h
    rw [next?_of_rest hr] at h
    cases h
    rw [Span.between, hplace, Place.offset_moveAll]
  have hlen : gap.length = gap'.length := by
    have hgap := hstep.start_eq
    omega
  exact (List.append_inj (hstep.rest.symm.trans hrest) hlen).2

end Cursor

/-! ## Texts inside of texts -/

namespace Place

/-- The place `q` of a text that starts at the place `base` of another one. -/
def within (base q : Place) : Place :=
  ⟨base.offset + q.offset, base.line + (q.line - 1),
    if q.line = 1 then base.column + (q.column - 1) else q.column⟩

/-- Lines and columns count from one. -/
def Counted (q : Place) : Prop := 1 ≤ q.line ∧ 1 ≤ q.column

theorem counted_first : first.Counted := ⟨Nat.le_refl 1, Nat.le_refl 1⟩

theorem Counted.move {q : Place} (h : q.Counted) (c : Char) : (q.move c).Counted := by
  unfold Place.move
  split
  · exact ⟨Nat.succ_pos _, Nat.le_refl 1⟩
  · exact ⟨h.1, Nat.succ_pos _⟩

theorem Counted.moveAll {q : Place} (h : q.Counted) (cs : List Char) : (q.moveAll cs).Counted := by
  induction cs generalizing q with
  | nil => exact h
  | cons c cs ih => exact ih (h.move c)

theorem Counted.past {q : Place} (h : q.Counted) : q.past.Counted := ⟨h.1, Nat.succ_pos _⟩

theorem within_first (base : Place) : base.within first = base := rfl

/-- One column further on the same line. -/
theorem right_within (base : Place) {q : Place} (h : q.Counted) :
    (⟨(base.within q).offset + 1, (base.within q).line, (base.within q).column + 1⟩ : Place) =
      base.within ⟨q.offset + 1, q.line, q.column + 1⟩ := by
  obtain ⟨-, hcolumn⟩ := h
  unfold within
  split
  · simp only [Place.mk.injEq, true_and]
    omega
  · rfl

theorem move_within (base : Place) {q : Place} (h : q.Counted) (c : Char) :
    (base.within q).move c = base.within (q.move c) := by
  unfold move
  split
  · obtain ⟨hline, -⟩ := h
    have hlater : q.line + 1 ≠ 1 := by omega
    simp only [within, if_neg hlater, Place.mk.injEq, and_true]
    omega
  · exact right_within base h

theorem past_within (base : Place) {q : Place} (h : q.Counted) :
    (base.within q).past = base.within q.past :=
  right_within base h

theorem moveAll_within (base : Place) {q : Place} (h : q.Counted) (cs : List Char) :
    (base.within q).moveAll cs = base.within (q.moveAll cs) := by
  induction cs generalizing q with
  | nil => rfl
  | cons c cs ih =>
    change ((base.within q).move c).moveAll cs = base.within ((q.move c).moveAll cs)
    rw [move_within base h, ih (h.move c)]

end Place

/-- The span in the text that starts at `base`. -/
def Span.within (base : Place) (s : Span) : Span :=
  .between (base.within ⟨s.start, s.line, s.column⟩) ⟨base.offset + s.stop, s.line, s.column⟩

def Token.within (base : Place) (t : Token) : Token := ⟨t.kind, t.span.within base⟩

theorem Gap.skip_within (base : Place) (g : Gap) {q : Place} (h : q.Counted) (cs : List Char) :
    g.skip (base.within q) cs = (base.within (g.skip q cs).1, (g.skip q cs).2) ∧
      (g.skip q cs).1.Counted := by
  fun_induction Gap.skip g q cs with
  | case1 g q =>
    exact ⟨by rw [Gap.skip], h⟩
  | case2 q r ih =>
    rw [Gap.skip, Place.move_within base h, Place.move_within base (h.move _)]
    exact ih ((h.move _).move _)
  | case3 q r ih =>
    rw [Gap.skip, Place.move_within base h, Place.move_within base (h.move _)]
    exact ih ((h.move _).move _)
  | case4 q c r hline hblock hc ih =>
    rw [Gap.skip, if_pos hc, Place.move_within base h]
    · exact ih (h.move _)
    · exact hline
    · exact hblock
  | case5 q c r hline hblock hc =>
    refine ⟨?_, h⟩
    rw [Gap.skip, if_neg hc]
    · exact hline
    · exact hblock
  | case6 q r ih =>
    rw [Gap.skip, if_pos rfl, Place.move_within base h]
    exact ih (h.move _)
  | case7 q c r hc ih =>
    rw [Gap.skip, if_neg hc, Place.move_within base h]
    exact ih (h.move _)
  | case8 q r ih =>
    rw [Gap.skip, Place.move_within base h, Place.move_within base (h.move _)]
    exact ih ((h.move _).move _)
  | case9 q c r hc ih =>
    rw [Gap.skip, Place.move_within base h]
    · exact ih (h.move _)
    · exact hc

theorem Lexeme.stop_within (base : Place) (l : Lexeme) {q : Place} (h : q.Counted) (c : Char)
    (r : List Char) :
    l.stop (base.within q) c r = base.within (l.stop q c r) ∧ (l.stop q c r).Counted := by
  have hall := h.moveAll (c :: r.take l.tail)
  rw [stop, stop, Place.moveAll_within base h]
  split
  · exact ⟨Place.past_within base hall, hall.past⟩
  · exact ⟨rfl, hall⟩

namespace Cursor

/-- The cursor in the text that starts at `base`. -/
def within (base : Place) (c : Cursor) : Cursor := ⟨base.within c.place, c.rest⟩

theorem skipGap_within (base : Place) {c : Cursor} (h : c.place.Counted) :
    (c.within base).skipGap = c.skipGap.within base ∧ c.skipGap.place.Counted := by
  obtain ⟨hskip, hcounted⟩ := Gap.skip_within base .between h c.rest
  refine ⟨?_, hcounted⟩
  simp only [skipGap, within, hskip]

theorem tokens_within (base : Place) {c : Cursor} (h : c.place.Counted) :
    (c.within base).tokens = c.tokens.map (Token.within base) := by
  fun_induction tokens c with
  | case1 c t d hnext ih =>
    obtain ⟨hskip, hcounted⟩ := skipGap_within base h
    obtain ⟨ch, r, hr⟩ := rest_of_next? hnext
    obtain ⟨hstop, hcounted'⟩ := Lexeme.stop_within base (Lexeme.read ch r) hcounted ch r
    have hplace : (c.within base).skipGap.place = base.within c.skipGap.place :=
      congrArg Cursor.place hskip
    have hnext' := next?_of_rest ((congrArg Cursor.rest hskip).trans hr)
    rw [hplace, hstop] at hnext'
    rw [next?_of_rest hr] at hnext
    cases hnext
    rw [tokens_of_next? hnext', List.map_cons, ← ih hcounted']
    rfl
  | case2 c hnone =>
    obtain ⟨hskip, hcounted⟩ := skipGap_within base h
    have hnone' : (c.within base).next? = none := by
      rw [next?, hskip, within, rest_skipGap_of_none hnone]
    rw [tokens_of_none hnone', endToken, hskip]
    rfl

end Cursor

/-! ## The tokens of a source -/

/-- How far the token `t` of the text `cs` reaches, and what the tokens `post` after it are. -/
structure Token.Maximal (cs : List Char) (t : Token) (post : List Token) : Prop where
  /-- By itself, the text of the token is that token. -/
  alone : (Token.ofSource (.ofList (cs.extract t.span.start t.span.stop))).map (·.kind) =
    [t.kind, .eof]
  /-- A word does not go on. -/
  word : t.kind.isWord = true → ∀ c ∈ cs[t.span.stop]?, isWordChar c = false
  /-- A mark is not the start of a longer one or of a comment. -/
  mark : ∀ m, t.kind = .mark m → cs.extract t.span.start t.span.stop = m.text ∧
    ∀ c ∈ cs[t.span.stop]?, (∀ m' : Mark, m'.text ≠ m.text ++ [c]) ∧
      m.text ++ [c] ≠ ['/', '/'] ∧ m.text ++ [c] ≠ ['/', '*']
  /-- The tokens after it are those of the text after it. -/
  afresh : post = (Token.ofSource (.ofList (cs.drop t.span.stop))).map
    (Token.within (.ofOffset cs t.span.stop))

/-- **Lexemes are local and maximal.** The text of a token, read by itself, is that token. No word
goes on after its end, and no mark is the start of a longer mark or of a comment. The tokens after
it are those of the text after it. -/
theorem tokens_maximal {source : String} {pre post : List Token} {t : Token}
    (h : Token.ofSource source = pre ++ t :: post) (hkind : t.kind ≠ .eof) :
    t.Maximal source.toList post := by
  obtain ⟨c, d, hc, hnext, hpost⟩ := Cursor.exists_next (.ofSource source) h hkind
  obtain ⟨gap, word, hstep⟩ := Cursor.step_of_next? hnext
  obtain ⟨ch, r, hfront, hword, hread⟩ := hstep.lexeme
  have hd := hc.step hstep
  have hstop := hstep.stop_eq.1
  have hgap : opensGap (ch :: r) = false := by
    rw [← hfront, Cursor.rest_of_step hnext hstep]
    exact Gap.opensGap_skip ..
  have hafter : r.drop (Lexeme.read ch r).tail = source.toList.drop t.span.stop := by
    have hrest : word ++ d.rest = word ++ r.drop (Lexeme.read ch r).tail := by
      rw [hfront, hword, List.cons_append, List.take_append_drop]
    rw [← List.append_cancel_left hrest, hd.rest, hstop]
  have hhead : source.toList[t.span.stop]? = (r.drop (Lexeme.read ch r).tail).head? := by
    rw [hafter, List.head?_drop]
  exact {
    alone := by
      rw [hc.extract_word hstep, hword, hread, Token.ofSource, Cursor.ofSource,
        String.toList_ofList]
      exact Cursor.kinds_alone hgap .first
    word := by
      intro hw e he
      rw [hread] at hw
      rw [hhead] at he
      exact Lexeme.isWordChar_after hw he
    mark := by
      intro m hm
      obtain ⟨htext, hlonger⟩ := Lexeme.read_of_mark (hread.symm.trans hm)
      rw [hc.extract_word hstep, hword, hhead, ← htext]
      rw [← htext] at hlonger
      exact ⟨rfl, fun e he => ⟨hlonger e he, not_comment_of_opensGap hgap he (.inl rfl),
        not_comment_of_opensGap hgap he (.inr rfl)⟩⟩
    afresh := by
      have hshift := Cursor.tokens_within d.place (c := ⟨.first, d.rest⟩) Place.counted_first
      rw [← hpost, Token.ofSource, Cursor.ofSource, String.toList_ofList, hstop, ← hd.rest,
        ← hd.place, ← hshift, Cursor.within, Place.within_first] }

/-- Marks side by side, a comment right after one, and a string that the end cuts off. -/
def crowdedSource : String := "a>>=/**/if0\n\"\\"

def crowdedTokens : List Token :=
  [⟨.ident "a", ⟨0, 1, 1, 1⟩⟩, ⟨.mark .shiftRight, ⟨1, 3, 1, 2⟩⟩, ⟨.mark .assign, ⟨3, 4, 1, 4⟩⟩,
    ⟨.ident "if0", ⟨8, 11, 1, 9⟩⟩, ⟨.string "", ⟨12, 15, 2, 1⟩⟩, ⟨.eof, ⟨15, 15, 2, 4⟩⟩]

theorem crowdedSource_tokens : Token.ofSource crowdedSource = crowdedTokens := by
  decide +kernel

theorem crowdedSource_maximal :
    (Token.ofSource crowdedSource =
        crowdedTokens.take 2 ++ ⟨.mark .assign, ⟨3, 4, 1, 4⟩⟩ :: crowdedTokens.drop 3 ∧
      Token.Maximal crowdedSource.toList ⟨.mark .assign, ⟨3, 4, 1, 4⟩⟩ (crowdedTokens.drop 3)) ∧
    Token.ofSource crowdedSource =
        crowdedTokens.take 4 ++ ⟨.string "", ⟨12, 15, 2, 1⟩⟩ :: crowdedTokens.drop 5 ∧
      Token.Maximal crowdedSource.toList ⟨.string "", ⟨12, 15, 2, 1⟩⟩ (crowdedTokens.drop 5) := by
  have hmark : Token.ofSource crowdedSource =
      crowdedTokens.take 2 ++ ⟨.mark .assign, ⟨3, 4, 1, 4⟩⟩ :: crowdedTokens.drop 3 :=
    crowdedSource_tokens
  have hstring : Token.ofSource crowdedSource =
      crowdedTokens.take 4 ++ ⟨.string "", ⟨12, 15, 2, 1⟩⟩ :: crowdedTokens.drop 5 :=
    crowdedSource_tokens
  exact ⟨⟨hmark, tokens_maximal hmark (by decide)⟩, hstring, tokens_maximal hstring (by decide)⟩

/-! ## Lines and columns -/

/-- The line of the offset `i` starts at the offset `j`: right after the last line feed before `i`,
or with the text. -/
structure IsLineStart (cs : List Char) (i j : Nat) : Prop where
  le : j ≤ i
  start : j = 0 ∨ cs[j - 1]? = some '\n'
  last : ∀ k, j ≤ k → k < i → cs[k]? ≠ some '\n'

/-- The text before an offset is cut where the line of the offset starts. -/
theorem take_eq_lines (cs : List Char) (i : Nat) :
    ∃ lines line, cs.take i = lines ++ line ∧ lines.length = lineStart cs i ∧
      (∀ c ∈ lines.getLast?, c = '\n') ∧ '\n' ∉ line := by
  refine ⟨((cs.take i).reverse.dropWhile (· ≠ '\n')).reverse,
    ((cs.take i).reverse.takeWhile (· ≠ '\n')).reverse, ?_, ?_, ?_, ?_⟩
  · rw [← List.reverse_append, List.takeWhile_append_dropWhile, List.reverse_reverse]
  · rw [List.length_reverse, lineStart]
  · intro c hc
    rw [List.getLast?_reverse, Option.mem_def] at hc
    have hnot := List.head?_dropWhile_not (· ≠ '\n') (cs.take i).reverse
    rw [hc] at hnot
    simpa using hnot
  · intro hmem
    have hne := List.mem_takeWhile_imp (List.mem_reverse.1 hmem)
    simp at hne

theorem isLineStart_lineStart (cs : List Char) (i : Nat) : IsLineStart cs i (lineStart cs i) := by
  obtain ⟨lines, line, hcut, hlen, hlast, hline⟩ := take_eq_lines cs i
  have hat : ∀ k < i, cs[k]? = (lines ++ line)[k]? := fun k hk => by
    rw [← hcut, List.getElem?_take_of_lt hk]
  have hle := lineStart_le cs i
  refine ⟨hle, ?_, fun k hk hki hfeed => hline ?_⟩
  · cases hend : lines.getLast? with
    | none =>
      left
      rw [← hlen, List.getLast?_eq_none_iff.1 hend, List.length_nil]
    | some c =>
      right
      have hpos : 0 < lines.length := List.length_pos_iff.2 fun hnil => by simp [hnil] at hend
      rw [hat _ (by omega), ← hlen, List.getElem?_append_left (by omega),
        ← List.getLast?_eq_getElem?, hend, hlast c hend]
  · rw [hat k hki, List.getElem?_append_right (by omega)] at hfeed
    exact List.mem_of_getElem? hfeed

/-- **Tokens stand where they say.** The line of a token counts the line feeds before it, and its
column counts from the last of them. -/
theorem tokens_line_column {source : String} {t : Token} (h : t ∈ Token.ofSource source) :
    t.span.line = 1 + (source.toList.take t.span.start).count '\n' ∧
      ∃ j, IsLineStart source.toList t.span.start j ∧ t.span.column = 1 + (t.span.start - j) := by
  obtain ⟨hline, hcolumn⟩ := Cursor.located_of_mem (.ofSource source) h
  exact ⟨hline, _, isLineStart_lineStart _ _, hcolumn⟩

/-- Line feeds in a comment, in a character and in a string, and a character that the end of the
text cuts off. -/
def brokenSource : String := "/*\n*/x '\n' \"\\\n\" '"

theorem brokenSource_tokens : Token.ofSource brokenSource =
    [⟨.ident "x", ⟨5, 6, 2, 3⟩⟩, ⟨.character '\n', ⟨7, 10, 2, 5⟩⟩, ⟨.string "\n", ⟨11, 15, 3, 3⟩⟩,
      ⟨.character '\x00', ⟨16, 18, 4, 3⟩⟩, ⟨.eof, ⟨18, 18, 4, 5⟩⟩] := by
  decide +kernel

theorem brokenSource_end_line_column :
    ⟨.eof, ⟨18, 18, 4, 5⟩⟩ ∈ Token.ofSource brokenSource ∧
      4 = 1 + (brokenSource.toList.take 18).count '\n' ∧
      ∃ j, IsLineStart brokenSource.toList 18 j ∧ 5 = 1 + (18 - j) := by
  have hmem : ⟨.eof, ⟨18, 18, 4, 5⟩⟩ ∈ Token.ofSource brokenSource := by
    simp [brokenSource_tokens]
  exact ⟨hmem, tokens_line_column hmem⟩

end MiniC
