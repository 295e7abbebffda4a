import Mathlib.Data.List.Chain
import Mathlib.Data.List.Infix
import MiniC.Proofs.Words

/-!
# How tokens lie in a text

The tokens of a text cover it: between two of them, and before the first and after the last, there
are only blanks and comments (`Blank`). `Cursor.Step` says what one call of `Cursor.next?` does to a
text: it passes over a gap and a word, and the span of the token is that of the word. `Tiling` is
what follows for all tokens from an offset on, and a step puts one token in front of it. The line
and the column of every cursor on the way are those of its offset (`Cursor.In`).
-/

namespace MiniC

/-! ## Places -/

/-- Where the line of the offset `i` starts: after the last line feed before `i`. -/
def lineStart (cs : List Char) (i : Nat) : Nat :=
  ((cs.take i).reverse.dropWhile (· ≠ '\n')).length

/-- The line and the column of the offset `i`, both counted from one. -/
def Place.ofOffset (cs : List Char) (i : Nat) : Place :=
  ⟨i, 1 + (cs.take i).count '\n', 1 + (i - lineStart cs i)⟩

theorem lineStart_le (cs : List Char) (i : Nat) : lineStart cs i ≤ i := by
  have h := (List.dropWhile_suffix (· ≠ '\n') (l := (cs.take i).reverse)).length_le
  rw [List.length_reverse, List.length_take] at h
  unfold lineStart
  omega

namespace Place

variable {cs : List Char} {i : Nat}

theorem first_eq (cs : List Char) : first = ofOffset cs 0 := by
  simp [first, ofOffset]

/-- Moving over the character at an offset leads to the next offset. -/
theorem move_ofOffset {c : Char} {r : List Char} (h : cs.drop i = c :: r) :
    (ofOffset cs i).move c = ofOffset cs (i + 1) := by
  have htake : cs.take (i + 1) = cs.take i ++ [c] := by
    rw [List.take_add, h, List.take_succ_cons, List.take_zero]
  have hlen : i < cs.length := by
    have := congrArg List.length h
    rw [List.length_drop, List.length_cons] at this
    omega
  have hle := lineStart_le cs i
  unfold move
  split
  · rename_i hc
    subst hc
    have hstart : lineStart cs (i + 1) = i + 1 := by
      rw [lineStart, htake]
      simp
      omega
    rw [ofOffset, ofOffset, hstart, htake]
    simp
    omega
  · rename_i hc
    have hstart : lineStart cs (i + 1) = lineStart cs i := by
      rw [lineStart, htake, lineStart]
      simp [hc]
    rw [ofOffset, ofOffset, hstart, htake]
    simp [hc]
    omega

theorem moveAll_ofOffset {xs r : List Char} (h : cs.drop i = xs ++ r) :
    (ofOffset cs i).moveAll xs = ofOffset cs (i + xs.length) := by
  induction xs generalizing i with
  | nil => rfl
  | cons x xs ih =>
    have hnext : cs.drop (i + 1) = xs ++ r := by
      rw [← List.drop_drop, h, List.cons_append, List.drop_one, List.tail_cons]
    rw [moveAll, List.foldl_cons, ← moveAll, move_ofOffset h, ih hnext, List.length_cons,
      Nat.add_assoc, Nat.add_comm 1]

/-- One step past the end of the text. -/
theorem past_ofOffset (h : cs.length ≤ i) : (ofOffset cs i).past = ofOffset cs (i + 1) := by
  have hle := lineStart_le cs i
  have htake : cs.take (i + 1) = cs.take i := by
    rw [List.take_of_length_le h, List.take_of_length_le (by omega)]
  have hstart : lineStart cs (i + 1) = lineStart cs i := by
    rw [lineStart, htake, lineStart]
  rw [past, ofOffset, ofOffset, hstart, htake]
  simp
  omega

end Place

/-- The span has the line and the column of its start. -/
def Span.Located (cs : List Char) (s : Span) : Prop :=
  s.line = (Place.ofOffset cs s.start).line ∧ s.column = (Place.ofOffset cs s.start).column

/-! ## Gaps -/

/-- Blanks and comments. A line comment runs up to a line feed, a block comment up to the first
closing mark after its start. Only where the text is `final`, the end of a text, can a comment run
to the end of it. -/
inductive Blank (final : Bool) : List Char → Prop
  | nil : Blank final []
  | blank {c r} : isBlank c = true → Blank final r → Blank final (c :: r)
  | line (body : List Char) {r} : '\n' ∉ body → Blank final ('\n' :: r) →
      Blank final ('/' :: '/' :: (body ++ '\n' :: r))
  | lineEnd {body} : final = true → '\n' ∉ body → Blank final ('/' :: '/' :: body)
  | block (body : List Char) {r} : ¬ ['*', '/'] <:+: body → Blank final r →
      Blank final ('/' :: '*' :: (body ++ '*' :: '/' :: r))
  | blockEnd {body} : final = true → ¬ ['*', '/'] <:+: body → Blank final ('/' :: '*' :: body)

namespace Blank

variable {final : Bool} {gap : List Char}

theorem line_cons {c : Char} (hc : c ≠ '\n') (h : Blank final ('/' :: '/' :: gap)) :
    Blank final ('/' :: '/' :: c :: gap) := by
  have hne : '\n' ≠ c := Ne.symm hc
  cases h with
  | blank hb => cases hb
  | line body hbody hr => exact .line (c :: body) (by simp [hne, hbody]) hr
  | lineEnd hf hbody => exact .lineEnd hf (by simp [hne, hbody])

/-- A character that does not close a block comment with what comes after it. -/
theorem not_close_cons {c : Char} {body : List Char} (hc : c = '*' → ∀ r, body ≠ '/' :: r)
    (h : ¬ ['*', '/'] <:+: body) : ¬ ['*', '/'] <:+: c :: body := by
  rw [List.infix_cons_iff, List.cons_prefix_cons]
  rintro (⟨rfl, r, hr⟩ | hin)
  · exact hc rfl r hr.symm
  · exact h hin

theorem block_cons {c : Char} (hc : c = '*' → ∀ r, gap ≠ '/' :: r)
    (h : Blank final ('/' :: '*' :: gap)) : Blank final ('/' :: '*' :: c :: gap) := by
  cases h with
  | blank hb => cases hb
  | block body hbody hr =>
    apply block (c :: body) _ hr
    apply not_close_cons _ hbody
    rintro hstar r' rfl
    exact hc hstar _ rfl
  | blockEnd hf hbody => exact .blockEnd hf (not_close_cons hc hbody)

end Blank

/-- What is skipped from inside a gap, with the start of the comment that it is in. -/
def Gap.opened : Gap → List Char → List Char
  | .between, gap => gap
  | .inLine, gap => '/' :: '/' :: gap
  | .inBlock, gap => '/' :: '*' :: gap

/-- What is skipped is blank, and the place moves over it. -/
theorem Gap.skip_spec (g : Gap) (p : Place) (cs : List Char) :
    ∃ gap, cs = gap ++ (g.skip p cs).2 ∧ (g.skip p cs).1 = p.moveAll gap ∧
      Blank (g.skip p cs).2.isEmpty (g.opened gap) := by
  -- cases 2 to 5 are between comments, 6 and 7 in a line comment, 8 and 9 in a block comment
  fun_induction Gap.skip g p cs with
  | case1 g p =>
    refine ⟨[], rfl, rfl, ?_⟩
    cases g with
    | between => exact .nil
    | inLine => exact .lineEnd rfl (by simp)
    | inBlock => exact .blockEnd rfl (by simp)
  | case2 p r ih =>
    obtain ⟨gap, hr, hp, hb⟩ := ih
    exact ⟨'/' :: '/' :: gap, by rw [List.cons_append, List.cons_append, ← hr], hp, hb⟩
  | case3 p r ih =>
    obtain ⟨gap, hr, hp, hb⟩ := ih
    exact ⟨'/' :: '*' :: gap, by rw [List.cons_append, List.cons_append, ← hr], hp, hb⟩
  | case4 p c r _ _ hc ih =>
    obtain ⟨gap, hr, hp, hb⟩ := ih
    exact ⟨c :: gap, by rw [List.cons_append, ← hr], hp, .blank hc hb⟩
  | case5 p c r => exact ⟨[], rfl, rfl, .nil⟩
  | case6 p r ih =>
    obtain ⟨gap, hr, hp, hb⟩ := ih
    exact ⟨'\n' :: gap, by rw [List.cons_append, ← hr], hp,
      .line [] (by simp) (.blank rfl hb)⟩
  | case7 p c r hc ih =>
    obtain ⟨gap, hr, hp, hb⟩ := ih
    exact ⟨c :: gap, by rw [List.cons_append, ← hr], hp, hb.line_cons hc⟩
  | case8 p r ih =>
    obtain ⟨gap, hr, hp, hb⟩ := ih
    exact ⟨'*' :: '/' :: gap, by rw [List.cons_append, List.cons_append, ← hr], hp,
      .block [] (by simp) hb⟩
  | case9 p c r hc ih =>
    obtain ⟨gap, hr, hp, hb⟩ := ih
    refine ⟨c :: gap, by rw [List.cons_append, ← hr], hp, hb.block_cons ?_⟩
    rintro rfl r' rfl
    exact hc _ rfl hr

/-! ## Words -/

/-- The text ends in a backslash that no backslash before it escapes. -/
def endsInEscape (cs : List Char) : Bool := (cs.reverse.takeWhile (· = '\\')).length % 2 = 1

/-- Literals between quotes. -/
def Kind.isQuoted : Kind → Bool
  | .character _ | .string _ => true
  | _ => false

/-- A literal cut off by the end of the text: only the quote of a character literal, or a literal
that ends in an escape. -/
def isUnfinished : List Char → Bool
  | '\'' :: r => r = [] || r = ['\\']
  | '"' :: r => endsInEscape r
  | _ => false

/-- An escape in front of a text that ends in one. -/
theorem endsInEscape_escape {r : List Char} (c : Char) (h : endsInEscape r = true) :
    endsInEscape ('\\' :: c :: r) = true := by
  simp only [endsInEscape, List.reverse_cons, List.append_assoc, List.takeWhile_append,
    decide_eq_true_eq, List.length_reverse] at h ⊢
  split
  · -- all of `r` are backslashes, so the run at the end goes on into what is put in front
    rename_i hall
    by_cases hc : c = '\\'
    · simp [hc, hall] at h ⊢
      omega
    · simp [hc, hall] at h ⊢
      omega
  · exact h

/-- A character that is no backslash in front of a text that ends in an escape. -/
theorem endsInEscape_cons {c : Char} {r : List Char} (hc : c ≠ '\\')
    (h : endsInEscape r = true) : endsInEscape (c :: r) = true := by
  simp only [endsInEscape, List.reverse_cons, List.takeWhile_append, decide_eq_true_eq,
    List.length_reverse] at h ⊢
  split
  · rename_i hall
    simp [hc, hall] at h ⊢
    omega
  · exact h

namespace Quoted

theorem string_spec (r : List Char) :
    (string r).width ≤ r.length ∧
      ((string r).cut = true → (string r).width = r.length ∧ endsInEscape r = true) := by
  fun_induction string r with
  | case1 => simp
  | case2 => decide
  | case3 c r q ih =>
    refine ⟨Nat.add_le_add_right ih.1 2, fun hcut => ?_⟩
    obtain ⟨hw, he⟩ := ih.2 hcut
    exact ⟨by simp [q, hw], endsInEscape_escape c he⟩
  | case4 | case5 => simp
  | case6 c r hone hmany _ _ q ih =>
    refine ⟨Nat.add_le_add_right ih.1 1, fun hcut => ?_⟩
    obtain ⟨hw, he⟩ := ih.2 hcut
    refine ⟨by simp [q, hw], endsInEscape_cons ?_ he⟩
    rintro rfl
    cases r with
    | nil => exact hone rfl rfl
    | cons d r => exact hmany d r rfl rfl

theorem closing_le (r : List Char) : closing r ≤ r.length := by
  unfold closing
  split
  · simp
  · omega

theorem char_spec (r : List Char) :
    (char r).width ≤ r.length ∧
      ((char r).cut = true → (char r).width = r.length ∧ (r = [] ∨ r = ['\\'])) := by
  unfold char
  split
  · simp
  · simp
  · rename_i c r
    have := closing_le r
    simp only [List.length_cons, Bool.false_eq_true, false_implies, and_true]
    omega
  · rename_i c r _ _
    have := closing_le r
    simp only [List.length_cons, Bool.false_eq_true, false_implies, and_true]
    omega

end Quoted

namespace Lexeme

/-- A lexeme stays in its text. If it is cut off, it is a literal and covers the whole text. -/
theorem read_spec (c : Char) (r : List Char) :
    (read c r).tail ≤ r.length ∧
      ((read c r).cut = true → (read c r).tail = r.length ∧ (read c r).kind.isQuoted = true ∧
        isUnfinished (c :: r) = true) := by
  unfold read
  split
  · exact ⟨(List.takeWhile_prefix isWordChar).length_le, nofun⟩
  · split
    · rename_i hc
      subst hc
      have h := Quoted.string_spec r
      exact ⟨h.1, fun hcut => ⟨(h.2 hcut).1, rfl, (h.2 hcut).2⟩⟩
    · split
      · rename_i hc
        subst hc
        have h := Quoted.char_spec r
        refine ⟨h.1, fun hcut => ⟨(h.2 hcut).1, rfl, ?_⟩⟩
        simpa [isUnfinished] using (h.2 hcut).2
      · unfold symbol
        split
        · rename_i m hm
          obtain ⟨d, hd, -⟩ := Option.bind_eq_some_iff.1 hm
          obtain ⟨r', rfl⟩ := List.head?_eq_some_iff.1 hd
          simp
        · split <;> simp

theorem take_tail_word (c : Char) (r : List Char) :
    r.take (word c r).tail = r.takeWhile isWordChar :=
  (List.prefix_iff_eq_take.1 (List.takeWhile_prefix isWordChar)).symm

/-- A name is the text that it was read from. -/
theorem text_of_ident {c : Char} {r : List Char} {name : String}
    (h : (read c r).kind = .ident name) :
    String.ofList (c :: r.take (read c r).tail) = name := by
  unfold read at h ⊢
  split at h
  · rename_i hc
    rw [if_pos hc, take_tail_word]
    rw [kind_word] at h
    split at h
    · cases h
    · split at h
      · cases h
      · exact Kind.ident.inj h
  · split at h
    · cases h
    · split at h
      · cases h
      · unfold symbol at h
        split at h
        · cases h
        · split at h <;> cases h

end Lexeme

/-! ## One token -/

/-- What lies between the cursors `c` and `d`: the characters `gap`, which are blank, and then the
characters `word`, from which the token `t` is read. Past a word that is cut off, the cursor is one
step beyond the text. -/
structure Cursor.Step (c : Cursor) (t : Token) (d : Cursor) (gap word : List Char) : Prop where
  rest : c.rest = gap ++ (word ++ d.rest)
  blank : Blank false gap
  word_ne : word ≠ []
  lexeme : ∃ ch r, word ++ d.rest = ch :: r ∧ word = ch :: r.take (Lexeme.read ch r).tail ∧
    t.kind = (Lexeme.read ch r).kind
  span : t.span = .between (c.place.moveAll gap) d.place
  place : d.place = (c.place.moveAll gap).moveAll word ∨
    d.rest = [] ∧ t.kind.isQuoted = true ∧ isUnfinished word = true ∧
      d.place = ((c.place.moveAll gap).moveAll word).past

namespace Cursor

theorem skipGap_spec (c : Cursor) :
    ∃ gap, c.rest = gap ++ c.skipGap.rest ∧ c.skipGap.place = c.place.moveAll gap ∧
      Blank c.skipGap.rest.isEmpty gap :=
  Gap.skip_spec .between c.place c.rest

theorem step_of_next? {c d : Cursor} {t : Token} (h : c.next? = some (t, d)) :
    ∃ gap word, Step c t d gap word := by
  obtain ⟨gap, hrest, hplace, hblank⟩ := c.skipGap_spec
  unfold next? at h
  simp only at h
  split at h
  · cases h
  · rename_i ch r hr
    rw [hr] at hrest hblank
    obtain ⟨hle, hcut⟩ := Lexeme.read_spec ch r
    cases h
    refine ⟨gap, ch :: r.take (Lexeme.read ch r).tail, ?_, hblank, by simp,
      ⟨ch, r, ?_, rfl, rfl⟩, ?_, ?_⟩
    · rw [hrest, List.cons_append, List.take_append_drop]
    · rw [List.cons_append, List.take_append_drop]
    · rw [hplace]
    · rw [Lexeme.stop, hplace]
      split
      · rename_i hc
        obtain ⟨htail, hquoted, hun⟩ := hcut hc
        refine .inr ⟨by simp [htail], hquoted, ?_, rfl⟩
        rwa [htail, List.take_length]
      · exact .inl rfl

namespace Step

variable {c d : Cursor} {t : Token} {gap word : List Char} (h : Step c t d gap word)

include h

theorem start_eq : t.span.start = c.place.offset + gap.length := by
  rw [h.span, Span.between, Place.offset_moveAll]

/-- The token ends with its word, or one step after it where the text ends. -/
theorem stop_eq : t.span.stop = d.place.offset ∧
    (d.place.offset = c.place.offset + gap.length + word.length ∨
      d.rest = [] ∧ t.kind.isQuoted = true ∧ isUnfinished word = true ∧
        d.place.offset = c.place.offset + gap.length + word.length + 1) := by
  refine ⟨by rw [h.span, Span.between], ?_⟩
  rcases h.place with hp | ⟨hd, hquoted, hun, hp⟩
  · left
    rw [hp, Place.offset_moveAll, Place.offset_moveAll]
  · right
    refine ⟨hd, hquoted, hun, ?_⟩
    rw [hp, Place.past, Place.offset_moveAll, Place.offset_moveAll]

end Step

end Cursor

/-! ## All tokens -/

/-- The cursor has the rest of the text `cs` before it, and its place is that of its offset. -/
structure Cursor.In (c : Cursor) (cs : List Char) : Prop where
  rest : c.rest = cs.drop c.place.offset
  offset_le : c.place.offset ≤ cs.length + 1
  place : c.place = .ofOffset cs c.place.offset

namespace Cursor.In

variable {cs : List Char}

theorem ofSource (source : String) : (Cursor.ofSource source).In source.toList :=
  ⟨rfl, Nat.zero_le _, Place.first_eq _⟩

section

variable {c : Cursor} (hc : c.In cs) {xs r : List Char} (h : c.rest = xs ++ r)

include hc h

theorem drop_eq : cs.drop (c.place.offset + xs.length) = r := by
  rw [← List.drop_drop, ← hc.rest, h, List.drop_left]

theorem moveAll_place : c.place.moveAll xs = .ofOffset cs (c.place.offset + xs.length) := by
  rw [hc.place]
  exact Place.moveAll_ofOffset (hc.rest.symm.trans h)

/-- A part of the rest is found in the text at the offset of the cursor. -/
theorem extract_eq : cs.extract c.place.offset (c.place.offset + xs.length) = xs := by
  rw [List.extract_eq_take_drop, Nat.add_sub_cancel_left, ← hc.rest, h, List.take_left]

end

theorem length_eq {c : Cursor} (hc : c.In cs) (hne : c.rest ≠ []) :
    c.place.offset + c.rest.length = cs.length := by
  have hpos := List.length_pos_iff.2 hne
  have hlen := congrArg List.length hc.rest
  rw [List.length_drop] at hlen
  omega

theorem step {c d : Cursor} {t : Token} {gap word : List Char} (hc : c.In cs)
    (h : Step c t d gap word) : d.In cs := by
  have hrest : c.rest = (gap ++ word) ++ d.rest := by rw [h.rest, List.append_assoc]
  have hdrop := hc.drop_eq hrest
  have hlen := hc.length_eq (by simp [hrest, h.word_ne])
  have hplace := hc.moveAll_place hrest
  rw [hrest, List.length_append] at hlen
  rw [Place.moveAll_append] at hplace
  rcases h.place with hd | ⟨hnil, -, -, hd⟩
  · rw [hplace] at hd
    have hoffset := congrArg Place.offset hd
    simp only [Place.ofOffset] at hoffset
    rw [← hoffset] at hdrop hd
    exact ⟨hdrop.symm, by omega, hd⟩
  · -- the word is cut off, and `d` is one step beyond the text
    rw [hnil, List.length_nil, Nat.add_zero] at hlen
    rw [hplace, Place.past_ofOffset (Nat.le_of_eq hlen.symm)] at hd
    have hoffset := congrArg Place.offset hd
    simp only [Place.ofOffset] at hoffset
    refine ⟨?_, by omega, ?_⟩
    · rw [hnil, eq_comm, List.drop_eq_nil_iff]
      omega
    · rw [hoffset]
      exact hd

/-- The span of a token covers its word. -/
theorem extract_word {c d : Cursor} {t : Token} {gap word : List Char} (hc : c.In cs)
    (h : Step c t d gap word) : cs.extract t.span.start t.span.stop = word := by
  obtain ⟨hstop, hcases⟩ := h.stop_eq
  rw [List.extract_eq_take_drop, h.start_eq, hc.drop_eq h.rest, hstop]
  rcases hcases with hd | ⟨hnil, -, -, hd⟩
  · rw [hd, Nat.add_sub_cancel_left, List.take_left]
  · rw [hnil, List.append_nil, List.take_of_length_le (by omega)]

end Cursor.In

/-- The characters of a text from the offset `i` on that lie in front of each of some tokens, after
the one before it. -/
def gapsFrom (cs : List Char) : Nat → List Token → List (List Char)
  | _, [] => []
  | i, t :: ts => cs.extract i t.span.start :: gapsFrom cs t.span.stop ts

/-- How the tokens `ts` and then the end mark `e` lie in the text `cs` from the offset `i` on. -/
structure Tiling (cs : List Char) (i : Nat) (ts : List Token) (e : Token) : Prop where
  kinds : e.kind = .eof ∧ ∀ t ∈ ts, t.kind ≠ .eof
  widths : e.span.start = e.span.stop ∧ ∀ t ∈ ts, t.span.start < t.span.stop
  after : ∀ t ∈ ts ++ [e], i ≤ t.span.start
  ordered : (ts ++ [e]).Pairwise (·.span.stop ≤ ·.span.start)
  gaps : ∃ inner last, gapsFrom cs i (ts ++ [e]) = inner ++ [last] ∧
    (∀ gap ∈ inner, Blank false gap) ∧ Blank true last
  /-- Nothing is left after the end mark. -/
  whole : cs.length ≤ e.span.start
  bounded : ∀ t ∈ ts ++ [e], t.span.stop ≤ cs.length + 1
  /-- Only the last token can end beyond the text. -/
  overrun : ∀ pre t post, ts = pre ++ t :: post → cs.length < t.span.stop →
    post = [] ∧ t.kind.isQuoted = true ∧ isUnfinished (cs.drop t.span.start) = true
  overrun_end : cs.length < e.span.stop → cs.length < i ∨
    ∃ t, ts.getLast? = some t ∧ cs.length < t.span.stop

namespace Tiling

variable {cs : List Char} {i : Nat}

/-- Beyond the text there is no token, which would have to end even further. -/
theorem eq_nil {ts : List Token} {e : Token} (h : Tiling cs i ts e) (hi : cs.length < i) :
    ts = [] := by
  cases ts with
  | nil => rfl
  | cons t ts =>
    have hafter := h.after t (by simp)
    have hwidth := h.widths.2 t (by simp)
    have hbound := h.bounded t (by simp)
    omega

/-- Only a gap is left. -/
theorem last {c : Cursor} (hc : c.In cs) (hrest : c.skipGap.rest = []) :
    Tiling cs c.place.offset [] c.endToken := by
  obtain ⟨gap, hgap, hplace, hblank⟩ := c.skipGap_spec
  rw [hrest] at hgap hblank
  have hstart : c.endToken.span.start = c.place.offset + gap.length := by
    rw [Cursor.endToken, Span.between, hplace, Place.offset_moveAll]
  have hstop : c.endToken.span.stop = c.endToken.span.start := rfl
  have hlen : cs.length ≤ c.place.offset + gap.length := List.drop_eq_nil_iff.1 (hc.drop_eq hgap)
  have hoffset := hc.offset_le
  -- a cursor beyond the text has no gap before it
  have hle : gap.length = 0 ∨ c.place.offset + gap.length = cs.length := by
    by_cases hne : gap = []
    · exact .inl (by rw [hne, List.length_nil])
    · have h := hc.length_eq (by simp [hgap, hne])
      rw [hgap, List.append_nil] at h
      exact .inr h
  exact {
    kinds := ⟨rfl, by simp⟩
    widths := ⟨rfl, by simp⟩
    after := by simp [hstart]
    ordered := by simp
    gaps := by
      refine ⟨[], _, rfl, by simp, ?_⟩
      rwa [hstart, hc.extract_eq hgap]
    whole := by omega
    bounded := by
      simp only [List.nil_append, List.mem_singleton, forall_eq]
      omega
    overrun := by simp
    overrun_end := by
      intro h
      left
      omega }

/-- One more token in front. -/
theorem cons {c d : Cursor} {t e : Token} {gap word : List Char} {ts : List Token} (hc : c.In cs)
    (hstep : Cursor.Step c t d gap word) (hkind : t.kind ≠ .eof)
    (h : Tiling cs d.place.offset ts e) : Tiling cs c.place.offset (t :: ts) e := by
  have hword := List.length_pos_iff.2 hstep.word_ne
  have hlen := hc.length_eq (by simp [hstep.rest, hstep.word_ne])
  rw [hstep.rest, List.length_append, List.length_append] at hlen
  have hstart := hstep.start_eq
  obtain ⟨hstop, hcases⟩ := hstep.stop_eq
  have hlt : t.span.start < t.span.stop := by omega
  have hafter : ∀ u ∈ ts ++ [e], t.span.stop ≤ u.span.start := fun u hu => hstop ▸ h.after u hu
  exact {
    kinds := ⟨h.kinds.1, List.forall_mem_cons.2 ⟨hkind, h.kinds.2⟩⟩
    widths := ⟨h.widths.1, List.forall_mem_cons.2 ⟨hlt, h.widths.2⟩⟩
    after := by
      intro u hu
      rcases List.mem_cons.1 hu with rfl | hu
      · omega
      · have := hafter u hu
        omega
    ordered := List.pairwise_cons.2 ⟨hafter, h.ordered⟩
    gaps := by
      obtain ⟨inner, last, hgaps, hinner, hlast⟩ := h.gaps
      refine ⟨gap :: inner, last, ?_, List.forall_mem_cons.2 ⟨hstep.blank, hinner⟩, hlast⟩
      rw [List.cons_append, gapsFrom, hstop, hgaps, hstart, hc.extract_eq hstep.rest,
        List.cons_append]
    whole := h.whole
    bounded := by
      rw [List.cons_append, List.forall_mem_cons]
      exact ⟨by omega, h.bounded⟩
    overrun := by
      intro pre u post hsplit hu
      rcases List.cons_eq_append_iff.1 hsplit with ⟨rfl, hpost⟩ | ⟨pre', rfl, hts⟩
      · obtain ⟨rfl, rfl⟩ := List.cons.inj hpost
        rcases hcases with hd | ⟨hnil, hquoted, hun, hd⟩
        · omega
        · -- `d` is beyond the text, where no token follows
          refine ⟨h.eq_nil (by omega), hquoted, ?_⟩
          rw [hstart, hc.drop_eq hstep.rest, hnil, List.append_nil]
          exact hun
      · exact h.overrun pre' u post hts hu
    overrun_end := by
      intro he
      right
      rcases h.overrun_end he with hd | ⟨u, hu, hlast⟩
      · obtain rfl := h.eq_nil hd
        exact ⟨t, rfl, by omega⟩
      · refine ⟨u, ?_, hlast⟩
        rw [List.getLast?_cons, hu]
        rfl }

end Tiling

namespace Cursor

/-- Where there is no token, only a gap is left. -/
theorem rest_skipGap_of_none {c : Cursor} (h : c.next? = none) : c.skipGap.rest = [] := by
  unfold next? at h
  simp only at h
  split at h
  · assumption
  · cases h

/-- At the end of the text the cursor stays, and so does the end mark. -/
theorem nextTokens_of_none {c : Cursor} (h : c.skipGap.rest = []) (n : Nat) :
    nextTokens n c = List.replicate n c.endToken := by
  induction n generalizing c with
  | zero => rfl
  | succ n ih =>
    have hnone : c.next? = none := by
      rw [next?]
      simp only [h]
    have hskip : c.skipGap.skipGap = c.skipGap := by
      rw [skipGap, h, Gap.skip, ← h]
    have hend : c.skipGap.endToken = c.endToken := by
      rw [endToken, hskip, endToken]
    rw [nextTokens, next, hnone, Option.getD_none, ih (by rw [hskip, h]), hend,
      List.replicate_succ]

theorem tiling {c : Cursor} {cs : List Char} (hc : c.In cs) :
    ∃ ts e, c.tokens = ts ++ [e] ∧ Tiling cs c.place.offset ts e ∧
      ∀ n, nextTokens (ts.length + 1 + n) c = ts ++ List.replicate (n + 1) e := by
  fun_induction tokens c with
  | case1 c t d h ih =>
    obtain ⟨gap, word, hstep⟩ := step_of_next? h
    obtain ⟨ts, e, htokens, htiling, hnext⟩ := ih (hc.step hstep)
    refine ⟨t :: ts, e, by rw [htokens, List.cons_append],
      htiling.cons hc hstep (next?_ne_eof h), fun n => ?_⟩
    have hlen : (t :: ts).length + 1 + n = ts.length + 1 + n + 1 := by
      rw [List.length_cons]
      omega
    rw [hlen, nextTokens, next, h, Option.getD_some, hnext, List.cons_append]
  | case2 c h =>
    have hrest := rest_skipGap_of_none h
    refine ⟨[], c.endToken, rfl, .last hc hrest, fun n => ?_⟩
    rw [nextTokens_of_none hrest, List.nil_append, List.length_nil, Nat.zero_add, Nat.add_comm]

end Cursor

/-- **Tokens tile the source.** They end with the only end mark. Their spans are not empty, in order
and apart, and what is left between them, before the first and after the last is blank. No span ends
more than one step beyond the source, and one that does belongs to a literal that the end of the
source cuts off, which is then the last token, or to the end mark after it. Asking for more tokens
gives the end mark again. -/
theorem tokens_tile_source (source : String) :
    ∃ ts e, Token.ofSource source = ts ++ [e] ∧ Tiling source.toList 0 ts e ∧
      ∀ n, Cursor.nextTokens (ts.length + 1 + n) (.ofSource source) =
        ts ++ List.replicate (n + 1) e :=
  Cursor.tiling (.ofSource source)

/-! ## Single tokens -/

namespace Cursor

/-- Every token but the end mark is the next one of some cursor, and the tokens after it are those
that follow there. -/
theorem exists_next {c : Cursor} {cs : List Char} (hc : c.In cs) {t : Token} {pre post : List Token}
    (h : c.tokens = pre ++ t :: post) (hkind : t.kind ≠ .eof) :
    ∃ c' d : Cursor, c'.In cs ∧ c'.next? = some (t, d) ∧ d.tokens = post := by
  fun_induction tokens c generalizing pre with
  | case1 c u d hnext ih =>
    rcases List.cons_eq_append_iff.1 h with ⟨rfl, hpost⟩ | ⟨pre, rfl, hmore⟩
    · obtain ⟨rfl, rfl⟩ := List.cons.inj hpost
      exact ⟨c, d, hc, hnext, rfl⟩
    · obtain ⟨gap, word, hstep⟩ := step_of_next? hnext
      exact ih (hc.step hstep) hmore
  | case2 c hnone =>
    have ht : t ∈ [c.endToken] := by simp [h]
    rw [List.mem_singleton.1 ht] at hkind
    exact absurd rfl hkind

section

variable {c : Cursor} {cs : List Char} (hc : c.In cs) {t : Token} (ht : t ∈ c.tokens)

include hc ht

theorem located_of_mem : t.span.Located cs := by
  fun_induction tokens c with
  | case1 c u d hnext ih =>
    obtain ⟨gap, word, hstep⟩ := step_of_next? hnext
    rcases List.mem_cons.1 ht with rfl | ht
    · rw [hstep.span, hc.moveAll_place hstep.rest]
      exact ⟨rfl, rfl⟩
    · exact ih (hc.step hstep) ht
  | case2 c hnone =>
    obtain ⟨gap, hrest, hplace, -⟩ := c.skipGap_spec
    rw [List.mem_singleton.1 ht, endToken, hplace, hc.moveAll_place hrest]
    exact ⟨rfl, rfl⟩

/-- A name token covers its name. -/
theorem extract_of_ident {name : String} (hkind : t.kind = .ident name) :
    String.ofList (cs.extract t.span.start t.span.stop) = name := by
  obtain ⟨pre, post, hsplit⟩ := List.append_of_mem ht
  obtain ⟨c', d, hc', hnext, -⟩ := exists_next hc hsplit (by simp [hkind])
  obtain ⟨gap, word, hstep⟩ := step_of_next? hnext
  obtain ⟨ch, r, -, hword, hread⟩ := hstep.lexeme
  rw [hc'.extract_word hstep, hword]
  exact Lexeme.text_of_ident (hread.symm.trans hkind)

end

end Cursor

end MiniC
