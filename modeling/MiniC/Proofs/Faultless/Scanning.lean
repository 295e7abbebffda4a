import MiniC.Proofs.Words

/-!
# Scanning by position

The tokens of a source again, now found by a position that moves over its characters. Looking at a
character never fails, but the position also goes on where none is left. Two steps can fault: the
column of the position is its distance from the start of its line, which must not lie after it, and
a word is cut out of the source, in which it must end. The number `n` bounds how often a loop is
taken, and to take it more often is a fault as well.

`Reaches` says where a step leads from a cursor. No step of the scanner faults, and what it finds
are the tokens of the source (`Token.ofSource?_eq`).
-/

namespace MiniC

/-- A position in a source: its offset, its line, and the offset at which that line starts. -/
structure Scanner where
  pos : Nat
  line : Nat
  lineStart : Nat

/-- A scanning step by position; none for a fault. -/
abbrev Scan (α : Type) : Type := ReaderT (List Char) (StateT Scanner Option) α

namespace Scan

/-- What comes of the step at a position. -/
def run (g : Scan α) (cs : List Char) (σ : Scanner) : Option (α × Scanner) := g cs σ

def fault : Scan α := fun _ _ => (none : Option (α × Scanner))

def pos : Scan Nat := do return (← get).pos

def line : Scan Nat := do return (← get).line

/-- The column of the position, counted from one. -/
def column : Scan Nat := do
  let σ ← get
  if σ.lineStart ≤ σ.pos then return σ.pos - σ.lineStart + 1 else fault

def peek? : Scan (Option Char) := do return (← read)[← pos]?

/-- The character after the next. -/
def peekNext? : Scan (Option Char) := do return (← read)[(← pos) + 1]?

/-- Goes on by one, past the end of the source too. -/
def advance : Scan (Option Char) := do
  let c ← peek?
  modify fun σ =>
    if c = some '\n' then ⟨σ.pos + 1, σ.line + 1, σ.pos + 1⟩
    else ⟨σ.pos + 1, σ.line, σ.lineStart⟩
  return c

/-- The characters from the offset `start` up to the position. -/
def slice (start : Nat) : Scan String := do
  let cs ← read
  let stop ← pos
  if start ≤ stop ∧ stop ≤ cs.length then return String.ofList ((cs.take stop).drop start)
  else fault

/-! ## Gaps -/

/-- Up to the end of the line. -/
def skipLine : Nat → Scan Unit
  | 0 => fault
  | n + 1 => do
    match ← peek? with
    | none => return
    | some c =>
      if c = '\n' then return
      else do
        let _ ← advance
        skipLine n

/-- Past the next end of a block comment. -/
def skipBlock : Nat → Scan Unit
  | 0 => fault
  | n + 1 => do
    match ← peek? with
    | none => return
    | some c => do
      let next ← peekNext?
      let _ ← advance
      if c = '*' ∧ next = some '/' then do
        let _ ← advance
        return
      else skipBlock n

def skipGap : Nat → Scan Unit
  | 0 => fault
  | n + 1 => do
    match ← peek? with
    | none => return
    | some c => do
      let next ← peekNext?
      if isBlank c then do
        let _ ← advance
        skipGap n
      else if c = '/' ∧ next = some '/' then do
        skipLine (n + 1)
        skipGap n
      else if c = '/' ∧ next = some '*' then do
        let _ ← advance
        let _ ← advance
        skipBlock n
        skipGap n
      else return

/-! ## Lexemes -/

def skipWord : Nat → Scan Unit
  | 0 => fault
  | n + 1 => do
    match ← peek? with
    | none => return
    | some c =>
      if isWordChar c then do
        let _ ← advance
        skipWord n
      else return

/-- The word that starts at the offset `start` with the character `c`. -/
def word (n start : Nat) (c : Char) : Scan Kind := do
  skipWord n
  let text ← slice start
  if c.isDigit then return .integer text
  else match Keyword.ofText? text with
    | some k => return .keyword k
    | none => return .ident text

/-- A character inside quotes; none where the source ends in it. -/
def escaped : Scan (Option Char) := do
  match ← advance with
  | none => return none
  | some c =>
    if c = '\\' then do return (← advance).map unescape
    else return some c

/-- A string after its opening quote. -/
def string : Nat → Scan (List Char)
  | 0 => fault
  | n + 1 => do
    match ← peek? with
    | none => return []
    | some c =>
      if c = '"' then do
        let _ ← advance
        return []
      else if c = '\n' then return []
      else do
        match ← escaped with
        | none => return []
        | some c => do
          let more ← string n
          return c :: more

/-- Takes the closing quote of a character literal, if it comes next. -/
def closing : Scan Unit := do
  if (← peek?) = some '\'' then do
    let _ ← advance
    return
  else return

/-- A character literal after its opening quote. -/
def char : Scan Char := do
  let c ← escaped
  closing
  return c.getD '\x00'

/-- A mark after its first character `c`, or no token of the language. -/
def symbol (c : Char) : Scan Kind := do
  match (← peek?).bind (Mark.ofPair? c) with
  | some m => do
    let _ ← advance
    return .mark m
  | none =>
    match Mark.ofChar? c with
    | some m => return .mark m
    | none => return .unknown c

/-- The kind of the token that starts at the offset `start` with the character `c`. -/
def lexeme (n start : Nat) (c : Char) : Scan Kind := do
  if isWordChar c then word n start c
  else do
    let _ ← advance
    if c = '"' then return .string (String.ofList (← string n))
    else if c = '\'' then return .character (← char)
    else symbol c

/-- The kind of the token that starts here, where no gap starts. -/
def kind (n start : Nat) : Scan Kind := do
  match ← peek? with
  | none => return .eof
  | some c => lexeme n start c

def next (n : Nat) : Scan Token := do
  skipGap n
  let start ← pos
  let line ← line
  let column ← column
  let kind ← kind n start
  let stop ← pos
  return ⟨kind, ⟨start, stop, line, column⟩⟩

/-- All tokens from here on, the end mark last. -/
def tokens : Nat → Scan (List Token)
  | 0 => fault
  | n + 1 => do
    let t ← next n
    if t.kind = .eof then return [t]
    else do
      let more ← tokens n
      return t :: more

end Scan

/-- The tokens of a source, found by position; none for a fault. Every loop is taken at most once
for each character and once more at the end, and the tokens have one end more. -/
def Token.ofSource? (source : String) : Option (List Token) :=
  ((Scan.tokens (source.toList.length + 2)).run source.toList ⟨0, 1, 0⟩).map (·.1)

/-! ## Steps -/

theorem Scan.run_bind {g : Scan α} {f : α → Scan β} {cs : List Char} {σ σ' : Scanner} {a : α}
    (h : g.run cs σ = some (a, σ')) : (g >>= f).run cs σ = (f a).run cs σ' := by
  change ((g cs σ : Option (α × Scanner)) >>= fun q => f q.1 cs q.2) = _
  rw [run] at h
  rw [h]
  rfl

/-- The cursor stands at the position `σ`, whose line does not start after it. -/
structure Cursor.At (c : Cursor) (cs : List Char) (σ : Scanner) : Prop where
  rest : c.rest = cs.drop σ.pos
  place : c.place = ⟨σ.pos, σ.line, σ.pos - σ.lineStart + 1⟩
  lineStart_le : σ.lineStart ≤ σ.pos

/-- From where the cursor `c` stands the step gives `a`, and then the cursor `d` stands there. -/
def Reaches (g : Scan α) (a : α) (c d : Cursor) : Prop :=
  ∀ cs σ, c.At cs σ → ∃ σ', g.run cs σ = some (a, σ') ∧ d.At cs σ'

namespace Reaches

variable {α β : Type} {p : Place} {ch : Char} {r : List Char} {c d e : Cursor}

protected theorem pure {a : α} : Reaches (pure a) a c c := fun _ σ h => ⟨σ, rfl, h⟩

protected theorem bind {g : Scan α} {f : α → Scan β} {a : α} {b : β} (hg : Reaches g a c d)
    (hf : Reaches (f a) b d e) : Reaches (g >>= f) b c e := by
  intro cs σ h
  obtain ⟨σ', hrun, h'⟩ := hg cs σ h
  obtain ⟨σ'', hrun', h''⟩ := hf cs σ' h'
  exact ⟨σ'', (Scan.run_bind hrun).trans hrun', h''⟩

theorem pos : Reaches Scan.pos c.place.offset c c :=
  fun _ σ h => ⟨σ, by rw [h.place]; rfl, h⟩

theorem line : Reaches Scan.line c.place.line c c :=
  fun _ σ h => ⟨σ, by rw [h.place]; rfl, h⟩

theorem column : Reaches Scan.column c.place.column c c := by
  intro cs σ h
  refine ⟨σ, ?_, h⟩
  change (if σ.lineStart ≤ σ.pos then pure (σ.pos - σ.lineStart + 1) else Scan.fault :
    Scan Nat).run cs σ = _
  rw [if_pos h.lineStart_le, h.place]
  rfl

theorem peek? : Reaches Scan.peek? r.head? ⟨p, r⟩ ⟨p, r⟩ := by
  intro cs σ h
  have hrest : r = cs.drop σ.pos := h.rest
  refine ⟨σ, ?_, h⟩
  rw [hrest, List.head?_drop]
  rfl

theorem peekNext? : Reaches Scan.peekNext? r.head? ⟨p, ch :: r⟩ ⟨p, ch :: r⟩ := by
  intro cs σ h
  have hrest : r = cs.drop (σ.pos + 1) := by rw [← List.tail_drop, ← h.rest, List.tail_cons]
  refine ⟨σ, ?_, h⟩
  rw [hrest, List.head?_drop]
  rfl

/-- The position after the character `o`, or after none at the end of the source. -/
theorem run_advance {cs : List Char} {σ : Scanner} {o : Option Char} (h : cs[σ.pos]? = o) :
    Scan.advance.run cs σ = some (o, if o = some '\n' then ⟨σ.pos + 1, σ.line + 1, σ.pos + 1⟩
      else ⟨σ.pos + 1, σ.line, σ.lineStart⟩) := by
  rw [← h]
  rfl

theorem advance : Reaches Scan.advance (some ch) ⟨p, ch :: r⟩ ⟨p.move ch, r⟩ := by
  intro cs σ h
  have hdrop : cs.drop σ.pos = ch :: r := h.rest.symm
  have hhead : cs[σ.pos]? = some ch := by rw [← List.head?_drop, hdrop]; rfl
  have hrest : r = cs.drop (σ.pos + 1) := by rw [← List.tail_drop, hdrop, List.tail_cons]
  have hplace : p = ⟨σ.pos, σ.line, σ.pos - σ.lineStart + 1⟩ := h.place
  have hle := h.lineStart_le
  refine ⟨_, run_advance hhead, ?_⟩
  subst hplace
  by_cases hch : ch = '\n'
  · rw [if_pos (congrArg some hch), Place.move, if_pos hch]
    exact ⟨hrest, by simp, Nat.le_refl _⟩
  · rw [if_neg (fun hsome => hch (Option.some.inj hsome)), Place.move, if_neg hch]
    refine ⟨hrest, ?_, Nat.le_succ_of_le hle⟩
    simp only [Place.mk.injEq, true_and]
    omega

theorem advance_nil : Reaches Scan.advance none ⟨p, []⟩ ⟨p.past, []⟩ := by
  intro cs σ h
  have hdrop : cs.drop σ.pos = [] := h.rest.symm
  have hhead : cs[σ.pos]? = none := by rw [← List.head?_drop, hdrop]; rfl
  have hrest : [] = cs.drop (σ.pos + 1) := by rw [← List.tail_drop, hdrop]; rfl
  have hplace : p = ⟨σ.pos, σ.line, σ.pos - σ.lineStart + 1⟩ := h.place
  have hle := h.lineStart_le
  refine ⟨_, run_advance hhead, ?_⟩
  subst hplace
  rw [if_neg nofun]
  refine ⟨hrest, ?_, Nat.le_succ_of_le hle⟩
  simp only [Place.past, Place.mk.injEq, true_and]
  omega

end Reaches

/-! ## Gaps -/

namespace Gap

variable (p : Place) {c : Char} (r : List Char)

theorem skip_blank (h : isBlank c = true) :
    skip .between p (c :: r) = skip .between (p.move c) r := by
  rw [skip, if_pos h]
  all_goals
    rintro r' rfl
    cases h

theorem skip_stop (h : isBlank c = false) (hline : ¬(c = '/' ∧ r.head? = some '/'))
    (hblock : ¬(c = '/' ∧ r.head? = some '*')) : skip .between p (c :: r) = (p, c :: r) := by
  rw [skip, if_neg (by rw [h]; nofun)]
  · rintro r' rfl rfl
    exact hline ⟨rfl, rfl⟩
  · rintro r' rfl rfl
    exact hblock ⟨rfl, rfl⟩

/-- A block comment goes on. -/
theorem skip_inBlock (h : ¬(c = '*' ∧ r.head? = some '/')) :
    skip .inBlock p (c :: r) = skip .inBlock (p.move c) r := by
  rw [skip]
  rintro r' rfl rfl
  exact h ⟨rfl, rfl⟩

end Gap

namespace Reaches

theorem skipLine_cons {n : Nat} {p : Place} {c : Char} {r : List Char} {d : Cursor}
    (hc : c ≠ '\n') (h : Reaches (Scan.skipLine n) () ⟨p.move c, r⟩ d) :
    Reaches (Scan.skipLine (n + 1)) () ⟨p, c :: r⟩ d := by
  rw [Scan.skipLine]
  refine peek?.bind ?_
  simp only [List.head?_cons, if_neg hc]
  exact advance.bind h

/-- A line comment is skipped up to a cursor from which the gap goes on. -/
theorem skipLine {n : Nat} (p : Place) {r : List Char} (hn : r.length < n) :
    ∃ d, Reaches (Scan.skipLine n) () ⟨p, r⟩ d ∧
      Gap.skip .inLine p r = Gap.skip .between d.place d.rest ∧ d.rest.length ≤ r.length := by
  induction n generalizing p r with
  | zero => exact absurd hn (Nat.not_lt_zero _)
  | succ n ih =>
    cases r with
    | nil =>
      refine ⟨⟨p, []⟩, ?_, rfl, Nat.le_refl 0⟩
      rw [Scan.skipLine]
      exact peek?.bind .pure
    | cons c r =>
      by_cases hc : c = '\n'
      · refine ⟨⟨p, c :: r⟩, ?_, ?_, Nat.le_refl _⟩
        · rw [Scan.skipLine]
          refine peek?.bind ?_
          simp only [List.head?_cons, if_pos hc]
          exact .pure
        · have hblank : isBlank c = true := by rw [hc]; rfl
          rw [Gap.skip_blank p r hblank, Gap.skip, if_pos hc]
      · obtain ⟨d, hd, hskip, hlen⟩ := ih (p.move c) (Nat.lt_of_succ_lt_succ hn)
        refine ⟨d, skipLine_cons hc hd, ?_, Nat.le_succ_of_le hlen⟩
        rw [Gap.skip, if_neg hc, hskip]

/-- A block comment is skipped up to a cursor from which the gap goes on. -/
theorem skipBlock {n : Nat} (p : Place) {r : List Char} (hn : r.length < n) :
    ∃ d, Reaches (Scan.skipBlock n) () ⟨p, r⟩ d ∧
      Gap.skip .inBlock p r = Gap.skip .between d.place d.rest ∧ d.rest.length ≤ r.length := by
  induction n generalizing p r with
  | zero => exact absurd hn (Nat.not_lt_zero _)
  | succ n ih =>
    cases r with
    | nil =>
      refine ⟨⟨p, []⟩, ?_, rfl, Nat.le_refl 0⟩
      rw [Scan.skipBlock]
      exact peek?.bind .pure
    | cons c r =>
      by_cases hclose : c = '*' ∧ r.head? = some '/'
      · obtain ⟨rfl, hnext⟩ := hclose
        obtain ⟨r, rfl⟩ := List.head?_eq_some_iff.1 hnext
        refine ⟨⟨(p.move '*').move '/', r⟩, ?_, rfl, by simp; omega⟩
        rw [Scan.skipBlock]
        exact peek?.bind (peekNext?.bind (advance.bind (advance.bind .pure)))
      · obtain ⟨d, hd, hskip, hlen⟩ := ih (p.move c) (Nat.lt_of_succ_lt_succ hn)
        refine ⟨d, ?_, (Gap.skip_inBlock p r hclose).trans hskip, Nat.le_succ_of_le hlen⟩
        rw [Scan.skipBlock]
        refine peek?.bind (peekNext?.bind (advance.bind ?_))
        rw [if_neg hclose]
        exact hd

/-- A gap that goes on from `d` ends where the gap from `d` does. -/
theorem skipGap_of_skip {p : Place} {r : List Char} {d : Cursor}
    (h : Gap.skip .between p r = Gap.skip .between d.place d.rest) :
    Cursor.skipGap ⟨p, r⟩ = d.skipGap := by
  rw [Cursor.skipGap, h]
  rfl

theorem skipGap {n : Nat} {c : Cursor} (hn : c.rest.length < n) :
    Reaches (Scan.skipGap n) () c c.skipGap := by
  induction n generalizing c with
  | zero => exact absurd hn (Nat.not_lt_zero _)
  | succ n ih =>
    obtain ⟨p, r⟩ := c
    rw [Scan.skipGap]
    refine peek?.bind ?_
    cases r with
    | nil => exact .pure
    | cons c r =>
      have hr : r.length < n := Nat.lt_of_succ_lt_succ hn
      refine peekNext?.bind ?_
      by_cases hblank : isBlank c = true
      · rw [if_pos hblank, skipGap_of_skip (d := ⟨p.move c, r⟩) (Gap.skip_blank p r hblank)]
        exact advance.bind (ih hr)
      rw [if_neg hblank]
      by_cases hline : c = '/' ∧ r.head? = some '/'
      · rw [if_pos hline]
        obtain ⟨rfl, hnext⟩ := hline
        obtain ⟨r, rfl⟩ := List.head?_eq_some_iff.1 hnext
        -- the loop passes both slashes before the comment proper
        cases n with
        | zero => exact absurd hr (Nat.not_lt_zero _)
        | succ n =>
          obtain ⟨d, hd, hskip, hlen⟩ :=
            skipLine ((p.move '/').move '/') (Nat.lt_of_succ_lt_succ hr)
          have hslashes := skipLine_cons (by decide : '/' ≠ '\n') (skipLine_cons (by decide) hd)
          rw [skipGap_of_skip (p := p) (r := '/' :: '/' :: r) (d := d) hskip]
          refine hslashes.bind (ih ?_)
          rw [List.length_cons] at hr
          omega
      rw [if_neg hline]
      by_cases hblock : c = '/' ∧ r.head? = some '*'
      · rw [if_pos hblock]
        obtain ⟨rfl, hnext⟩ := hblock
        obtain ⟨r, rfl⟩ := List.head?_eq_some_iff.1 hnext
        rw [List.length_cons] at hr
        obtain ⟨d, hd, hskip, hlen⟩ :=
          skipBlock ((p.move '/').move '*') (Nat.lt_of_succ_lt hr)
        rw [skipGap_of_skip (p := p) (r := '/' :: '*' :: r) (d := d) hskip]
        exact advance.bind (advance.bind (hd.bind (ih (by omega))))
      · rw [if_neg hblock]
        have hstop := Gap.skip_stop p r (Bool.eq_false_iff.2 hblank) hline hblock
        rw [Cursor.skipGap, hstop]
        exact .pure

end Reaches

/-! ## Lexemes -/

/-- The cursor after `n` characters of the text `r` at `p`, and one step past them if `cut`. -/
def Cursor.after (p : Place) (r : List Char) (n : Nat) (cut : Bool) : Cursor :=
  let q := p.moveAll (r.take n)
  ⟨if cut then q.past else q, r.drop n⟩

/-- A character of a string that is not escaped. -/
theorem Quoted.string_cons {c : Char} (h : c ≠ '\\') (r : List Char) : string (c :: r) =
    if c = '"' then ⟨[], 1, false⟩ else if c = '\n' then ⟨[], 0, false⟩
    else ⟨c :: (string r).value, (string r).width + 1, (string r).cut⟩ := by
  rw [string]
  · exact fun hc => absurd hc h
  · exact fun _ _ hc => absurd hc h

theorem Quoted.char_cons {c : Char} (h : c ≠ '\\') (r : List Char) :
    char (c :: r) = ⟨c, closing r + 1, false⟩ := by
  rw [char]
  · exact fun hc => absurd hc h
  · exact fun _ _ hc => absurd hc h

namespace Reaches

theorem skipWord {n : Nat} (p : Place) {r : List Char} (hn : r.length < n) :
    Reaches (Scan.skipWord n) () ⟨p, r⟩
      ⟨p.moveAll (r.takeWhile isWordChar), r.dropWhile isWordChar⟩ := by
  induction n generalizing p r with
  | zero => exact absurd hn (Nat.not_lt_zero _)
  | succ n ih =>
    rw [Scan.skipWord]
    refine peek?.bind ?_
    cases r with
    | nil => exact .pure
    | cons c r =>
      by_cases hc : isWordChar c = true
      · simp only [List.head?_cons, if_pos hc, List.takeWhile_cons, List.dropWhile_cons]
        exact advance.bind (ih (p.move c) (Nat.lt_of_succ_lt_succ hn))
      · simp only [List.head?_cons, if_neg hc, List.takeWhile_cons, List.dropWhile_cons]
        exact .pure

/-- What lies between `start` and the position is in the source. -/
theorem run_slice {cs w r : List Char} {c : Char} {start : Nat} {σ : Scanner}
    (h : cs.drop start = c :: w ++ r) (hpos : σ.pos = start + (c :: w).length) :
    (Scan.slice start).run cs σ = some (String.ofList (c :: w), σ) := by
  have hlen := congrArg List.length h
  rw [List.length_drop, List.length_append] at hlen
  have hcons : (c :: w).length = w.length + 1 := rfl
  have hrange : start ≤ σ.pos ∧ σ.pos ≤ cs.length := by omega
  have hcut : (cs.take σ.pos).drop start = c :: w := by
    rw [hpos, List.drop_take, h, Nat.add_sub_cancel_left, List.take_left]
  change (if start ≤ σ.pos ∧ σ.pos ≤ cs.length then
    pure (String.ofList ((cs.take σ.pos).drop start)) else Scan.fault : Scan String).run cs σ = _
  rw [if_pos hrange, hcut]
  rfl

/-- A word is passed over and then cut out of the source. -/
theorem word {n : Nat} {p : Place} {c : Char} {r : List Char} (hn : (c :: r).length < n)
    (hc : isWordChar c = true) :
    Reaches (Scan.word n p.offset c) (Lexeme.word c r).kind ⟨p, c :: r⟩
      (.after (p.move c) r (Lexeme.word c r).tail (Lexeme.word c r).cut) := by
  intro cs σ h
  obtain ⟨σ', hskip, h'⟩ := skipWord p hn cs σ h
  rw [List.takeWhile_cons_of_pos hc, List.dropWhile_cons_of_pos hc] at h'
  have htake : r.take (Lexeme.word c r).tail = r.takeWhile isWordChar :=
    (List.prefix_iff_eq_take.1 (List.takeWhile_prefix isWordChar)).symm
  have hdropped : r.drop (Lexeme.word c r).tail = r.dropWhile isWordChar := by
    have hparts := List.take_append_drop (Lexeme.word c r).tail r
    rw [htake] at hparts
    exact List.append_cancel_left (hparts.trans List.takeWhile_append_dropWhile.symm)
  have hoffset : p.offset = σ.pos := by rw [show p = _ from h.place]
  have hpos : σ'.pos = p.offset + (c :: r.takeWhile isWordChar).length := by
    have hplace : _ = σ'.pos := congrArg Place.offset h'.place
    rw [← hplace, Place.offset_moveAll]
  have hdrop : cs.drop p.offset = c :: r.takeWhile isWordChar ++ r.dropWhile isWordChar := by
    rw [hoffset, ← h.rest, List.cons_append, List.takeWhile_append_dropWhile]
  refine ⟨σ', ?_, ?_⟩
  · rw [Scan.word, Scan.run_bind hskip, Scan.run_bind (run_slice hdrop hpos), Lexeme.kind_word]
    by_cases hdigit : c.isDigit
    · rw [if_pos hdigit, if_pos hdigit]
      rfl
    · rw [if_neg hdigit, if_neg hdigit]
      cases Keyword.ofText? (String.ofList (c :: r.takeWhile isWordChar)) <;> rfl
  · rw [Cursor.after, htake, hdropped]
    exact h'

section

variable {p : Place} {c : Char} {r : List Char}

theorem escaped_nil : Reaches Scan.escaped none ⟨p, []⟩ ⟨p.past, []⟩ :=
  advance_nil.bind .pure

theorem escaped_cut : Reaches Scan.escaped none ⟨p, ['\\']⟩ ⟨(p.move '\\').past, []⟩ :=
  advance.bind (advance_nil.bind .pure)

theorem escaped_pair :
    Reaches Scan.escaped (some (unescape c)) ⟨p, '\\' :: c :: r⟩ ⟨(p.move '\\').move c, r⟩ :=
  advance.bind (advance.bind .pure)

theorem escaped_cons (h : c ≠ '\\') :
    Reaches Scan.escaped (some c) ⟨p, c :: r⟩ ⟨p.move c, r⟩ := by
  refine advance.bind ?_
  simp only [if_neg h]
  exact .pure

end

theorem string {n : Nat} (p : Place) {r : List Char} (hn : r.length < n) :
    Reaches (Scan.string n) (Quoted.string r).value ⟨p, r⟩
      (.after p r (Quoted.string r).width (Quoted.string r).cut) := by
  induction n generalizing p r with
  | zero => exact absurd hn (Nat.not_lt_zero _)
  | succ n ih =>
    rw [Scan.string]
    refine peek?.bind ?_
    cases r with
    | nil => exact .pure
    | cons c r =>
      have hr : r.length < n := Nat.lt_of_succ_lt_succ hn
      by_cases hescape : c = '\\'
      · subst hescape
        cases r with
        | nil => exact escaped_cut.bind .pure
        | cons c r => exact escaped_pair.bind ((ih _ (Nat.lt_of_succ_lt hr)).bind .pure)
      · rw [Quoted.string_cons hescape]
        by_cases hquote : c = '"'
        · simp only [List.head?_cons, if_pos hquote]
          exact advance.bind .pure
        by_cases hend : c = '\n'
        · simp only [List.head?_cons, if_neg hquote, if_pos hend]
          exact .pure
        · simp only [List.head?_cons, if_neg hquote, if_neg hend]
          exact (escaped_cons hescape).bind ((ih _ hr).bind .pure)

theorem closing (p : Place) (r : List Char) :
    Reaches Scan.closing () ⟨p, r⟩ (.after p r (Quoted.closing r) false) := by
  refine peek?.bind ?_
  by_cases hquote : r.head? = some '\''
  · obtain ⟨r, rfl⟩ := List.head?_eq_some_iff.1 hquote
    exact advance.bind .pure
  · have hclosing : Quoted.closing r = 0 := by
      rw [Quoted.closing]
      rintro r' rfl
      exact hquote rfl
    rw [if_neg hquote, hclosing]
    exact .pure

theorem char (p : Place) (r : List Char) : Reaches Scan.char (Quoted.char r).value ⟨p, r⟩
    (.after p r (Quoted.char r).width (Quoted.char r).cut) := by
  cases r with
  | nil => exact escaped_nil.bind ((closing p.past []).bind .pure)
  | cons c r =>
    by_cases hescape : c = '\\'
    · subst hescape
      cases r with
      | nil => exact escaped_cut.bind ((closing _ []).bind .pure)
      | cons c r => exact escaped_pair.bind ((closing _ r).bind .pure)
    · rw [Quoted.char_cons hescape]
      exact (escaped_cons hescape).bind ((closing _ r).bind .pure)

theorem symbol (p : Place) (c : Char) (r : List Char) :
    Reaches (Scan.symbol c) (Lexeme.symbol c r).kind ⟨p, r⟩
      (.after p r (Lexeme.symbol c r).tail (Lexeme.symbol c r).cut) := by
  refine peek?.bind ?_
  rw [Lexeme.symbol]
  cases hpair : r.head?.bind (Mark.ofPair? c) with
  | some m =>
    obtain ⟨c', hhead, -⟩ := Option.bind_eq_some_iff.1 hpair
    obtain ⟨r, rfl⟩ := List.head?_eq_some_iff.1 hhead
    exact advance.bind .pure
  | none =>
    cases Mark.ofChar? c with
    | some m => exact .pure
    | none => exact .pure

theorem lexeme {n : Nat} (p : Place) {c : Char} {r : List Char} (hn : (c :: r).length < n) :
    Reaches (Scan.lexeme n p.offset c) (Lexeme.read c r).kind ⟨p, c :: r⟩
      ⟨(Lexeme.read c r).stop p c r, r.drop (Lexeme.read c r).tail⟩ := by
  rw [Scan.lexeme, Lexeme.read]
  by_cases hword : isWordChar c = true
  · rw [if_pos hword, if_pos hword]
    exact word hn hword
  rw [if_neg hword, if_neg hword]
  refine advance.bind ?_
  by_cases hstring : c = '"'
  · rw [if_pos hstring, if_pos hstring]
    exact (string _ (Nat.lt_of_succ_lt hn)).bind .pure
  rw [if_neg hstring, if_neg hstring]
  by_cases hchar : c = '\''
  · rw [if_pos hchar, if_pos hchar]
    exact (char _ r).bind .pure
  · rw [if_neg hchar, if_neg hchar]
    exact symbol _ c r

theorem kind_nil (n : Nat) (p : Place) (start : Nat) :
    Reaches (Scan.kind n start) .eof ⟨p, []⟩ ⟨p, []⟩ :=
  peek?.bind .pure

theorem kind_cons {n : Nat} (p : Place) {c : Char} {r : List Char} (hn : (c :: r).length < n) :
    Reaches (Scan.kind n p.offset) (Lexeme.read c r).kind ⟨p, c :: r⟩
      ⟨(Lexeme.read c r).stop p c r, r.drop (Lexeme.read c r).tail⟩ :=
  peek?.bind (lexeme p hn)

/-- The end mark is found where only a gap is left. -/
theorem next_end {n : Nat} {c : Cursor} (hn : c.rest.length < n) (h : c.next? = none) :
    Reaches (Scan.next n) c.endToken c c.skipGap := by
  have hgap := skipGap hn
  unfold Cursor.next? at h
  rw [Cursor.endToken]
  generalize c.skipGap = d at h hgap
  obtain ⟨p, _ | ⟨ch, r⟩⟩ := d
  · refine hgap.bind (pos.bind (line.bind (column.bind ?_)))
    exact (kind_nil n p _).bind (pos.bind .pure)
  · cases h

theorem next_token {n : Nat} {c d : Cursor} {t : Token} (hn : c.rest.length < n)
    (h : c.next? = some (t, d)) : Reaches (Scan.next n) t c d := by
  have hgap := skipGap hn
  have hlen : c.skipGap.rest.length < n :=
    Nat.lt_of_le_of_lt (Gap.length_skip_le .between c.place c.rest) hn
  unfold Cursor.next? at h
  generalize c.skipGap = d' at h hgap hlen
  obtain ⟨p, _ | ⟨ch, r⟩⟩ := d'
  · cases h
  · cases h
    refine hgap.bind (pos.bind (line.bind (column.bind ?_)))
    exact (kind_cons p hlen).bind (pos.bind .pure)

theorem tokens {n : Nat} {c : Cursor} (hn : c.rest.length + 1 < n) :
    ∃ d, Reaches (Scan.tokens n) c.tokens c d := by
  induction n generalizing c with
  | zero => exact absurd hn (Nat.not_lt_zero _)
  | succ n ih =>
    rw [Scan.tokens, Cursor.tokens]
    split
    · rename_i t d hnext
      have hlt : d.rest.length < c.rest.length := Cursor.length_next? hnext
      obtain ⟨e, hmore⟩ := ih (c := d) (by omega)
      refine ⟨e, (next_token (by omega) hnext).bind ?_⟩
      rw [if_neg (Cursor.next?_ne_eof hnext)]
      exact hmore.bind .pure
    · rename_i hnext
      exact ⟨c.skipGap, (next_end (by omega) hnext).bind .pure⟩

end Reaches

/-- Scanning by position never faults, and finds the tokens of the source. -/
theorem Token.ofSource?_eq (source : String) : ofSource? source = some (ofSource source) := by
  have hn : (Cursor.ofSource source).rest.length + 1 < source.toList.length + 2 :=
    Nat.lt_succ_self _
  have hat : (Cursor.ofSource source).At source.toList ⟨0, 1, 0⟩ := ⟨rfl, rfl, Nat.le_refl 0⟩
  obtain ⟨d, h⟩ := Reaches.tokens hn
  obtain ⟨σ, hrun, -⟩ := h _ _ hat
  rw [ofSource?, hrun]
  rfl

-- one step past the end there is no word to cut out, and no column before the start of the line
example : (Scan.slice 0).run [] ⟨1, 1, 0⟩ = none := rfl
example : Scan.column.run [] ⟨0, 2, 1⟩ = none := rfl

end MiniC
