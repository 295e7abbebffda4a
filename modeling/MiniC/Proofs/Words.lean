import Mathlib.Data.List.TakeWhile
import MiniC.Proofs.Rendering

/-!
# Words of the language

A name that stands in a token has the text of a name (`isName`), and an integer has that of one
(`isInteger`). Both are exact: each such text, read by itself, is a token of that kind
(`isName_iff`, `isInteger_iff`). The end mark is no word, and stands at the end of all tokens only.
-/

namespace MiniC

/-- The word of the token, if it is one, has the text that its kind asks for. -/
def Kind.Proper : Kind → Prop
  | .ident name => isName name
  | .integer text => isInteger text
  | .keyword _ | .character _ | .string _ | .mark _ | .unknown _ | .eof => True

theorem isInteger_ofList {c : Char} {r : List Char} :
    isInteger (String.ofList (c :: r)) = (c.isDigit && r.all isWordChar) := by
  rw [isInteger, String.toList_ofList]

theorem isName_ofList {c : Char} {r : List Char} :
    isName (String.ofList (c :: r)) = (isWordChar c && !c.isDigit && r.all isWordChar &&
      (Keyword.ofText? (String.ofList (c :: r))).isNone) := by
  rw [isName, String.toList_ofList]

namespace Lexeme

theorem kind_word (c : Char) (r : List Char) :
    (word c r).kind =
      if c.isDigit then .integer (String.ofList (c :: r.takeWhile isWordChar))
      else match Keyword.ofText? (String.ofList (c :: r.takeWhile isWordChar)) with
        | some k => .keyword k
        | none => .ident (String.ofList (c :: r.takeWhile isWordChar)) :=
  rfl

theorem word_proper {c : Char} (hc : isWordChar c = true) (r : List Char) :
    (word c r).kind.Proper := by
  have hall : (r.takeWhile isWordChar).all isWordChar = true := List.all_takeWhile
  rw [kind_word]
  by_cases hd : c.isDigit = true
  · rw [if_pos hd, Kind.Proper, isInteger_ofList, hd, hall, Bool.and_self]
  · rw [if_neg hd]
    split
    · exact trivial
    · rename_i hkey
      rw [Kind.Proper, isName_ofList, hc, hall, hkey]
      simp [hd]

theorem symbol_proper (c : Char) (r : List Char) : (symbol c r).kind.Proper := by
  unfold symbol
  split
  · exact trivial
  · split <;> exact trivial

theorem read_proper (c : Char) (r : List Char) : (read c r).kind.Proper := by
  unfold read
  split
  · rename_i hc
    exact word_proper hc r
  · split
    · exact trivial
    · split
      · exact trivial
      · exact symbol_proper c r

end Lexeme

namespace Cursor

theorem tokens_of_next? {c d : Cursor} {t : Token} (h : c.next? = some (t, d)) :
    c.tokens = t :: d.tokens := by
  rw [tokens]
  split
  · rename_i h'
    obtain ⟨rfl, rfl⟩ := Prod.mk.inj (Option.some.inj (h.symm.trans h'))
    rfl
  · rename_i h'
    cases h.symm.trans h'

theorem tokens_of_none {c : Cursor} (h : c.next? = none) : c.tokens = [c.endToken] := by
  rw [tokens]
  split
  · rename_i h'
    cases h.symm.trans h'
  · rfl

theorem next?_proper {c d : Cursor} {t : Token} (h : c.next? = some (t, d)) : t.kind.Proper := by
  unfold next? at h
  simp only at h
  split at h
  · cases h
  · cases h
    exact Lexeme.read_proper _ _

theorem tokens_proper (c : Cursor) : ∀ t ∈ c.tokens, t.kind.Proper := by
  fun_induction tokens c with
  | case1 c t d h ih => exact List.forall_mem_cons.2 ⟨next?_proper h, ih⟩
  | case2 c h => exact List.forall_mem_singleton.2 trivial

end Cursor

/-! ## The end mark -/

theorem Lexeme.read_ne_eof (c : Char) (r : List Char) : (read c r).kind ≠ .eof := by
  unfold read word symbol
  split_ifs <;> grind

theorem Cursor.next?_ne_eof {c d : Cursor} {t : Token} (h : c.next? = some (t, d)) :
    t.kind ≠ .eof := by
  unfold next? at h
  simp only at h
  split at h
  · cases h
  · cases h
    exact Lexeme.read_ne_eof _ _

/-- The end mark stands at the end, and only there. -/
theorem Cursor.tokens_ended (c : Cursor) :
    ∃ w, c.tokens.map (·.kind) = w ++ [.eof] ∧ .eof ∉ w := by
  fun_induction tokens c with
  | case1 c t d h ih =>
    obtain ⟨w, hw, heof⟩ := ih
    have ht := next?_ne_eof h
    exact ⟨t.kind :: w, congrArg (t.kind :: ·) hw, by simp [heof, ht.symm]⟩
  | case2 c h => exact ⟨[], rfl, by simp⟩

theorem Token.ofSource_ended (source : String) :
    ∃ w, (Token.ofSource source).map (·.kind) = w ++ [.eof] ∧ .eof ∉ w :=
  Cursor.tokens_ended _

/-! ## Words as sources -/

/-- No gap starts at a word. -/
theorem Gap.skip_of_isWordChar {c : Char} (h : isWordChar c = true) (p : Place) (r : List Char) :
    Gap.skip .between p (c :: r) = (p, c :: r) := by
  -- a gap starts with a slash or a blank, and neither belongs to words
  have hslash : c ≠ '/' := by
    rintro rfl
    revert h
    decide
  have hblank : isBlank c = false := by
    rw [Bool.eq_false_iff]
    intro hb
    simp only [isBlank, Bool.or_eq_true, decide_eq_true_eq] at hb
    rcases hb with ((rfl | rfl) | rfl) | rfl <;> revert h <;> decide
  unfold Gap.skip
  split <;> simp_all

/-- A word that is the whole text is a token of that text. -/
theorem Token.ofSource_word {c : Char} (hc : isWordChar c = true) {r : List Char}
    (hr : r.all isWordChar = true) :
    ∃ t ∈ Token.ofSource (String.ofList (c :: r)),
      t.kind = if c.isDigit then .integer (String.ofList (c :: r))
        else match Keyword.ofText? (String.ofList (c :: r)) with
          | some k => .keyword k
          | none => .ident (String.ofList (c :: r)) := by
  have hskip : (Cursor.ofSource (String.ofList (c :: r))).skipGap = ⟨.first, c :: r⟩ := by
    rw [Cursor.skipGap, Cursor.ofSource, String.toList_ofList, Gap.skip_of_isWordChar hc]
  have hnext : ∃ t d, (Cursor.ofSource (String.ofList (c :: r))).next? = some (t, d) ∧
      t.kind = (Lexeme.word c r).kind := by
    rw [Cursor.next?, hskip]
    simp only [Lexeme.read, if_pos hc]
    exact ⟨_, _, rfl, rfl⟩
  obtain ⟨t, d, hnext, hkind⟩ := hnext
  refine ⟨t, ?_, ?_⟩
  · rw [Token.ofSource, Cursor.tokens_of_next? hnext]
    exact List.mem_cons_self
  · rw [hkind, Lexeme.kind_word, List.takeWhile_eq_self_iff.2 (List.all_eq_true.1 hr)]

/-- Names are the texts of the name tokens of all sources. -/
theorem isName_iff (name : String) :
    isName name = true ↔ ∃ source, ∃ t ∈ Token.ofSource source, t.kind = .ident name := by
  constructor
  · intro h
    refine ⟨name, ?_⟩
    obtain ⟨cs, rfl⟩ : ∃ cs, name = String.ofList cs := ⟨name.toList, by simp⟩
    cases cs with
    | nil => cases h
    | cons c r =>
      simp only [isName_ofList, Bool.and_eq_true, Bool.not_eq_true', Option.isNone_iff_eq_none]
        at h
      obtain ⟨⟨⟨hc, hd⟩, hr⟩, hkey⟩ := h
      obtain ⟨t, hmem, hkind⟩ := Token.ofSource_word hc hr
      refine ⟨t, hmem, ?_⟩
      rw [hkind, hd, hkey]
      rfl
  · rintro ⟨source, t, hmem, hkind⟩
    have h := Cursor.tokens_proper _ t hmem
    rwa [hkind] at h

/-- Integers are the texts of the integer tokens of all sources. -/
theorem isInteger_iff (text : String) :
    isInteger text = true ↔ ∃ source, ∃ t ∈ Token.ofSource source, t.kind = .integer text := by
  constructor
  · intro h
    refine ⟨text, ?_⟩
    obtain ⟨cs, rfl⟩ : ∃ cs, text = String.ofList cs := ⟨text.toList, by simp⟩
    cases cs with
    | nil => cases h
    | cons c r =>
      simp only [isInteger_ofList, Bool.and_eq_true] at h
      obtain ⟨hd, hr⟩ := h
      have hc : isWordChar c = true := by simp [isWordChar, Char.isAlphanum, hd]
      obtain ⟨t, hmem, hkind⟩ := Token.ofSource_word hc hr
      exact ⟨t, hmem, by rw [hkind, if_pos hd]⟩
  · rintro ⟨source, t, hmem, hkind⟩
    have h := Cursor.tokens_proper _ t hmem
    rwa [hkind] at h

end MiniC
