import MiniC.Proofs.Lexemes

/-!
# Literals for all values

Between quotes a character stands for itself or is written as a backslash and another character
(`Spells`). Which characters cannot stand for themselves depends on the quotes: in a character
literal it is the backslash alone, in a string also the double quote and the line feed. Each of
these can be escaped, so there is a literal for every string and for every character, and the value
that is read from a literal is the one it was written for (`literals_express_values`), whatever
follows.
-/

namespace MiniC

/-! ## Writing values -/

/-- The character that stands for `c` after a backslash. -/
def escapeOf? (c : Char) : Option Char :=
  match c with
  | '"' => some '"'
  | '\\' => some '\\'
  | '\n' => some 'n'
  | '\r' => some 'r'
  | '\t' => some 't'
  | '\x00' => some '0'
  | _ => none

/-- The text writes the character `c` where the characters of `reserved` have to be escaped. -/
inductive Spells (reserved : List Char) (c : Char) : List Char → Prop
  | raw (h : c ∉ reserved) : Spells reserved c [c]
  | escaped {e : Char} (h : escapeOf? c = some e) : Spells reserved c ['\\', e]

/-- The text writes some characters one after the other. -/
inductive SpellsAll (reserved : List Char) : List Char → List Char → Prop
  | nil : SpellsAll reserved [] []
  | cons {c : Char} {cs piece text : List Char} (head : Spells reserved c piece)
    (tail : SpellsAll reserved cs text) : SpellsAll reserved (c :: cs) (piece ++ text)

namespace Quoted

/-- What cannot stand for itself between double quotes. -/
def stringReserved : List Char := ['"', '\\', '\n']

/-- What cannot stand for itself between single quotes. -/
def charReserved : List Char := ['\\']

end Quoted

theorem unescape_of_escapeOf? {c e : Char} (h : escapeOf? c = some e) : unescape e = c := by
  unfold escapeOf? at h
  split at h <;> cases h <;> rfl

section

variable {reserved : List Char} (hreserved : ∀ c ∈ reserved, (escapeOf? c).isSome = true)

include hreserved

theorem exists_spells (c : Char) : ∃ text, Spells reserved c text := by
  by_cases hc : c ∈ reserved
  · obtain ⟨e, he⟩ := Option.isSome_iff_exists.1 (hreserved c hc)
    exact ⟨_, .escaped he⟩
  · exact ⟨_, .raw hc⟩

theorem exists_spellsAll (cs : List Char) : ∃ text, SpellsAll reserved cs text := by
  induction cs with
  | nil => exact ⟨[], .nil⟩
  | cons c cs ih =>
    obtain ⟨piece, hpiece⟩ := exists_spells hreserved c
    obtain ⟨text, htext⟩ := ih
    exact ⟨piece ++ text, .cons hpiece htext⟩

end

/-! ## Reading them back -/

namespace Quoted

/-- A string ends with the first quote that is not escaped, and has the value that was written. -/
theorem string_of_spellsAll {v text : List Char} (h : SpellsAll stringReserved v text)
    (rest : List Char) : string (text ++ '"' :: rest) = ⟨v, text.length + 1, false⟩ := by
  induction h with
  | nil => rfl
  | cons head _ ih =>
    cases head with
    | raw hc =>
      simp only [stringReserved, List.mem_cons, List.not_mem_nil, or_false, not_or] at hc
      obtain ⟨hquote, hslash, hline⟩ := hc
      rw [List.append_assoc, List.singleton_append, string, if_neg hquote, if_neg hline, ih]
      · rfl
      · exact fun h _ => hslash h
      · exact fun _ _ h _ => hslash h
    | escaped he =>
      rw [List.append_assoc, List.cons_append, List.singleton_append, string, ih,
        unescape_of_escapeOf? he]
      rfl

/-- A character literal takes one character, even if that is a quote, and then the closing one. -/
theorem char_of_spells {c : Char} {text : List Char} (h : Spells charReserved c text)
    (rest : List Char) : char (text ++ '\'' :: rest) = ⟨c, text.length + 1, false⟩ := by
  cases h with
  | raw hc =>
    have hslash : c ≠ '\\' := by simpa [charReserved] using hc
    rw [List.singleton_append, char]
    · rfl
    · exact fun h _ => hslash h
    · exact fun _ _ h _ => hslash h
  | escaped he =>
    rw [List.cons_append, List.singleton_append, char, unescape_of_escapeOf? he]
    rfl

end Quoted

/-! ## Literals at the front of a source -/

/-- The source `word ++ rest` starts with a token of this kind that covers `word`, and goes on with
the tokens of `rest`, placed after it. -/
def StandsFirst (word : List Char) (kind : Kind) (rest : List Char) : Prop :=
  Token.ofSource (.ofList (word ++ rest)) =
    ⟨kind, ⟨0, word.length, 1, 1⟩⟩ ::
      (Token.ofSource (.ofList rest)).map
        (Token.within (.ofOffset (word ++ rest) word.length))

/-- A lexeme that is not cut off and starts no gap stands first. -/
theorem standsFirst_of_read {ch : Char} {r rest : List Char} {kind : Kind}
    (hgap : opensGap (ch :: (r ++ rest)) = false)
    (hread : Lexeme.read ch (r ++ rest) = ⟨kind, r.length, false⟩) :
    StandsFirst (ch :: r) kind rest := by
  have hskip : (Cursor.mk .first (ch :: (r ++ rest))).skipGap = ⟨.first, ch :: (r ++ rest)⟩ :=
    Cursor.skipGap_of_opensGap hgap
  have hnext := Cursor.next?_of_rest (congrArg Cursor.rest hskip)
  have hplace : Place.first.moveAll (ch :: r) =
      .ofOffset (ch :: r ++ rest) (ch :: r).length := by
    rw [Place.first_eq (ch :: r ++ rest), Place.moveAll_ofOffset rfl, Nat.zero_add]
  have hstop : (⟨kind, r.length, false⟩ : Lexeme).stop .first ch (r ++ rest) =
      .ofOffset (ch :: r ++ rest) (ch :: r).length := by
    simp only [Lexeme.stop, List.take_left, hplace, Bool.false_eq_true, if_false]
  have hshift := Cursor.tokens_within (.ofOffset (ch :: r ++ rest) (ch :: r).length)
    (c := ⟨.first, rest⟩) Place.counted_first
  rw [hskip, hread, List.drop_left, hstop] at hnext
  rw [StandsFirst, Token.ofSource, Token.ofSource, Cursor.ofSource, Cursor.ofSource,
    String.toList_ofList, String.toList_ofList, ← hshift]
  exact Cursor.tokens_of_next? hnext

theorem string_standsFirst {v : String} {text : List Char}
    (h : SpellsAll Quoted.stringReserved v.toList text) (rest : List Char) :
    StandsFirst ('"' :: text ++ ['"']) (.string v) rest := by
  have hread := Quoted.string_of_spellsAll h rest
  rw [List.cons_append]
  apply standsFirst_of_read rfl
  rw [List.append_assoc, List.singleton_append]
  change (⟨.string (.ofList (Quoted.string _).value), (Quoted.string _).width, _⟩ : Lexeme) = _
  rw [hread, String.ofList_toList, List.length_append, List.length_singleton]

theorem char_standsFirst {c : Char} {text : List Char} (h : Spells Quoted.charReserved c text)
    (rest : List Char) : StandsFirst ('\'' :: text ++ ['\'']) (.character c) rest := by
  have hread := Quoted.char_of_spells h rest
  rw [List.cons_append]
  apply standsFirst_of_read rfl
  rw [List.append_assoc, List.singleton_append]
  change (⟨.character (Quoted.char _).value, (Quoted.char _).width, _⟩ : Lexeme) = _
  rw [hread, List.length_append, List.length_singleton]

/-- **Literals express all values.** Every string can be written between double quotes and every
character between single quotes. However this is done, the source that starts with the literal has
as its first token the literal with that value, up to and with the closing quote, and then the
tokens of what follows. -/
theorem literals_express_values (rest : List Char) :
    (∀ v : String,
      (∃ text, SpellsAll Quoted.stringReserved v.toList text) ∧
      ∀ text, SpellsAll Quoted.stringReserved v.toList text →
        StandsFirst ('"' :: text ++ ['"']) (.string v) rest) ∧
    ∀ c : Char,
      (∃ text, Spells Quoted.charReserved c text) ∧
      ∀ text, Spells Quoted.charReserved c text →
        StandsFirst ('\'' :: text ++ ['\'']) (.character c) rest := by
  constructor
  · intro v
    exact ⟨exists_spellsAll (by simp [Quoted.stringReserved, escapeOf?]) v.toList,
      fun text h => string_standsFirst h rest⟩
  · intro c
    exact ⟨exists_spells (by simp [Quoted.charReserved, escapeOf?]) c,
      fun text h => char_standsFirst h rest⟩

/-- A quote, a backslash before the closing quote, a line feed, and a tab in both ways. -/
def thornyText : List Char :=
  ['\\', '"'] ++ (['\\', 'n'] ++ (['\t'] ++ (['\\', 't'] ++ (['\\', '\\'] ++ []))))

theorem thornyText_stands :
    (SpellsAll Quoted.stringReserved "\"\n\t\t\\".toList thornyText ∧
      StandsFirst ('"' :: thornyText ++ ['"']) (.string "\"\n\t\t\\") ['"', 'x']) ∧
    (Spells Quoted.charReserved '\'' ['\''] ∧
      StandsFirst ['\'', '\'', '\''] (.character '\'') ['"', 'x']) ∧
    Spells Quoted.charReserved '\n' ['\n'] ∧
      StandsFirst ['\'', '\n', '\''] (.character '\n') ['"', 'x'] := by
  obtain ⟨hstring, hchar⟩ := literals_express_values ['"', 'x']
  have htext : SpellsAll Quoted.stringReserved "\"\n\t\t\\".toList thornyText := by
    refine .cons (.escaped rfl) (.cons (.escaped rfl) (.cons (.raw (by decide)) ?_))
    exact .cons (.escaped rfl) (.cons (.escaped rfl) .nil)
  have hquote : Spells Quoted.charReserved '\'' ['\''] := .raw (by decide)
  have hline : Spells Quoted.charReserved '\n' ['\n'] := .raw (by decide)
  exact ⟨⟨htext, (hstring _).2 _ htext⟩, ⟨hquote, (hchar _).2 _ hquote⟩, hline,
    (hchar _).2 _ hline⟩

end MiniC
