import MiniC.Json.Parser

/-!
# JSON values read back from their text

Every value reads back from its indented text (`parse?_pretty`), also with blanks after it. `Gets`
says what a reading gives and what it leaves. The induction is on the value, and is carried by what
may follow it: after a number there must be nothing that a number could go on with (`Ends`), and
what follows a value in its text, a comma or a new line, is no such thing.
-/

namespace MiniC.Json

/-- The reading gives `a` and leaves `rest`. -/
def Gets (r : Option (Taken α n)) (a : α) (rest : List Char) : Prop :=
  ∃ h, r = some ⟨a, rest, h⟩

theorem Gets.bind {r : Option (Taken α n)} {f : Taken α n → Option (Taken β m)} {a : α} {b : β}
    {rest after : List Char} (hr : Gets r a rest) (hf : ∀ h, Gets (f ⟨a, rest, h⟩) b after) :
    Gets (r >>= f) b after := by
  obtain ⟨h, rfl⟩ := hr
  exact hf h

/-! ## Blanks and marks -/

def Blanks (cs : List Char) : Prop := ∀ c ∈ cs, isBlank c = true

theorem blanks_nil : Blanks [] := by
  intro c hc
  cases hc

theorem blanks_singleton {c : Char} (h : isBlank c = true) : Blanks [c] := by
  intro d hd
  rw [List.mem_singleton.1 hd]
  exact h

theorem skipBlanks_append {blanks : List Char} (h : Blanks blanks) (cs : List Char) :
    skipBlanks (blanks ++ cs) = skipBlanks cs := List.dropWhile_append_of_pos h

theorem toList_newline (depth : Nat) :
    (newline depth).toList = '\n' :: List.replicate (2 * depth) ' ' := by
  simp [newline]

theorem blanks_newline (depth : Nat) : Blanks (newline depth).toList := by
  intro c hc
  rw [toList_newline] at hc
  rcases List.mem_cons.1 hc with rfl | hc
  · rfl
  · rw [(List.mem_replicate.1 hc).2]
    rfl

theorem readMark_gets {blanks : List Char} (hb : Blanks blanks) {c : Char}
    (hc : isBlank c = false) (rest : List Char) :
    Gets (readMark (blanks ++ c :: rest)) c rest := by
  have hskip : skipBlanks (blanks ++ c :: rest) = c :: rest := by
    rw [skipBlanks_append hb, skipBlanks, List.dropWhile_cons, hc]
    rfl
  unfold readMark
  split
  · rename_i hnil
    rw [hskip] at hnil
    cases hnil
  · rename_i hcons
    rw [hskip] at hcons
    cases hcons
    exact ⟨_, rfl⟩

/-! ## Strings -/

theorem hexDigit?_digitChar {n : Nat} (h : n < 16) : hexDigit? n.digitChar = some n := by
  have hall : ∀ i : Fin 16, hexDigit? (Nat.digitChar i) = some i.val := by decide
  exact hall ⟨n, h⟩

/-- A control character is written with the hexadecimal digits of its code. -/
theorem hex?_control {n : Nat} (h : n < 32) :
    hex? '0' '0' (Nat.digitChar (n / 16)) (Nat.digitChar (n % 16)) = some n := by
  have hzero : hexDigit? '0' = some 0 := by decide
  have hhigh := hexDigit?_digitChar (n := n / 16) (by omega)
  have hlow := hexDigit?_digitChar (n := n % 16) (by omega)
  simp only [hex?, hzero, hhigh, hlow, Option.bind_eq_bind, Option.bind_some, Option.pure_def,
    Option.some.injEq]
  omega

/-- A character that stands for itself. -/
theorem readCodes_plain {c : Char} (hquote : c ≠ '"') (hslash : c ≠ '\\') (hctl : ¬ c.toNat < 32)
    (cs : List Char) :
    readCodes (c :: cs) =
      (readCodes cs).bind fun (codes, rest) => some (c.toNat :: codes, rest) := by
  rw [readCodes]
  · rw [if_neg hquote, if_neg hctl]
    rfl
  · intro _ _ _ _ _ hc
    exact absurd hc hslash
  · intro _ _ hc
    exact absurd hc hslash

theorem readCodes_escaped (c : Char) (cs : List Char) :
    readCodes (escaped c ++ cs) =
      (readCodes cs).bind fun (codes, rest) => some (c.toNat :: codes, rest) := by
  fun_cases escaped c with
  | case8 c _ _ _ _ _ _ _ hctl =>
    simp only [List.cons_append, List.nil_append, readCodes, hex?_control hctl]
    rfl
  | case9 c hquote hslash _ _ _ _ _ hctl =>
    rw [List.singleton_append]
    exact readCodes_plain hquote hslash hctl cs
  | _ => rfl

theorem readCodes_text (s rest : List Char) :
    readCodes (s.flatMap escaped ++ '"' :: rest) = some (s.map Char.toNat, rest) := by
  induction s with
  | nil => rfl
  | cons c s ih =>
    rw [List.flatMap_cons, List.append_assoc, readCodes_escaped, ih]
    rfl

/-- No character is half of a surrogate pair. -/
theorem not_half (c : Char) : isHighHalf c.toNat = false ∧ isLowHalf c.toNat = false := by
  have hvalid : c.toNat.isValidChar := c.valid
  unfold Nat.isValidChar at hvalid
  simp only [isHighHalf, isLowHalf, Bool.and_eq_false_iff, decide_eq_false_iff_not]
  omega

theorem joinHalves_text (s : List Char) : joinHalves (s.map Char.toNat) = some s := by
  induction s with
  | nil => rfl
  | cons c s ih =>
    obtain ⟨hhigh, hlow⟩ := not_half c
    cases s with
    | nil => simp [joinHalves, hhigh, hlow]
    | cons d s =>
      simp only [List.map_cons] at ih ⊢
      rw [joinHalves, hhigh, hlow, ih]
      simp

theorem readString_gets (s : String) (rest : List Char) :
    Gets (readString (s.toList.flatMap escaped ++ '"' :: rest)) (some s) rest := by
  have hcodes := readCodes_text s.toList rest
  unfold readString
  split
  · rename_i codes left h
    rw [hcodes] at h
    cases h
    refine ⟨length_readCodes hcodes, ?_⟩
    simp only [joinHalves_text, Option.map_some, String.ofList_toList]
  · rename_i h
    rw [hcodes] at h
    cases h

/-! ## Numbers -/

/-- What follows cannot be part of a number. -/
def Ends (rest : List Char) : Prop :=
  ∀ c, rest.head? = some c → c.isDigit = false ∧ c ≠ '.' ∧ c ≠ 'e' ∧ c ≠ 'E'

theorem ends_cons {c : Char} (h : c.isDigit = false ∧ c ≠ '.' ∧ c ≠ 'e' ∧ c ≠ 'E')
    (rest : List Char) : Ends (c :: rest) := by
  intro d hd
  cases hd
  exact h

theorem ends_of_blanks {blanks : List Char} (h : Blanks blanks) : Ends blanks := by
  intro c hc
  have hblank := h c (List.mem_of_mem_head? hc)
  simp only [isBlank, Bool.or_eq_true, decide_eq_true_eq] at hblank
  rcases hblank with ((rfl | rfl) | rfl) | rfl
  all_goals decide

theorem ends_newline (depth : Nat) (rest : List Char) : Ends ((newline depth).toList ++ rest) := by
  rw [toList_newline, List.cons_append]
  exact ends_cons (by decide) _

/-- Only zero is written with a zero in front. -/
theorem head?_toDigits_ne {n : Nat} (h : 0 < n) : (Nat.toDigits 10 n).head? ≠ some '0' := by
  induction n using Nat.strongRecOn with
  | _ n ih =>
    by_cases hlt : n < 10
    · have hall : ∀ i : Fin 10, 0 < i.val → Nat.digitChar i ≠ '0' := by decide
      rw [Nat.toDigits_of_lt_base hlt, List.head?_cons, ne_eq, Option.some.injEq]
      exact hall ⟨n, hlt⟩ h
    · have hfirst := ih (n / 10) (by omega) (by omega)
      rw [Nat.toDigits_of_base_le (by decide) (by omega), List.head?_append]
      cases hhead : (Nat.toDigits 10 (n / 10)).head? with
      | none => exact absurd (List.head?_eq_none_iff.1 hhead) Nat.toDigits_ne_nil
      | some c =>
        rw [Option.some_or, ← hhead]
        exact hfirst

/-- The text of a number starts with a digit, so with none of the marks. -/
theorem toDigits_cons (n : Nat) :
    ∃ c digits, Nat.toDigits 10 n = c :: digits ∧ ∀ d : Char, d.isDigit = false → c ≠ d := by
  cases hdigits : Nat.toDigits 10 n with
  | nil => exact absurd hdigits Nat.toDigits_ne_nil
  | cons c digits =>
    refine ⟨c, digits, rfl, ?_⟩
    rintro d hd rfl
    have hc : c.isDigit = true :=
      Nat.isDigit_of_mem_toDigits (b := 10) (n := n) (by decide) (by decide) (by simp [hdigits])
    rw [hc] at hd
    cases hd

theorem not_isBlank_of_ne {c : Char} (h : ∀ d : Char, d.isDigit = false → c ≠ d) :
    isBlank c = false := by
  simp [isBlank, h ' ' (by decide), h '\t' (by decide), h '\n' (by decide), h '\r' (by decide)]

theorem readDigits_gets {rest : List Char} (hrest : Ends rest) (n : Nat) :
    Gets (readDigits (Nat.toDigits 10 n ++ rest)) (Nat.toDigits 10 n) rest := by
  have hend : rest.takeWhile Char.isDigit = [] := by
    cases rest with
    | nil => rfl
    | cons c rest => rw [List.takeWhile_cons, (hrest c rfl).1]; rfl
  have hdigits : (Nat.toDigits 10 n ++ rest).takeWhile Char.isDigit = Nat.toDigits 10 n := by
    rw [List.takeWhile_append_of_pos, hend, List.append_nil]
    intro c hc
    exact Nat.isDigit_of_mem_toDigits (by decide) (by decide) hc
  have hlength := Nat.length_toDigits_pos (b := 10) (n := n)
  refine ⟨by rw [List.length_append]; omega, ?_⟩
  simp only [readDigits, hdigits, Nat.toDigits_ne_nil, dite_false, List.drop_left]

theorem readFraction_gets {rest : List Char} (hrest : Ends rest) :
    Gets (readFraction rest) false rest := by
  cases rest with
  | nil => exact ⟨_, rfl⟩
  | cons c rest =>
    rw [readFraction, if_neg (hrest c rfl).2.1]
    exact ⟨_, rfl⟩

theorem readExponent_gets {rest : List Char} (hrest : Ends rest) :
    Gets (readExponent rest) false rest := by
  cases rest with
  | nil => exact ⟨_, rfl⟩
  | cons c rest =>
    obtain ⟨-, -, he, hE⟩ := hrest c rfl
    rw [readExponent, if_neg (by simp [he, hE])]
    exact ⟨_, rfl⟩

theorem readUnsigned_gets {rest : List Char} (hrest : Ends rest) (n : Nat) :
    Gets (readUnsigned (Nat.toDigits 10 n ++ rest)) (.nat n) rest := by
  have hzero : ¬ ((Nat.toDigits 10 n).head? = some '0' ∧ (Nat.toDigits 10 n).length ≠ 1) := by
    rintro ⟨hhead, hlength⟩
    rcases Nat.eq_zero_or_pos n with rfl | hn
    · exact hlength rfl
    · exact head?_toDigits_ne hn hhead
  unfold readUnsigned
  apply (readDigits_gets hrest n).bind
  intro _
  rw [if_neg hzero]
  apply (readFraction_gets hrest).bind
  intro _
  apply (readExponent_gets hrest).bind
  intro _
  simp only [Bool.or_self, Bool.false_eq_true, if_false, Nat.ofDigitChars_ten_toDigits]
  exact ⟨_, rfl⟩

/-! ## One value -/

theorem readWord_gets (word : String) (value : Json) (rest : List Char) :
    Gets (readWord word value (word.toList ++ rest)) value rest := by
  have hprefix : word.toList.isPrefixOf (word.toList ++ rest) = true := by simp
  refine ⟨by rw [List.length_append]; omega, ?_⟩
  simp only [readWord, hprefix, if_true, List.drop_left]

section

variable {blanks rest after : List Char} (hb : Blanks blanks)

include hb

theorem readValue_string {s : String} (h : Gets (readString rest) (some s) after) :
    Gets (readValue (blanks ++ '"' :: rest)) (.string s) after := by
  rw [readValue]
  apply (readMark_gets hb (by decide) rest).bind
  intro _
  apply h.bind
  intro _
  exact ⟨_, rfl⟩

theorem readValue_list {items : List Json} {c : Char} {left : List Char}
    (hmark : Gets (readMark rest) c left) (hc : c ≠ ']') (h : Gets (readItems rest) items after) :
    Gets (readValue (blanks ++ '[' :: rest)) (.list items) after := by
  rw [readValue]
  apply (readMark_gets hb (by decide) rest).bind
  intro _
  apply hmark.bind
  intro _
  rw [if_neg hc]
  apply h.bind
  intro _
  exact ⟨_, rfl⟩

theorem readValue_list_nil : Gets (readValue (blanks ++ '[' :: ']' :: rest)) (.list []) rest := by
  rw [readValue]
  apply (readMark_gets hb (by decide) _).bind
  intro _
  apply (readMark_gets blanks_nil (by decide) rest).bind
  intro _
  exact ⟨_, rfl⟩

theorem readValue_object {members : List (Option String × Json)} {c : Char} {left : List Char}
    (hmark : Gets (readMark rest) c left) (hc : c ≠ '\x7d')
    (h : Gets (readMembers rest) members after) :
    Gets (readValue (blanks ++ '\x7b' :: rest)) (ofMembers members) after := by
  rw [readValue]
  apply (readMark_gets hb (by decide) rest).bind
  intro _
  apply hmark.bind
  intro _
  rw [if_neg hc]
  apply h.bind
  intro _
  exact ⟨_, rfl⟩

theorem readValue_object_nil :
    Gets (readValue (blanks ++ '\x7b' :: '\x7d' :: rest)) (.object []) rest := by
  rw [readValue]
  apply (readMark_gets hb (by decide) _).bind
  intro _
  apply (readMark_gets blanks_nil (by decide) rest).bind
  intro _
  exact ⟨_, rfl⟩

/-- A fixed word, by its first character and the others. -/
theorem readValue_word (c : Char) (word : String) (j : Json)
    (h : (c, word, j) ∈
      [('n', "ull", .null), ('t', "rue", .bool true), ('f', "alse", .bool false)]) :
    Gets (readValue (blanks ++ c :: (word.toList ++ rest))) j rest := by
  simp only [List.mem_cons, Prod.mk.injEq, List.not_mem_nil, or_false] at h
  rcases h with ⟨rfl, rfl, rfl⟩ | ⟨rfl, rfl, rfl⟩ | ⟨rfl, rfl, rfl⟩
  all_goals
    rw [readValue]
    apply (readMark_gets hb (by decide) _).bind
    intro _
    apply (readWord_gets _ _ rest).bind
    intro _
    exact ⟨_, rfl⟩

theorem readValue_other (hrest : Ends rest) :
    Gets (readValue (blanks ++ ("-0".toList ++ rest))) .other rest := by
  rw [readValue]
  apply (readMark_gets hb (c := '-') (by decide) ("0".toList ++ rest)).bind
  intro _
  apply (readUnsigned_gets hrest 0).bind
  intro _
  exact ⟨_, rfl⟩

theorem readValue_nat (hrest : Ends rest) (n : Nat) :
    Gets (readValue (blanks ++ (Nat.toDigits 10 n ++ rest))) (.nat n) rest := by
  have hnumber := readUnsigned_gets hrest n
  obtain ⟨c, digits, hdigits, hc⟩ := toDigits_cons n
  rw [hdigits] at hnumber ⊢
  rw [readValue]
  apply (readMark_gets hb (not_isBlank_of_ne hc) _).bind
  intro _
  split
  case h_8 =>
    apply hnumber.bind
    intro _
    exact ⟨_, rfl⟩
  all_goals
    rename_i heq
    exact absurd heq (hc _ (by decide))

end

/-! ## The text of a value -/

theorem toList_quoted (s : String) :
    (quoted s).toList = '"' :: (s.toList.flatMap escaped ++ ['"']) := by
  simp [quoted]

section

variable (depth : Nat) (rest : List Char)

theorem text_list {items : List Json} (h : items ≠ []) :
    ((Json.list items).render depth).toList ++ rest =
      '[' :: ((renderItems (depth + 1) items).toList ++
        ((newline depth).toList ++ ']' :: rest)) := by
  rw [render]
  · simp
  · exact h

theorem text_object {members : List (String × Json)} (h : members ≠ []) :
    ((Json.object members).render depth).toList ++ rest =
      '\x7b' :: ((renderMembers (depth + 1) members).toList ++
        ((newline depth).toList ++ '\x7d' :: rest)) := by
  rw [render]
  · simp
  · exact h

theorem text_item (item : Json) :
    (renderItems depth [item]).toList ++ rest =
      (newline depth).toList ++ ((item.render depth).toList ++ rest) := by
  simp [renderItems]

theorem text_items (item next : Json) (more : List Json) :
    (renderItems depth (item :: next :: more)).toList ++ rest =
      (newline depth).toList ++ ((item.render depth).toList ++
        ',' :: ((renderItems depth (next :: more)).toList ++ rest)) := by
  simp [renderItems]

theorem text_member (key : String) (value : Json) :
    (renderMembers depth [(key, value)]).toList ++ rest =
      (newline depth).toList ++ '"' :: (key.toList.flatMap escaped ++
        '"' :: ':' :: ([' '] ++ ((value.render depth).toList ++ rest))) := by
  simp [renderMembers, toList_quoted]

theorem text_members (key : String) (value : Json) (next : String × Json)
    (more : List (String × Json)) :
    (renderMembers depth ((key, value) :: next :: more)).toList ++ rest =
      (newline depth).toList ++ '"' :: (key.toList.flatMap escaped ++
        '"' :: ':' :: ([' '] ++ ((value.render depth).toList ++
          ',' :: ((renderMembers depth (next :: more)).toList ++ rest)))) := by
  simp [renderMembers, toList_quoted]

end

/-- A value starts with a character that is neither a blank nor a closing bracket. -/
theorem head_render (depth : Nat) (j : Json) (rest : List Char) :
    ∃ c cs, (j.render depth).toList ++ rest = c :: cs ∧ isBlank c = false ∧ c ≠ ']' := by
  cases j with
  | null => exact ⟨_, _, by rw [render]; rfl, by decide, by decide⟩
  | bool b => cases b <;> exact ⟨_, _, by rw [render]; rfl, by decide, by decide⟩
  | nat n =>
    obtain ⟨c, digits, hdigits, hc⟩ := toDigits_cons n
    refine ⟨c, digits ++ rest, ?_, not_isBlank_of_ne hc, hc _ (by decide)⟩
    rw [render, Nat.toList_repr, hdigits, List.cons_append]
  | string s => exact ⟨_, _, by rw [render, toList_quoted]; rfl, by decide, by decide⟩
  | list items =>
    cases items with
    | nil => exact ⟨_, _, by rw [render]; rfl, by decide, by decide⟩
    | cons item more => exact ⟨_, _, text_list depth rest (by simp), by decide, by decide⟩
  | object members =>
    cases members with
    | nil => exact ⟨_, _, by rw [render]; rfl, by decide, by decide⟩
    | cons member more => exact ⟨_, _, text_object depth rest (by simp), by decide, by decide⟩
  | other => exact ⟨_, _, by rw [render]; rfl, by decide, by decide⟩

/-- After an opening bracket comes the first entry and no closing bracket. -/
theorem readMark_items (depth : Nat) {items : List Json} (h : items ≠ []) (rest : List Char) :
    ∃ c left, Gets (readMark ((renderItems depth items).toList ++ rest)) c left ∧ c ≠ ']' := by
  have hfirst : ∃ (item : Json) (after : List Char), (renderItems depth items).toList ++ rest =
      (newline depth).toList ++ ((item.render depth).toList ++ after) := by
    rcases items with _ | ⟨item, _ | ⟨next, more⟩⟩
    · exact absurd rfl h
    · exact ⟨_, _, text_item depth rest item⟩
    · exact ⟨_, _, text_items depth rest item next more⟩
  obtain ⟨item, after, htext⟩ := hfirst
  obtain ⟨c, left, hhead, hc, hne⟩ := head_render depth item after
  rw [htext, hhead]
  exact ⟨c, left, readMark_gets (blanks_newline depth) hc left, hne⟩

/-- After an opening brace comes the first key. -/
theorem readMark_members (depth : Nat) {members : List (String × Json)} (h : members ≠ [])
    (rest : List Char) :
    ∃ left, Gets (readMark ((renderMembers depth members).toList ++ rest)) '"' left := by
  rcases members with _ | ⟨⟨key, value⟩, _ | ⟨next, more⟩⟩
  · exact absurd rfl h
  · rw [text_member]
    exact ⟨_, readMark_gets (blanks_newline depth) (by decide) _⟩
  · rw [text_members]
    exact ⟨_, readMark_gets (blanks_newline depth) (by decide) _⟩

/-! ## Reading it back -/

/-- Where each entry is written by `f` and read by `g`, the whole list is read. -/
theorem mapM_map {g : β → Option γ} {f : α → β} {e : α → γ} {xs : List α}
    (h : ∀ x ∈ xs, g (f x) = some (e x)) : (xs.map f).mapM g = some (xs.map e) := by
  induction xs with
  | nil => rfl
  | cons x xs ih =>
    rw [List.map_cons, List.mapM_cons, h x List.mem_cons_self,
      ih fun y hy => h y (List.mem_cons_of_mem x hy)]
    rfl

theorem ofMembers_some (members : List (String × Json)) :
    ofMembers (members.map fun m => (some m.1, m.2)) = .object members := by
  unfold ofMembers
  rw [mapM_map (e := id), List.map_id]
  intro m _
  rfl

mutual

/-- Reading takes from a text exactly the value that rendering put there. -/
theorem readValue_gets {blanks rest : List Char} (hb : Blanks blanks) (hrest : Ends rest)
    (depth : Nat) :
    (j : Json) → Gets (readValue (blanks ++ ((j.render depth).toList ++ rest))) j rest
  | .null => by
    rw [render]
    exact readValue_word hb 'n' "ull" .null (by simp)
  | .bool true => by
    rw [render]
    exact readValue_word hb 't' "rue" (.bool true) (by simp)
  | .bool false => by
    rw [render]
    exact readValue_word hb 'f' "alse" (.bool false) (by simp)
  | .nat n => by
    rw [render, Nat.toList_repr]
    exact readValue_nat hb hrest n
  | .string s => by
    rw [render, toList_quoted, List.cons_append, List.append_assoc]
    exact readValue_string hb (readString_gets s rest)
  | .list [] => by
    rw [render]
    exact readValue_list_nil hb
  | .list (item :: more) => by
    have hitems := readItems_gets depth rest (item :: more) (by simp)
    obtain ⟨c, left, hmark, hc⟩ := readMark_items (depth + 1) (List.cons_ne_nil item more) _
    rw [text_list depth rest (by simp)]
    exact readValue_list hb hmark hc hitems
  | .object [] => by
    rw [render]
    exact readValue_object_nil hb
  | .object (member :: more) => by
    have hmembers := readMembers_gets depth rest (member :: more) (by simp)
    obtain ⟨left, hmark⟩ := readMark_members (depth + 1) (List.cons_ne_nil member more) _
    rw [text_object depth rest (by simp), ← ofMembers_some]
    exact readValue_object hb hmark (by decide) hmembers
  | .other => by
    rw [render]
    exact readValue_other hb hrest

theorem readItems_gets (depth : Nat) (rest : List Char) :
    (items : List Json) → items ≠ [] →
      Gets (readItems ((renderItems (depth + 1) items).toList ++
        ((newline depth).toList ++ ']' :: rest))) items rest
  | [item], _ => by
    rw [readItems, text_item]
    apply (readValue_gets (blanks_newline _) (ends_newline _ _) _ item).bind
    intro _
    apply (readMark_gets (blanks_newline _) (by decide) rest).bind
    intro _
    exact ⟨_, rfl⟩
  | item :: next :: more, _ => by
    have hmore := readItems_gets depth rest (next :: more) (by simp)
    rw [readItems, text_items]
    apply (readValue_gets (blanks_newline _) (ends_cons (by decide) _) _ item).bind
    intro _
    apply (readMark_gets blanks_nil (by decide) _).bind
    intro _
    apply hmore.bind
    intro _
    exact ⟨_, rfl⟩

theorem readMembers_gets (depth : Nat) (rest : List Char) :
    (members : List (String × Json)) → members ≠ [] →
      Gets (readMembers ((renderMembers (depth + 1) members).toList ++
        ((newline depth).toList ++ '\x7d' :: rest))) (members.map fun m => (some m.1, m.2)) rest
  | [(key, value)], _ => by
    rw [readMembers, text_member]
    apply (readMark_gets (blanks_newline _) (by decide) _).bind
    intro _
    rw [if_neg (by simp)]
    apply (readString_gets key _).bind
    intro _
    apply (readMark_gets blanks_nil (by decide) _).bind
    intro _
    rw [if_neg (by simp)]
    apply (readValue_gets (blanks_singleton rfl) (ends_newline _ _) _ value).bind
    intro _
    apply (readMark_gets (blanks_newline _) (by decide) rest).bind
    intro _
    exact ⟨_, rfl⟩
  | (key, value) :: next :: more, _ => by
    have hmore := readMembers_gets depth rest (next :: more) (by simp)
    rw [readMembers, text_members]
    apply (readMark_gets (blanks_newline _) (by decide) _).bind
    intro _
    rw [if_neg (by simp)]
    apply (readString_gets key _).bind
    intro _
    apply (readMark_gets blanks_nil (by decide) _).bind
    intro _
    rw [if_neg (by simp)]
    apply (readValue_gets (blanks_singleton rfl) (ends_cons (by decide) _) _ value).bind
    intro _
    apply (readMark_gets blanks_nil (by decide) _).bind
    intro _
    apply hmore.bind
    intro _
    exact ⟨_, rfl⟩

end

/-- A written value reads back as itself, whatever blanks follow it. -/
theorem parse?_pretty (j : Json) {b : String} (hb : Blanks b.toList) :
    parse? (j.pretty ++ b) = some j := by
  obtain ⟨hlt, hread⟩ := readValue_gets blanks_nil (ends_of_blanks hb) 0 j
  have hskip : skipBlanks b.toList = [] := by
    rw [← List.append_nil b.toList, skipBlanks_append hb]
    rfl
  have htext : (j.pretty ++ b).toList = [] ++ ((j.render 0).toList ++ b.toList) := by
    simp [pretty]
  unfold parse?
  rw [htext, hread]
  exact if_pos hskip

end MiniC.Json
