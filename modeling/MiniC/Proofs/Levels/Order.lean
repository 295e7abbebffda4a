import MiniC.Proofs.Levels.Basic
import MiniC.Proofs.Reparse.Declaration

/-!
# The order of levels

Two shapes of declarators decide in which order a pointer and an array come: a star directly before
an array, and `(*v)[N]`. Parentheses that only group can make such a shape or break it, and
`Context.ParensMatter` says where they do. Without parentheses only the star next to the name can
stand directly before an array, the one of the last bracket (`starredLevels`): with more stars, or
with more brackets, not all pointers come before all arrays.
-/

namespace MiniC

/-- A pointer comes before or after an array, but there is no order where there is no array. -/
theorem Bound.levels_concat_eq_cons_iff (size : Bound) :
    size.levels ++ [.pointer] = .pointer :: size.levels ↔ ¬ 0 < Bound.number size.text := by
  obtain ⟨h, hlevels⟩ | ⟨h, hlevels⟩ := size.levels_cases
  · simp [hlevels, h]
  · simp [hlevels, h]

namespace Declarator

/-- The declarator is an array declarator. -/
def isArray : Declarator → Bool
  | .array _ _ _ => true
  | .ident _ | .pointer _ _ | .paren _ _ => false

/-- The declarator is `(*v)`. -/
def IsParenStar (d : Declarator) : Prop :=
  ∃ id span span', d = .paren (.pointer (.ident id) span) span'

theorem levels_pointer {inner : Declarator} (h : inner.isArray = false) (span : Span) :
    (pointer inner span).levels = inner.levels ++ [.pointer] := by
  rw [levels]
  rintro elem size span' rfl
  cases h

theorem levels_array {inner : Declarator} (h : ¬ inner.IsParenStar) (size : Bound) (span : Span) :
    (array inner size span).levels = inner.levels ++ size.levels := by
  rw [levels]
  rintro id span span' rfl
  exact h ⟨id, span, span', rfl⟩

/-! ## Parentheses -/

/-- A declarator with an open place in it. -/
inductive Context where
  | hole
  | array (inner : Context) (size : Bound) (span : Span)
  | pointer (inner : Context) (span : Span)
  | paren (inner : Context) (span : Span)

namespace Context

/-- The declarator with `d` at the open place. -/
def fill (d : Declarator) : Context → Declarator
  | .hole => d
  | .array inner size span => .array (inner.fill d) size span
  | .pointer inner span => .pointer (inner.fill d) span
  | .paren inner span => .paren (inner.fill d) span

/-- Parentheses around `d` at the open place decide which level comes first. This is so in
`*(v[N])`, in `((*v))[N]` and in `(*(v))[N]`, if the bound is good; in the last two not if another
star stands directly before the array. -/
def ParensMatter : Context → Declarator → Prop
  | .pointer .hole _, .array _ size _ => 0 < Bound.number size.text
  | .array .hole size _, .paren (.pointer (.ident _) _) _ => 0 < Bound.number size.text
  | .array (.paren (.pointer .hole _) _) size _, .ident _ => 0 < Bound.number size.text
  | .pointer (.array inner _ _) _, d => inner.ParensMatter d
  | .pointer inner _, d => inner.ParensMatter d
  | .array inner _ _, d => inner.ParensMatter d
  | .paren inner _, d => inner.ParensMatter d
  | .hole, _ => False

variable (c : Context) (d : Declarator) (span : Span)

theorem core_fill_paren : (c.fill (.paren d span)).core = (c.fill d).core := by
  induction c with
  | hole => rfl
  | array inner _ _ ih | pointer inner _ ih | paren inner _ ih => exact ih

theorem numbers_fill_paren : (c.fill (.paren d span)).numbers = (c.fill d).numbers := by
  induction c with
  | hole => rfl
  | array inner size _ ih => exact congrArg (· ++ [Bound.number size.text]) ih
  | pointer inner _ ih | paren inner _ ih => exact ih

section

variable {c d}

theorem isArray_fill (hc : ∀ inner size span, c ≠ .array inner size span)
    (hd : c = .hole → d.isArray = false) : (c.fill d).isArray = false := by
  cases c with
  | hole => exact hd rfl
  | array inner size span => exact absurd rfl (hc inner size span)
  | pointer _ _ | paren _ _ => rfl

theorem not_isParenStar_fill (hd : d.isPointer = false) (hhole : c = .hole → ¬ d.IsParenStar)
    (hname : ∀ id, d = .ident id → ∀ span span', c ≠ .paren (.pointer .hole span) span') :
    ¬ (c.fill d).IsParenStar := by
  rintro ⟨id, span, span', h⟩
  cases c with
  | hole => exact hhole rfl ⟨id, span, span', h⟩
  | array _ _ _ | pointer _ _ => cases h
  | paren inner _ =>
    obtain ⟨h, -⟩ := Declarator.paren.inj h
    cases inner with
    | hole =>
      rw [fill] at h
      rw [h] at hd
      cases hd
    | array _ _ _ | paren _ _ => cases h
    | pointer inner _ =>
      obtain ⟨h, -⟩ := Declarator.pointer.inj h
      cases inner with
      | hole => exact hname id h _ _ rfl
      | array _ _ _ | pointer _ _ | paren _ _ => cases h

end

/-- Parentheses that only group leave the levels as they are, unless they decide which one comes
first. -/
theorem levels_fill_paren (hd : d.isPointer = false) :
    (c.fill (.paren d span)).levels = (c.fill d).levels ↔ ¬ c.ParensMatter d := by
  fun_induction ParensMatter c d with
  | case1 _ elem size inside =>
    rw [← size.levels_concat_eq_cons_iff]
    change (Declarator.array elem size inside).levels ++ [Level.pointer] =
      elem.levels ++ Level.pointer :: size.levels ↔ _
    by_cases hstar : elem.IsParenStar
    · obtain ⟨id, star, outside, rfl⟩ := hstar
      change size.levels ++ [Level.pointer] ++ [Level.pointer] =
        Level.pointer :: Level.pointer :: size.levels ↔ _
      obtain ⟨-, hlevels⟩ | ⟨-, hlevels⟩ := size.levels_cases <;> simp [hlevels]
    · rw [levels_array hstar, List.append_assoc]
      exact List.append_right_inj elem.levels
  | case2 size => exact eq_comm.trans size.levels_concat_eq_cons_iff
  | case3 _ _ size => exact eq_comm.trans size.levels_concat_eq_cons_iff
  | case4 inner size _ _ d ih =>
    rw [← ih hd]
    exact List.append_left_inj (Level.pointer :: size.levels)
  | case5 inner _ d hne hnot ih =>
    have harray : inner = .hole → d.isArray = false := by
      rintro rfl
      cases d with
      | array elem size span => exact (hne elem size span rfl rfl).elim
      | ident _ | pointer _ _ | paren _ _ => rfl
    have hleft := isArray_fill (d := .paren d span) hnot fun _ => rfl
    have hright := isArray_fill hnot harray
    rw [← ih hd, fill, fill, levels_pointer hleft, levels_pointer hright]
    exact List.append_left_inj [Level.pointer]
  | case6 inner size _ d hstar hname ih =>
    have hleft : ¬ (inner.fill (.paren d span)).IsParenStar := by
      refine not_isParenStar_fill rfl ?_ nofun
      rintro - ⟨id, star, outside, h⟩
      rw [(Declarator.paren.inj h).1] at hd
      cases hd
    have hright : ¬ (inner.fill d).IsParenStar := by
      refine not_isParenStar_fill hd ?_ fun id hid star outside h => hname star outside id hid h
      rintro h ⟨id, star, outside, hd⟩
      exact hstar id star outside hd h
    rw [← ih hd, fill, fill, levels_array hleft, levels_array hright]
    exact List.append_left_inj size.levels
  | case7 inner _ d ih => exact ih hd
  | case8 => exact iff_of_true rfl not_false

end Context

end Declarator

/-- **Which parentheses are transparent.** Parentheses around a name, an array declarator or other
parentheses, anywhere in a declarator, change neither the declared name nor the errors that are
reported. They leave the type over every base as it is, unless they stand where they decide the
order of a pointer and an array. -/
theorem resolve_fill_paren_iff (c : Declarator.Context) {d : Declarator} (hd : d.isPointer = false)
    (span : Span) (base : Ty) (s : State) :
    ((c.fill (.paren d span)).resolve base s).value.ident =
      ((c.fill d).resolve base s).value.ident ∧
    Event.errors ((c.fill (.paren d span)).resolve base s).events =
      Event.errors ((c.fill d).resolve base s).events ∧
    (((c.fill (.paren d span)).resolve base s).value.ty = ((c.fill d).resolve base s).value.ty ↔
      ¬ c.ParensMatter d) := by
  have hcore := c.core_fill_paren d span
  rw [Declarator.value_resolve, Declarator.value_resolve, Declarator.errors_resolve,
    Declarator.errors_resolve, hcore, c.numbers_fill_paren]
  exact ⟨rfl, rfl, Ty.wrap_inj.trans (c.levels_fill_paren d span hd)⟩

/-- `(*v)`, for a name `v`. -/
def parenStar : Declarator := .paren (.pointer (.ident ⟨"v", .blank⟩) .blank) .blank

/-- `((*v))[3]` is an array of pointers, and `(*v)[3]` is a pointer to an array. -/
theorem parenStar_fill_paren :
    parenStar.isPointer = false ∧
      ((Declarator.array (.paren parenStar .blank) ⟨"3", .blank⟩ .blank).resolve .int
        .initial).value.ty ≠
        ((Declarator.array parenStar ⟨"3", .blank⟩ .blank).resolve .int .initial).value.ty := by
  have hthree : Bound.number "3" = 3 := by decide +kernel
  have hmatter : (Declarator.Context.array .hole ⟨"3", .blank⟩ .blank).ParensMatter parenStar := by
    change 0 < Bound.number "3"
    omega
  have h := resolve_fill_paren_iff (.array .hole ⟨"3", .blank⟩ .blank) (d := parenStar) rfl .blank
    .int .initial
  exact ⟨rfl, fun hty => h.2.2.1 hty hmatter⟩

/-! ## Stars and brackets -/

/-- The array level of a bound with this text. -/
def Level.ofText (text : String) : Level := .array (Bound.number text).toNat

/-- The levels of stars before a name and arrays after it. The arrays come in order, and one pointer
comes right before the last of them; the other pointers come last. -/
def starredLevels (arrays : List Level) : Nat → List Level
  | 0 => arrays
  | n + 1 => arrays.dropLast ++ .pointer :: (arrays.getLast?.toList ++ .replicate n .pointer)

theorem starredLevels_concat (arrays : List Level) (last : Level) (n : Nat) :
    starredLevels (arrays ++ [last]) (n + 1) =
      arrays ++ .pointer :: last :: .replicate n .pointer := by
  rw [starredLevels, List.dropLast_concat, List.getLast?_concat]
  rfl

/-- All pointers come before all arrays only where there are no two stars or brackets to put in
order, or none of one of them. -/
theorem starredLevels_eq_iff (texts : List String) (n : Nat) :
    starredLevels (texts.map .ofText) n = .replicate n .pointer ++ texts.map .ofText ↔
      n = 0 ∨ texts = [] ∨ n = 1 ∧ texts.length = 1 := by
  cases n with
  | zero => simp [starredLevels]
  | succ n =>
    cases texts using List.reverseRecOn with
    | nil => simp [starredLevels, List.replicate_succ]
    | append_singleton before last =>
      rw [List.map_append, List.map_singleton, starredLevels_concat]
      cases before with
      | nil => cases n <;> simp [Level.ofText, List.replicate_succ]
      | cons first more => simp [Level.ofText, List.replicate_succ]

namespace Bound

variable {text : String} (h : 0 < Bound.number text) (span : Span)
include h

theorem levels_of_pos : (Bound.mk text span).levels = [.ofText text] :=
  if_neg (by simpa using h)

/-- A positive bound has no minus sign. -/
theorem render_of_pos : (Bound.mk text span).render = [.integer text] := by
  unfold Bound.render
  split
  · rename_i digits htext
    unfold Bound.number at h
    simp only [htext] at h
    split at h
    · cases h
    · split at h <;> omega
  · rfl

end Bound

namespace Declarator

/-- `d` with some bounds in brackets after it. -/
def bracketed (d : Declarator) (texts : List String) : Declarator :=
  texts.foldl (fun d text => .array d ⟨text, .blank⟩ .blank) d

/-- `d` with this many stars before it. -/
def starred (d : Declarator) : Nat → Declarator
  | 0 => d
  | n + 1 => .pointer (d.starred n) .blank

theorem bracketed_concat (d : Declarator) (texts : List String) (text : String) :
    d.bracketed (texts ++ [text]) = .array (d.bracketed texts) ⟨text, .blank⟩ .blank := by
  rw [bracketed, List.foldl_concat, bracketed]

/-! Reading stars and brackets. -/

theorem Restored.starred {d : Declarator} (h : d.Restored) (n : Nat) : (d.starred n).Restored := by
  induction n with
  | zero => exact h
  | succ n ih => exact ih.pointer .blank

theorem Resumes.bracketed {d : Declarator} (h : d.Resumes) (texts : List String) :
    (d.bracketed texts).Resumes := by
  induction texts using List.reverseRecOn with
  | nil => exact h
  | append_singleton texts text ih =>
    rw [bracketed_concat]
    exact ih.array _ _

theorem render_starred (d : Declarator) (n : Nat) :
    (d.starred n).render = .replicate n (.mark .star) ++ d.render := by
  induction n with
  | zero => rfl
  | succ n ih => rw [starred, render, ih, List.replicate_succ, List.cons_append]

theorem render_bracketed (d : Declarator) {texts : List String}
    (h : ∀ text ∈ texts, 0 < Bound.number text) :
    (d.bracketed texts).render =
      d.render ++ texts.flatMap fun text => brackets [.integer text] := by
  induction texts using List.reverseRecOn with
  | nil => exact (List.append_nil _).symm
  | append_singleton texts text ih =>
    have hlast := Bound.render_of_pos (h text (by simp)) .blank
    rw [bracketed_concat, render, ih fun text ht => h text (by simp [ht]), hlast,
      List.flatMap_append, List.flatMap_singleton, List.append_assoc]

/-! Their levels. -/

theorem isArray_starred (d : Declarator) (n : Nat) : (d.starred (n + 1)).isArray = false := rfl

theorem not_isParenStar_bracketed (id : Ident) (texts : List String) :
    ¬ ((ident id).bracketed texts).IsParenStar := by
  rintro ⟨name, span, span', h⟩
  cases texts using List.reverseRecOn with
  | nil => cases h
  | append_singleton texts text =>
    rw [bracketed_concat] at h
    cases h

theorem levels_bracketed (id : Ident) {texts : List String}
    (h : ∀ text ∈ texts, 0 < Bound.number text) :
    ((ident id).bracketed texts).levels = texts.map .ofText := by
  induction texts using List.reverseRecOn with
  | nil => rfl
  | append_singleton texts text ih =>
    rw [bracketed_concat, levels_array (not_isParenStar_bracketed id texts),
      ih fun text ht => h text (by simp [ht]), Bound.levels_of_pos (h text (by simp)),
      List.map_append, List.map_singleton]

/-- The star next to the name is the only one directly before an array. -/
theorem levels_starred (id : Ident) {texts : List String}
    (h : ∀ text ∈ texts, 0 < Bound.number text) (n : Nat) :
    (((ident id).bracketed texts).starred n).levels = starredLevels (texts.map .ofText) n := by
  induction n with
  | zero => exact levels_bracketed id h
  | succ n ih =>
    cases n with
    | zero =>
      cases texts using List.reverseRecOn with
      | nil => rfl
      | append_singleton texts text =>
        have hbefore := levels_bracketed id fun text ht => h text (List.mem_append_left _ ht)
        have hlast := Bound.levels_of_pos (h text (by simp)) .blank
        rw [starred, starred, bracketed_concat, levels, hbefore, hlast, List.map_append,
          List.map_singleton, starredLevels_concat]
        rfl
    | succ n =>
      rw [starred, levels_pointer (isArray_starred _ n), ih, starredLevels, starredLevels,
        List.replicate_succ', List.append_assoc, List.cons_append, List.append_assoc]

theorem numbers_starred (id : Ident) (texts : List String) (n : Nat) :
    (((ident id).bracketed texts).starred n).numbers = texts.map Bound.number := by
  induction n with
  | zero =>
    induction texts using List.reverseRecOn with
    | nil => rfl
    | append_singleton texts text ih =>
      rw [starred] at ih ⊢
      rw [bracketed_concat, numbers, ih, List.map_append, List.map_singleton]
  | succ n ih => exact ih

theorem core_starred (id : Ident) (texts : List String) (n : Nat) :
    (((ident id).bracketed texts).starred n).core = id := by
  induction n with
  | zero =>
    induction texts using List.reverseRecOn with
    | nil => rfl
    | append_singleton texts text ih =>
      rw [starred] at ih ⊢
      rw [bracketed_concat, core, ih]
  | succ n ih => exact ih

/-! Spans do not matter to levels. -/

theorem isParenStar_of_erase {d : Declarator} (h : d.erase.IsParenStar) : d.IsParenStar := by
  obtain ⟨id, span, span', h⟩ := h
  cases d with
  | ident _ | array _ _ _ | pointer _ _ => cases h
  | paren inner outside =>
    obtain ⟨h, -⟩ := paren.inj h
    cases inner with
    | ident _ | array _ _ _ | paren _ _ => cases h
    | pointer inner star =>
      obtain ⟨h, -⟩ := pointer.inj h
      cases inner with
      | ident id => exact ⟨id, star, outside, rfl⟩
      | array _ _ _ | pointer _ _ | paren _ _ => cases h

theorem levels_erase (d : Declarator) : d.erase.levels = d.levels := by
  fun_induction levels d with
  | case1 => rfl
  | case2 inner _ ih => exact ih
  | case3 elem size _ _ ih => exact congrArg (· ++ .pointer :: size.levels) ih
  | case4 inner span hne ih =>
    have harray : inner.erase.isArray = false := by
      cases inner with
      | array elem size span => exact (hne elem size span rfl).elim
      | ident _ | pointer _ _ | paren _ _ => rfl
    exact (levels_pointer harray _).trans (congrArg (· ++ [.pointer]) ih)
  | case5 => rfl
  | case6 inner size span hne ih =>
    have hstar : ¬ inner.erase.IsParenStar := by
      intro h
      obtain ⟨id, star, outside, rfl⟩ := isParenStar_of_erase h
      exact hne id star outside rfl
    exact (levels_array hstar _ _).trans (congrArg (· ++ size.levels) ih)

theorem numbers_erase (d : Declarator) : d.erase.numbers = d.numbers := by
  induction d with
  | ident _ => rfl
  | array inner size _ ih => exact congrArg (· ++ [Bound.number size.text]) ih
  | pointer inner _ ih | paren inner _ ih => exact ih

end Declarator

/-- **How stars and brackets compose without parentheses.** Tokens that start with some stars, a
name and some positive bounds in brackets are read as a declarator of that name, and resolving it
over any base reports no error. Its arrays come in the order of the brackets, but only one pointer
comes before an array, the last one, and all other pointers come after it. So brackets bind tighter
than all the stars only if there are no stars, no brackets, or one of each. -/
theorem readDeclarator_starred_type {s : Input} {stars : Nat} {name : String} {texts : List String}
    {k : List Kind}
    (hkinds : s.kinds = .replicate stars (.mark .star) ++
      .ident name :: (texts.flatMap (fun text => brackets [.integer text]) ++ k))
    (hk : k.head? ≠ some (.mark .leftBracket)) (htexts : ∀ text ∈ texts, 0 < Bound.number text) :
    ∃ p, s.readDeclarator = .ok p ∧ p.input.kinds = k ∧ ∀ (base : Ty) (st : State),
      (p.value.resolve base st).value.ident.name = name ∧
      Event.errors (p.value.resolve base st).events = [] ∧
      (p.value.resolve base st).value.ty = base.wrap (starredLevels (texts.map .ofText) stars) ∧
      (p.value.resolve base st).value.ty.spelling = base.spelling ++
        String.join ((starredLevels (texts.map .ofText) stars).map Level.text) ∧
      ((p.value.resolve base st).value.ty =
          base.wrap (.replicate stars .pointer ++ texts.map .ofText) ↔
        stars = 0 ∨ texts = [] ∨ stars = 1 ∧ texts.length = 1) := by
  let id : Ident := ⟨name, .blank⟩
  let d := ((Declarator.ident id).bracketed texts).starred stars
  have hrender : s.kinds = d.render ++ k := by
    rw [hkinds, Declarator.render_starred, Declarator.render_bracketed _ htexts]
    simp [Declarator.render, id]
  obtain ⟨p, hread, herase, hrest⟩ :=
    ((Declarator.resumes_ident id).bracketed texts).restored.starred stars s k hrender hk
  have hlevels : p.value.levels = starredLevels (texts.map .ofText) stars := by
    rw [← Declarator.levels_erase, herase, Declarator.levels_erase,
      Declarator.levels_starred id htexts]
  have hnumbers : p.value.numbers.countP (· ≤ 0) = 0 := by
    rw [← Declarator.numbers_erase, herase, Declarator.numbers_erase, Declarator.numbers_starred,
      List.countP_eq_zero]
    intro n hn
    obtain ⟨text, ht, rfl⟩ := List.mem_map.1 hn
    simpa using htexts text ht
  have hname : p.value.core.name = name := by
    have hcore := congrArg Declarator.core herase
    rw [Declarator.core_relabel, Declarator.core_relabel, Declarator.core_starred] at hcore
    exact congrArg Ident.name hcore
  refine ⟨p, hread, hrest, fun base st => ?_⟩
  rw [Declarator.value_resolve, Declarator.errors_resolve, hnumbers, hlevels]
  exact ⟨hname, rfl, rfl, Ty.spelling_wrap base _,
    Ty.wrap_inj.trans (starredLevels_eq_iff texts stars)⟩

/-- The tokens of `**a[3];`. -/
def doubleStar : Input := .ofTokens ([.mark .star, .mark .star, .ident "a", .mark .leftBracket,
  .integer "3", .mark .rightBracket, .mark .semicolon, .eof].map fun kind => ⟨kind, .blank⟩)

/-- `**a[3]` is a pointer to an array of pointers, not an array of pointers to pointers. -/
theorem doubleStar_type : ∃ p, doubleStar.readDeclarator = .ok p ∧
    (p.value.resolve .int .initial).value.ty.spelling = "int*[3]*" ∧
    (p.value.resolve .int .initial).value.ty ≠ .array (.pointer (.pointer .int)) 3 := by
  have hthree : Bound.number "3" = 3 := by decide +kernel
  obtain ⟨p, hread, -, h⟩ := @readDeclarator_starred_type doubleStar 2 "a" ["3"]
    [.mark .semicolon, .eof] rfl (by decide) (by simp [hthree])
  obtain ⟨-, -, -, hspelling, hiff⟩ := h .int .initial
  have harrays : Ty.int.wrap (.replicate 2 .pointer ++ ["3"].map .ofText) =
      .array (.pointer (.pointer .int)) 3 := by
    rw [List.map_singleton, Level.ofText, hthree]
    rfl
  refine ⟨p, hread, hspelling.trans (by decide +kernel), fun hty => ?_⟩
  have hfew := hiff.1 (hty.trans harrays.symm)
  simp at hfew

end MiniC
