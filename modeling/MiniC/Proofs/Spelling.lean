import MiniC.Proofs.Levels.Basic
import MiniC.Token.Lexer

/-!
# Spellings are unambiguous

A type is spelled from the inside out: a word or a struct tag, and then a suffix for each pointer,
array and function around it (`Suffix`). So a text may start with the spellings of several types,
but of any two of them one is spelled by the other with more suffixes (`Ty.Aligned`). Where neither
a word nor a suffix can go on, as before a comma, a closing mark or the end, only one type is left
(`Ty.Aligned.inj`).

That suffixes are told apart, lists of parameters too, is proved together with this
(`Ty.aligned`, `Ty.paramsKnown`), by recursion over the first of the two types.
-/

namespace MiniC

/-! ## Words in front of a text -/

/-- Letters, digits and underscores only. -/
def isWordText (text : String) : Bool := text.toList.all isWordChar

/-- No word goes on here. -/
def EndsWord (r : List Char) : Prop := ∀ c ∈ r.head?, isWordChar c = false

/-- Characters of a class, up to the first one that is not in it. -/
theorem append_inj_of_all {p : Char → Bool} {u v r s : List Char} (hu : ∀ c ∈ u, p c = true)
    (hv : ∀ c ∈ v, p c = true) (hr : ∀ c ∈ r.head?, p c = false) (hs : ∀ c ∈ s.head?, p c = false)
    (h : u ++ r = v ++ s) : u = v ∧ r = s := by
  have hnone : ∀ {t : List Char}, (∀ c ∈ t.head?, p c = false) → t.takeWhile p = [] := by
    intro t ht
    cases t with
    | nil => rfl
    | cons c t =>
      rw [List.takeWhile_cons, ht c rfl]
      rfl
  have hwhile := congrArg (List.takeWhile p) h
  rw [List.takeWhile_append_of_pos hu, List.takeWhile_append_of_pos hv, hnone hr, hnone hs,
    List.append_nil, List.append_nil] at hwhile
  exact ⟨hwhile, List.append_cancel_left (hwhile ▸ h)⟩

theorem word_append_inj {a b : String} {r s : List Char} (ha : isWordText a = true)
    (hb : isWordText b = true) (hr : EndsWord r) (hs : EndsWord s)
    (h : a.toList ++ r = b.toList ++ s) : a = b ∧ r = s := by
  obtain ⟨hword, hrest⟩ :=
    append_inj_of_all (List.all_eq_true.1 ha) (List.all_eq_true.1 hb) hr hs h
  exact ⟨String.toList_inj.1 hword, hrest⟩

theorem endsWord_cons {c : Char} (h : isWordChar c = false) (r : List Char) :
    EndsWord (c :: r) := by
  intro d hd
  obtain rfl := Option.some.inj hd
  exact h

theorem repr_append_inj {m n : Nat} {r s : List Char}
    (h : m.repr.toList ++ ']' :: r = n.repr.toList ++ ']' :: s) : m = n ∧ r = s := by
  have hdigit : ∀ k : Nat, ∀ c ∈ Nat.toDigits 10 k, c.isDigit = true := fun k c hc =>
    Nat.isDigit_of_mem_toDigits (by decide) (by decide) hc
  rw [Nat.repr, Nat.repr, String.toList_ofList, String.toList_ofList] at h
  obtain ⟨hdigits, hrest⟩ := append_inj_of_all (hdigit m) (hdigit n) (by simp) (by simp) h
  refine ⟨?_, (List.cons.inj hrest).2⟩
  rw [← Nat.ofDigitChars_ten_toDigits (n := m), hdigits, Nat.ofDigitChars_ten_toDigits]

/-! ## Tags -/

namespace Ty

mutual

/-- The struct tags in a type. -/
def tags : Ty → List String
  | .int | .char => []
  | .array elem _ => elem.tags
  | .pointer target => target.tags
  | .struct tag => [tag]
  | .function ret params => ret.tags ++ paramTags params

def paramTags : List Ty → List String
  | [] => []
  | p :: ps => p.tags ++ paramTags ps

end

/-- All tags in the type are words. -/
def Worded (ty : Ty) : Prop := ∀ tag ∈ ty.tags, isWordText tag = true

instance (ty : Ty) : Decidable ty.Worded :=
  inferInstanceAs (Decidable (∀ tag ∈ ty.tags, isWordText tag = true))

end Ty

/-! ## Suffixes -/

/-- One step from a type to a type that is spelled by it and more. -/
inductive Suffix where
  | level (level : Level)
  | call (params : List Ty)

namespace Suffix

/-- The type with this suffix. -/
def around : Suffix → Ty → Ty
  | .level l, ty => l.around ty
  | .call params, ty => .function ty params

def text : Suffix → List Char
  | .level l => l.text.toList
  | .call params => '(' :: ((Ty.paramSpellings params).toList ++ [')'])

/-- The character that tells the suffixes apart. -/
def opening : Suffix → Char
  | .level .pointer => '*'
  | .level (.array _) => '['
  | .call _ => '('

def tags : Suffix → List String
  | .level _ => []
  | .call params => Ty.paramTags params

/-- All tags in the suffix are words. -/
def Worded (x : Suffix) : Prop := ∀ tag ∈ x.tags, isWordText tag = true

theorem toList_around (x : Suffix) (ty : Ty) :
    (x.around ty).spelling.toList = ty.spelling.toList ++ x.text := by
  rcases x with (_ | size) | params <;>
    simp [around, Level.around, Ty.spelling, text, Level.text]

theorem tags_around (x : Suffix) (ty : Ty) : (x.around ty).tags = ty.tags ++ x.tags := by
  rcases x with (_ | size) | params <;> simp [around, Level.around, Ty.tags, tags]

theorem text_eq (x : Suffix) : ∃ w, x.text = x.opening :: w := by
  rcases x with (_ | size) | params
  · exact ⟨[], rfl⟩
  · exact ⟨size.repr.toList ++ [']'], by simp [text, Level.text, opening]⟩
  · exact ⟨_, rfl⟩

theorem endsWord_text (x : Suffix) (r : List Char) : EndsWord (x.text ++ r) := by
  obtain ⟨w, hw⟩ := x.text_eq
  rw [hw, List.cons_append]
  apply endsWord_cons
  rcases x with (_ | _) | _ <;> rfl

theorem opening_eq {x y : Suffix} {r s : List Char} (h : x.text ++ r = y.text ++ s) :
    x.opening = y.opening := by
  obtain ⟨w, hw⟩ := x.text_eq
  obtain ⟨v, hv⟩ := y.text_eq
  rw [hw, hv] at h
  exact (List.cons.inj h).1

/-- The suffix is known by its text, whatever comes after it. -/
def Known (x : Suffix) : Prop :=
  ∀ (y : Suffix) (r s : List Char), x.Worded → y.Worded → x.text ++ r = y.text ++ s →
    x = y ∧ r = s

theorem known_pointer : (level .pointer).Known := by
  intro y r s _ _ h
  rcases y with (_ | size) | params
  · exact ⟨rfl, (List.cons.inj h).2⟩
  · cases opening_eq h
  · cases opening_eq h

theorem known_array (size : Nat) : (level (.array size)).Known := by
  intro y r s _ _ h
  rcases y with (_ | size') | params
  · cases opening_eq h
  · simp only [text, Level.text, String.toList_append, List.append_assoc] at h
    obtain ⟨rfl, rfl⟩ := repr_append_inj (List.append_cancel_left h)
    exact ⟨rfl, rfl⟩
  · cases opening_eq h

end Suffix

/-! ## Types with suffixes -/

namespace Ty

/-- The type with some suffixes, the first one innermost. -/
def extend (ty : Ty) (xs : List Suffix) : Ty := xs.foldl (fun ty x => x.around ty) ty

theorem extend_concat (ty : Ty) (xs : List Suffix) (x : Suffix) :
    ty.extend (xs ++ [x]) = x.around (ty.extend xs) := by
  rw [extend, List.foldl_append]
  rfl

theorem tags_extend (ty : Ty) (xs : List Suffix) :
    (ty.extend xs).tags = ty.tags ++ xs.flatMap Suffix.tags := by
  induction xs generalizing ty with
  | nil => simp [extend]
  | cons x xs ih =>
    refine (ih (x.around ty)).trans ?_
    rw [x.tags_around, List.flatMap_cons, List.append_assoc]

/-- Every type is one that a specifier can name, with suffixes. -/
theorem suffix_induction {P : Ty → Prop} (base : ∀ ty : Ty, ty.isBase = true → P ty)
    (around : ∀ (x : Suffix) (ty : Ty), P ty → P (x.around ty)) : (ty : Ty) → P ty
  | .int => base .int rfl
  | .char => base .char rfl
  | .struct tag => base (.struct tag) rfl
  | .pointer ty => around (.level .pointer) ty (suffix_induction base around ty)
  | .array ty size => around (.level (.array size)) ty (suffix_induction base around ty)
  | .function ty params => around (.call params) ty (suffix_induction base around ty)

/-- With some suffixes, which come between `r` and `s`, the type `a` is `b`. -/
def Begins (a : Ty) (r : List Char) (b : Ty) (s : List Char) : Prop :=
  ∃ xs, b = a.extend xs ∧ r = xs.flatMap Suffix.text ++ s

/-- Where a text starts with the spellings of two types, one of them is the other with suffixes. -/
def Aligned (a : Ty) : Prop :=
  ∀ (b : Ty) (r s : List Char), a.Worded → b.Worded → EndsWord r → EndsWord s →
    a.spelling.toList ++ r = b.spelling.toList ++ s → Begins a r b s ∨ Begins b s a r

variable {a b : Ty} {r s : List Char} {x : Suffix}

theorem worded_around : (x.around a).Worded ↔ a.Worded ∧ x.Worded := by
  rw [Worded, x.tags_around]
  exact List.forall_mem_append

theorem Begins.refl (a : Ty) (r : List Char) : Begins a r a r := ⟨[], rfl, rfl⟩

/-- One more suffix on the longer type. -/
theorem Begins.around (h : Begins a r b (x.text ++ s)) : Begins a r (x.around b) s := by
  obtain ⟨xs, rfl, rfl⟩ := h
  refine ⟨xs ++ [x], by rw [extend_concat], ?_⟩
  rw [List.flatMap_append, List.flatMap_singleton, List.append_assoc]

/-- One more suffix on the shorter type. It is the next one on the longer type too, or there is none
and the shorter type becomes the longer one. -/
theorem Begins.of_around (hx : x.Known) (hwx : x.Worded) (hwb : b.Worded)
    (h : Begins a (x.text ++ r) b s) :
    Begins (x.around a) r b s ∨ Begins b s (x.around a) r := by
  obtain ⟨xs, rfl, hr⟩ := h
  cases xs with
  | nil => exact .inr (Begins.around ⟨[], rfl, hr.symm⟩)
  | cons y xs =>
    have hwy : y.Worded := by
      intro tag htag
      apply hwb
      rw [tags_extend, List.flatMap_cons]
      simp [htag]
    rw [List.flatMap_cons, List.append_assoc] at hr
    obtain ⟨rfl, rfl⟩ := hx y _ _ hwx hwy hr
    exact .inl ⟨xs, rfl, rfl⟩

theorem Aligned.around (ha : Aligned a) (hx : x.Known) : Aligned (x.around a) := by
  intro b r s hwa hwb hr hs h
  obtain ⟨hwa, hwx⟩ := worded_around.1 hwa
  rw [x.toList_around, List.append_assoc] at h
  rcases ha b _ s hwa hwb (x.endsWord_text r) hs h with h | h
  · exact h.of_around hx hwx hwb
  · exact .inr h.around

/-- Types that a specifier can name are told apart by their words. -/
theorem base_inj (ha : a.isBase = true) (hb : b.isBase = true) (hwa : a.Worded) (hwb : b.Worded)
    (hr : EndsWord r) (hs : EndsWord s) (h : a.spelling.toList ++ r = b.spelling.toList ++ s) :
    a = b ∧ r = s := by
  cases a with
  | int => cases b <;> simp_all [spelling, isBase]
  | char => cases b <;> simp_all [spelling, isBase]
  | struct tag =>
    cases b with
    | struct tag' =>
      simp only [spelling, String.toList_append, List.append_assoc] at h
      obtain ⟨rfl, rfl⟩ := word_append_inj (hwa tag (by simp [tags])) (hwb tag' (by simp [tags]))
        hr hs (List.append_cancel_left h)
      exact ⟨rfl, rfl⟩
    | _ => simp_all [spelling, isBase]
  | _ => cases ha

theorem aligned_of_isBase (ha : a.isBase = true) : Aligned a := by
  intro b r s hwa hwb hr hs h
  -- `a` has no suffixes, so it is `b` that may have some
  left
  induction b using suffix_induction generalizing s with
  | base b hb =>
    obtain ⟨rfl, rfl⟩ := base_inj ha hb hwa hwb hr hs h
    exact .refl ..
  | around x b ih =>
    rw [x.toList_around, List.append_assoc] at h
    exact (ih _ (worded_around.1 hwb).1 (x.endsWord_text s) h).around

/-! ## Where a type ends -/

/-- Neither a word nor a suffix goes on here. -/
def EndsType (r : List Char) : Prop :=
  ∀ c ∈ r.head?, isWordChar c = false ∧ c ∉ ['*', '[', '(']

theorem EndsType.endsWord (h : EndsType r) : EndsWord r := fun c hc => (h c hc).1

theorem endsType_nil : EndsType [] := by simp [EndsType]

theorem endsType_cons {c : Char} (h : isWordChar c = false ∧ c ∉ ['*', '[', '('])
    (r : List Char) : EndsType (c :: r) := by
  intro d hd
  obtain rfl := Option.some.inj hd
  exact h

theorem Begins.eq (hr : EndsType r) (h : Begins a r b s) : a = b ∧ r = s := by
  obtain ⟨xs, rfl, rfl⟩ := h
  cases xs with
  | nil => exact ⟨rfl, rfl⟩
  | cons x xs =>
    obtain ⟨w, hw⟩ := x.text_eq
    have hopen := (hr x.opening (by simp [hw])).2
    rcases x with (_ | _) | _ <;> simp [Suffix.opening] at hopen

theorem Aligned.inj (ha : Aligned a) (hwa : a.Worded) (hwb : b.Worded) (hr : EndsType r)
    (hs : EndsType s) (h : a.spelling.toList ++ r = b.spelling.toList ++ s) : a = b ∧ r = s := by
  rcases ha b r s hwa hwb hr.endsWord hs.endsWord h with h | h
  · exact h.eq hr
  · exact ⟨(h.eq hs).1.symm, (h.eq hs).2.symm⟩

theorem head_spelling (ty : Ty) : ∃ c ∈ ty.spelling.toList.head?, isWordChar c = true := by
  induction ty using suffix_induction with
  | base ty h =>
    cases ty with
    | int | char | struct _ =>
      simp [spelling]
      decide
    | _ => cases h
  | around x ty ih =>
    obtain ⟨c, hc, hword⟩ := ih
    refine ⟨c, ?_, hword⟩
    rw [x.toList_around, List.head?_append, Option.mem_def.1 hc]
    rfl

/-- No type starts with a character that is no part of a word. -/
theorem spelling_append_ne {ty : Ty} {c : Char} (hc : isWordChar c = false) (r s : List Char) :
    ty.spelling.toList ++ r ≠ c :: s := by
  intro h
  obtain ⟨d, hd, hword⟩ := head_spelling ty
  have hhead := congrArg List.head? h
  rw [List.head?_append, Option.mem_def.1 hd] at hhead
  cases hhead
  rw [hc] at hword
  cases hword

/-! ## Parameters -/

/-- What comes after a parameter. -/
def moreParams : List Ty → List Char
  | [] => []
  | p :: ps => ',' :: (paramSpellings (p :: ps)).toList

theorem toList_paramSpellings (p : Ty) (ps : List Ty) :
    (paramSpellings (p :: ps)).toList = p.spelling.toList ++ moreParams ps := by
  cases ps <;> simp [paramSpellings, moreParams]

theorem endsType_moreParams (ps : List Ty) (r : List Char) :
    EndsType (moreParams ps ++ ')' :: r) := by
  cases ps with
  | nil => exact endsType_cons (by decide) r
  | cons p ps => exact endsType_cons (by decide) _

/-- The parameters are known by their text up to the closing mark. -/
def ParamsKnown (ps : List Ty) : Prop :=
  ∀ (qs : List Ty) (r s : List Char), (∀ tag ∈ paramTags ps, isWordText tag = true) →
    (∀ tag ∈ paramTags qs, isWordText tag = true) →
    (paramSpellings ps).toList ++ ')' :: r = (paramSpellings qs).toList ++ ')' :: s →
    ps = qs ∧ r = s

theorem paramsKnown_nil : ParamsKnown [] := by
  intro qs r s _ _ h
  cases qs with
  | nil => exact ⟨rfl, by simpa [paramSpellings] using h⟩
  | cons q qs =>
    rw [toList_paramSpellings, List.append_assoc] at h
    exact absurd h.symm (spelling_append_ne (by decide) _ _)

theorem paramsKnown_cons {p : Ty} {ps : List Ty} (hp : Aligned p) (hps : ParamsKnown ps) :
    ParamsKnown (p :: ps) := by
  intro qs r s hwp hwq h
  cases qs with
  | nil =>
    rw [toList_paramSpellings, List.append_assoc] at h
    exact absurd h (spelling_append_ne (by decide) _ _)
  | cons q qs =>
    rw [paramTags, List.forall_mem_append] at hwp hwq
    rw [toList_paramSpellings, toList_paramSpellings, List.append_assoc, List.append_assoc] at h
    obtain ⟨rfl, hmore⟩ := hp.inj hwp.1 hwq.1 (endsType_moreParams ps r)
      (endsType_moreParams qs s) h
    -- both lists end here, or both go on after a comma
    cases ps with
    | nil =>
      cases qs with
      | nil => exact ⟨rfl, (List.cons.inj hmore).2⟩
      | cons q qs => simp [moreParams] at hmore
    | cons p' ps =>
      cases qs with
      | nil => simp [moreParams] at hmore
      | cons q qs =>
        obtain ⟨htail, rfl⟩ := hps _ r s hwp.2 hwq.2 (List.cons.inj hmore).2
        exact ⟨by rw [htail], rfl⟩

theorem known_call {ps : List Ty} (h : ParamsKnown ps) : (Suffix.call ps).Known := by
  intro y r s hwx hwy heq
  rcases y with (_ | _) | qs
  · cases Suffix.opening_eq heq
  · cases Suffix.opening_eq heq
  · simp only [Suffix.text, List.cons_append, List.append_assoc, List.nil_append] at heq
    obtain ⟨rfl, rfl⟩ := h qs r s hwx hwy (List.cons.inj heq).2
    exact ⟨rfl, rfl⟩

mutual

theorem aligned : (a : Ty) → Aligned a
  | .int => aligned_of_isBase rfl
  | .char => aligned_of_isBase rfl
  | .struct _ => aligned_of_isBase rfl
  | .pointer a => (aligned a).around Suffix.known_pointer
  | .array a size => (aligned a).around (Suffix.known_array size)
  | .function ret params => (aligned ret).around (known_call (paramsKnown params))

theorem paramsKnown : (ps : List Ty) → ParamsKnown ps
  | [] => paramsKnown_nil
  | p :: ps => paramsKnown_cons (aligned p) (paramsKnown ps)

end

end Ty

/-! ## Members -/

/-- The name of the member and all tags in its type are words. -/
def Field.Worded (f : Field) : Prop := isWordText f.name = true ∧ f.ty.Worded

instance (f : Field) : Decidable f.Worded :=
  inferInstanceAs (Decidable (isWordText f.name = true ∧ f.ty.Worded))

namespace Field

theorem toList_text_append (f : Field) (r : List Char) :
    f.text.toList ++ r = f.ty.spelling.toList ++ ' ' :: (f.name.toList ++ ';' :: r) := by
  simp [text]

theorem text_append_inj {f g : Field} {r s : List Char} (hf : f.Worded) (hg : g.Worded)
    (h : f.text.toList ++ r = g.text.toList ++ s) : f = g ∧ r = s := by
  obtain ⟨name, ty⟩ := f
  obtain ⟨name', ty'⟩ := g
  rw [toList_text_append, toList_text_append] at h
  obtain ⟨rfl, hrest⟩ := (Ty.aligned ty).inj hf.2 hg.2 (Ty.endsType_cons (by decide) _)
    (Ty.endsType_cons (by decide) _) h
  obtain ⟨rfl, hmore⟩ := word_append_inj hf.1 hg.1 (endsWord_cons (by decide) _)
    (endsWord_cons (by decide) _) (List.cons.inj hrest).2
  exact ⟨rfl, (List.cons.inj hmore).2⟩

/-- Members are known by their texts up to the closing brace. -/
theorem texts_inj {fs gs : List Field} (hf : ∀ f ∈ fs, f.Worded) (hg : ∀ g ∈ gs, g.Worded)
    (h : fs.flatMap (·.text.toList) ++ ['\x7d'] = gs.flatMap (·.text.toList) ++ ['\x7d']) :
    fs = gs := by
  induction fs generalizing gs with
  | nil =>
    cases gs with
    | nil => rfl
    | cons g gs =>
      rw [List.flatMap_cons, List.append_assoc, g.toList_text_append] at h
      exact absurd h.symm (Ty.spelling_append_ne (by decide) _ _)
  | cons f fs ih =>
    cases gs with
    | nil =>
      rw [List.flatMap_cons, List.append_assoc, f.toList_text_append] at h
      exact absurd h (Ty.spelling_append_ne (by decide) _ _)
    | cons g gs =>
      rw [List.forall_mem_cons] at hf hg
      rw [List.flatMap_cons, List.flatMap_cons, List.append_assoc, List.append_assoc] at h
      obtain ⟨rfl, hrest⟩ := text_append_inj hf.1 hg.1 h
      rw [ih hf.2 hg.2 hrest]

end Field

namespace StructDef

/-- A struct whose layout lists its members, with words for its tag and for what its members
mention. -/
structure Listed (d : StructDef) : Prop where
  complete : d.complete = true
  nonempty : d.fields ≠ []
  tag : isWordText d.tag = true
  fields : ∀ f ∈ d.fields, f.Worded

theorem toList_layout {d : StructDef} (h : d.Listed) :
    d.layout.toList = "struct ".toList ++
      (d.tag.toList ++ '\x7b' :: (d.fields.flatMap (·.text.toList) ++ ['\x7d'])) := by
  have hcond : (d.complete && !d.fields.isEmpty) = true := by simp [h.complete, h.nonempty]
  rw [layout, if_pos hcond]
  simp [spelling, List.flatMap_map]

theorem layout_inj {d e : StructDef} (hd : d.Listed) (he : e.Listed) (h : d.layout = e.layout) :
    d.tag = e.tag ∧ d.fields = e.fields := by
  have htext := congrArg String.toList h
  rw [toList_layout hd, toList_layout he] at htext
  obtain ⟨htag, hrest⟩ := word_append_inj hd.tag he.tag (endsWord_cons (by decide) _)
    (endsWord_cons (by decide) _) (List.append_cancel_left htext)
  exact ⟨htag, Field.texts_inj hd.fields he.fields (List.cons.inj hrest).2⟩

end StructDef

/-- **Spellings and layouts are unambiguous.** As long as tags and names are words, a type can be
told from its spelling, and the tag and the members of a struct from its layout. -/
theorem spelling_and_layout_unambiguous :
    (∀ a b : Ty, a.Worded → b.Worded → (a.spelling = b.spelling ↔ a = b)) ∧
      ∀ d e : StructDef, d.Listed → e.Listed →
        (d.layout = e.layout ↔ d.tag = e.tag ∧ d.fields = e.fields) := by
  refine ⟨fun a b ha hb => ⟨fun h => ?_, fun h => by rw [h]⟩,
    fun d e hd he => ⟨StructDef.layout_inj hd he, fun h => ?_⟩⟩
  · have htext : a.spelling.toList ++ [] = b.spelling.toList ++ [] := by rw [h]
    exact ((Ty.aligned a).inj ha hb Ty.endsType_nil Ty.endsType_nil htext).1
  · apply String.toList_inj.1
    rw [StructDef.toList_layout hd, StructDef.toList_layout he, h.1, h.2]

/-- `struct s_1*(int(int),char[12])` -/
def twoParams : Ty :=
  .function (.pointer (.struct "s_1")) [.function .int [.int], .array .char 12]

/-- `struct s_1*(int(int,char[12]))` -/
def oneParam : Ty :=
  .function (.pointer (.struct "s_1")) [.function .int [.int, .array .char 12]]

def handlerStruct (handler : Ty) : StructDef :=
  ⟨"s_1", [⟨"handler", .pointer handler⟩, ⟨"name", .array .char 12⟩], true⟩

theorem nested_params_unambiguous :
    (twoParams.Worded ∧ oneParam.Worded ∧
        (twoParams.spelling = oneParam.spelling ↔ twoParams = oneParam)) ∧
      (handlerStruct twoParams).Listed ∧ (handlerStruct oneParam).Listed ∧
        ((handlerStruct twoParams).layout = (handlerStruct oneParam).layout ↔
          (handlerStruct twoParams).tag = (handlerStruct oneParam).tag ∧
            (handlerStruct twoParams).fields = (handlerStruct oneParam).fields) := by
  have htwo : twoParams.Worded := by decide
  have hone : oneParam.Worded := by decide
  have hdtwo : (handlerStruct twoParams).Listed := ⟨rfl, by decide, by decide, by decide⟩
  have hdone : (handlerStruct oneParam).Listed := ⟨rfl, by decide, by decide, by decide⟩
  exact ⟨⟨htwo, hone, spelling_and_layout_unambiguous.1 _ _ htwo hone⟩, hdtwo, hdone,
    spelling_and_layout_unambiguous.2 _ _ hdtwo hdone⟩

end MiniC
