import MiniC.Proofs.StoredTypes

/-!
# Declarators conserve levels

A declarator puts pointers and arrays around the type it is declared over. `Declarator.levels` lists
them from that type outwards, and the declared type is that type with these levels around it
(`Declarator.over_eq_wrap`). In which order the levels come depends on how stars, brackets and
parentheses are put together, but not which ones there are (`resolve_conserves_levels`): there is a
pointer for each star, and the arrays have the bounds from the name outwards, apart from those that
are no positive number, each of which is reported.
-/

namespace MiniC

/-- One step from a type to a type made of it. -/
inductive Level where
  | pointer
  | array (size : Nat)
  deriving DecidableEq, Repr

namespace Level

def size? : Level → Option Nat
  | .pointer => none
  | .array size => some size

/-- The type with this level around it. -/
def around : Level → Ty → Ty
  | .pointer, ty => .pointer ty
  | .array size, ty => .array ty size

/-- What the level adds to the spelling of a type. -/
def text : Level → String
  | .pointer => "*"
  | .array size => "[" ++ size.repr ++ "]"

/-- The array level of a bound with this number, which has to be positive. -/
def ofNumber (n : Int) : List Level := if n ≤ 0 then [] else [.array n.toNat]

end Level

/-! ## Levels of types -/

namespace Ty

/-- The type with some levels around it, the first one innermost. -/
def wrap (ty : Ty) (levels : List Level) : Ty := levels.foldl (fun ty level => level.around ty) ty

/-- What is inside of all pointers and arrays. -/
def root : Ty → Ty
  | .array elem _ => elem.root
  | .pointer target => target.root
  | .int => .int
  | .char => .char
  | .struct tag => .struct tag
  | .function ret params => .function ret params

/-- The pointers and arrays around the root, the innermost first. -/
def levels : Ty → List Level
  | .array elem size => elem.levels ++ [.array size]
  | .pointer target => target.levels ++ [.pointer]
  | .int | .char | .struct _ | .function _ _ => []

variable (ty : Ty) (ls ls' : List Level)

@[simp] theorem wrap_nil : ty.wrap [] = ty := rfl

@[simp] theorem wrap_append : ty.wrap (ls ++ ls') = (ty.wrap ls).wrap ls' := List.foldl_append

theorem wrap_pointer : ty.wrap [.pointer] = .pointer ty := rfl

theorem root_wrap : (ty.wrap ls).root = ty.root := by
  induction ls generalizing ty with
  | nil => rfl
  | cons level ls ih =>
    refine (ih (level.around ty)).trans ?_
    cases level <;> rfl

theorem levels_wrap : (ty.wrap ls).levels = ty.levels ++ ls := by
  induction ls generalizing ty with
  | nil => exact (List.append_nil _).symm
  | cons level ls ih =>
    have haround : (level.around ty).levels = ty.levels ++ [level] := by cases level <;> rfl
    refine (ih (level.around ty)).trans ?_
    rw [haround, List.append_assoc, List.singleton_append]

/-- Different levels make different types. -/
theorem wrap_inj {ty : Ty} {ls ls' : List Level} : ty.wrap ls = ty.wrap ls' ↔ ls = ls' := by
  refine ⟨fun h => ?_, fun h => by rw [h]⟩
  have hlevels := congrArg levels h
  rw [levels_wrap, levels_wrap] at hlevels
  exact List.append_cancel_left hlevels

/-- Levels are spelled from the inside out, after the type that they are around. -/
theorem spelling_wrap : (ty.wrap ls).spelling = ty.spelling ++ String.join (ls.map Level.text) := by
  induction ls generalizing ty with
  | nil => simp
  | cons level ls ih =>
    have haround : (level.around ty).spelling = ty.spelling ++ level.text := by
      cases level with
      | pointer => simp only [Level.around, spelling, Level.text]
      | array size => simp only [Level.around, spelling, Level.text, String.append_assoc]
    refine (ih (level.around ty)).trans ?_
    rw [haround, List.map_cons, String.join_cons, String.append_assoc]

theorem root_of_isBase {ty : Ty} (h : ty.isBase = true) : ty.root = ty := by
  cases ty with
  | int | char | struct _ => rfl
  | array _ _ | pointer _ | function _ _ => cases h

theorem levels_of_isBase {ty : Ty} (h : ty.isBase = true) : ty.levels = [] := by
  cases ty with
  | int | char | struct _ => rfl
  | array _ _ | pointer _ | function _ _ => cases h

end Ty

/-! ## Levels of declarators -/

/-- The array level of a bound. -/
def Bound.levels (size : Bound) : List Level := Level.ofNumber (Bound.number size.text)

namespace Bound

theorem over_eq_wrap (elem : Ty) (size : Bound) : size.over elem = elem.wrap size.levels := by
  unfold Bound.over levels Level.ofNumber
  split <;> rfl

variable (size : Bound)

theorem levels_cases : (¬ 0 < Bound.number size.text ∧ size.levels = []) ∨
    0 < Bound.number size.text ∧ size.levels = [.array (Bound.number size.text).toNat] := by
  unfold levels Level.ofNumber
  by_cases h : Bound.number size.text ≤ 0
  · exact .inl ⟨by omega, if_pos h⟩
  · exact .inr ⟨by omega, if_neg h⟩

theorem count_levels : size.levels.count .pointer = 0 := by
  obtain ⟨-, h⟩ | ⟨-, h⟩ := size.levels_cases <;> rw [h] <;> rfl

theorem sizes_levels : size.levels.filterMap Level.size? =
    (([Bound.number size.text] : List Int).filter (0 < ·)).map Int.toNat := by
  obtain ⟨hnumber, h⟩ | ⟨hnumber, h⟩ := size.levels_cases
  · simp [h, hnumber]
  · simp [h, hnumber, Level.size?]

end Bound

namespace Declarator

/-- The number of stars. -/
def stars : Declarator → Nat
  | .ident _ => 0
  | .array inner _ _ | .paren inner _ => inner.stars
  | .pointer inner _ => inner.stars + 1

/-- The numbers of the bounds, from the name outwards. -/
def numbers : Declarator → List Int
  | .ident _ => []
  | .array inner size _ => inner.numbers ++ [Bound.number size.text]
  | .pointer inner _ | .paren inner _ => inner.numbers

/-- The levels that the declarator puts around a type, the innermost first. -/
def levels : Declarator → List Level
  | .ident _ => []
  | .paren inner _ => inner.levels
  | .pointer (.array elem size _) _ => elem.levels ++ .pointer :: size.levels
  | .pointer inner _ => inner.levels ++ [.pointer]
  | .array (.paren (.pointer (.ident _) _) _) size _ => size.levels ++ [.pointer]
  | .array inner size _ => inner.levels ++ size.levels

theorem over_eq_wrap (base : Ty) (d : Declarator) : d.over base = base.wrap d.levels := by
  fun_induction levels d with
  | case1 => rfl
  | case2 inner _ ih => exact ih
  | case3 elem size _ _ ih =>
    rw [Declarator.over, Bound.over_eq_wrap, ih, List.append_cons, Ty.wrap_append, Ty.wrap_append,
      Ty.wrap_pointer]
  | case4 inner _ hne ih =>
    rw [Declarator.over, ih, Ty.wrap_append, Ty.wrap_pointer]
    exact hne
  | case5 _ _ _ size _ => rw [Declarator.over, Bound.over_eq_wrap, Ty.wrap_append, Ty.wrap_pointer]
  | case6 inner size _ hne ih =>
    rw [Declarator.over, Bound.over_eq_wrap, ih, Ty.wrap_append]
    exact hne

theorem count_levels (d : Declarator) : d.levels.count .pointer = d.stars := by
  fun_induction levels d with
  | case1 => rfl
  | case2 inner _ ih => exact ih
  | case3 elem size _ _ ih =>
    rw [List.count_append, List.count_cons_self, size.count_levels, ih]
    rfl
  | case4 inner _ _ ih =>
    rw [List.count_append, ih]
    rfl
  | case5 _ _ _ size _ =>
    rw [List.count_append, size.count_levels]
    rfl
  | case6 inner size _ _ ih =>
    rw [List.count_append, size.count_levels, ih]
    rfl

theorem sizes_levels (d : Declarator) :
    d.levels.filterMap Level.size? = (d.numbers.filter (0 < ·)).map Int.toNat := by
  fun_induction levels d with
  | case1 => rfl
  | case2 inner _ ih => exact ih
  | case3 elem size _ _ ih =>
    rw [List.filterMap_append, ih, List.filterMap_cons_none rfl, size.sizes_levels,
      ← List.map_append, ← List.filter_append]
    rfl
  | case4 inner _ _ ih =>
    rw [List.filterMap_append, ih]
    exact List.append_nil _
  | case5 _ _ _ size _ =>
    rw [List.filterMap_append, size.sizes_levels]
    exact List.append_nil _
  | case6 inner size _ _ ih =>
    rw [List.filterMap_append, ih, size.sizes_levels, ← List.map_append, ← List.filter_append]
    rfl

end Declarator

/-! ## Resolving -/

theorem Check.events_arrayOf (id : Ident) (elem : Ty) (size : Bound) (s : State) :
    (arrayOf id elem size s).events =
      .replicate (List.countP (· ≤ 0) [Bound.number size.text])
        (.reported (.atIdent .incompleteType id)) := by
  unfold arrayOf
  by_cases h : Bound.number size.text ≤ 0
  · simp only [h, ↓reduceIte, List.countP_singleton, decide_true]
    rfl
  · simp only [h, ↓reduceIte, List.countP_singleton, decide_false, Bool.false_eq_true]
    rfl

namespace Declarator

/-- One error for each bound that is no positive number. -/
theorem events_typeOver (id : Ident) (base : Ty) (d : Declarator) (s : State) :
    (d.typeOver id base s).events =
      .replicate (d.numbers.countP (· ≤ 0)) (.reported (.atIdent .incompleteType id)) := by
  fun_induction Declarator.typeOver id base d generalizing s with
  | case1 => rfl
  | case2 inner _ ih => exact ih s
  | case3 elem size _ _ ih | case6 elem size _ _ ih =>
    rw [Check.bind_apply, ih, Check.events_arrayOf, List.replicate_append_replicate,
      ← List.countP_append]
    rfl
  | case4 inner _ _ ih =>
    rw [Check.bind_apply, ih]
    exact List.append_nil _
  | case5 _ _ _ size _ =>
    rw [Check.bind_apply, Check.events_arrayOf]
    exact List.append_nil _

/-- The errors come first, and then that the declarator is resolved. -/
theorem events_resolve (base : Ty) (d : Declarator) (s : State) :
    (d.resolve base s).events =
      .replicate (d.numbers.countP (· ≤ 0)) (.reported (.atIdent .incompleteType d.core)) ++
        [.resolved d.core.name (d.over base)] := by
  have hty := Check.Resolves.value_eq (d.typeOver_resolves d.core base) s
  rw [resolve, Check.bind_apply, events_typeOver, hty]
  rfl

theorem value_resolve (base : Ty) (d : Declarator) (s : State) :
    (d.resolve base s).value = ⟨d.core, base.wrap d.levels⟩ := by
  obtain ⟨known, hs⟩ := s.structs.exists_knows
  rw [(d.resolve_resolves base known s hs).value, over_eq_wrap]

theorem errors_resolve (base : Ty) (d : Declarator) (s : State) :
    Event.errors (d.resolve base s).events =
      .replicate (d.numbers.countP (· ≤ 0)) (.atIdent .incompleteType d.core) := by
  rw [events_resolve, Event.errors_append, ← List.map_replicate, Event.errors_map_reported]
  exact List.append_nil _

end Declarator

/-- **Resolving conserves levels.** Whatever its shape, a declarator over a base type gives its core
name a type with that base at the root and one pointer for each star. Read from the base outwards,
the sizes of the arrays are the bounds read from the name outwards, without those that are not
positive. For each of these one error is reported at the core name, and there are no others. -/
theorem resolve_conserves_levels (d : Declarator) {base : Ty} (hbase : base.isBase = true)
    (s : State) :
    (d.resolve base s).value.ident = d.core ∧
    (d.resolve base s).value.ty.root = base ∧
    (d.resolve base s).value.ty.levels.count .pointer = d.stars ∧
    (d.resolve base s).value.ty.levels.filterMap Level.size? =
      (d.numbers.filter (0 < ·)).map Int.toNat ∧
    Event.errors (d.resolve base s).events =
      .replicate (d.numbers.countP (· ≤ 0)) (.atIdent .incompleteType d.core) := by
  have hlevels : (base.wrap d.levels).levels = d.levels := by
    rw [Ty.levels_wrap, Ty.levels_of_isBase hbase, List.nil_append]
  rw [d.value_resolve base s]
  refine ⟨rfl, ?_, ?_, ?_, d.errors_resolve base s⟩
  · rw [Ty.root_wrap, Ty.root_of_isBase hbase]
  · rw [hlevels, d.count_levels]
  · rw [hlevels, d.sizes_levels]

/-- `(*v[2][0])[3]`, which has a star between its bounds and one bound that is not positive. -/
def mixedDeclarator : Declarator :=
  let v : Declarator := .ident ⟨"v", ⟨2, 3, 1, 3⟩⟩
  .array (.paren (.pointer (.array (.array v ⟨"2", ⟨4, 5, 1, 5⟩⟩ ⟨2, 6, 1, 3⟩)
    ⟨"0", ⟨7, 8, 1, 8⟩⟩ ⟨2, 9, 1, 3⟩) ⟨1, 9, 1, 2⟩) ⟨0, 10, 1, 1⟩) ⟨"3", ⟨11, 12, 1, 12⟩⟩
    ⟨0, 13, 1, 1⟩

theorem mixedDeclarator_conserves_levels :
    (Ty.struct "S").isBase = true ∧
    (mixedDeclarator.resolve (.struct "S") .initial).value.ty.root = .struct "S" ∧
    (mixedDeclarator.resolve (.struct "S") .initial).value.ty.levels.count .pointer = 1 ∧
    (mixedDeclarator.resolve (.struct "S") .initial).value.ty.levels.filterMap Level.size? =
      [2, 3] ∧
    Event.errors (mixedDeclarator.resolve (.struct "S") .initial).events =
      [⟨.incompleteType, "v", ⟨2, 3, 1, 3⟩⟩] := by
  have hnumbers : mixedDeclarator.numbers = [2, 0, 3] := by decide +kernel
  obtain ⟨-, hroot, hpointers, hsizes, herrors⟩ :=
    @resolve_conserves_levels mixedDeclarator (.struct "S") rfl .initial
  rw [hnumbers] at hsizes herrors
  exact ⟨rfl, hroot, hpointers, hsizes, herrors⟩

end MiniC
