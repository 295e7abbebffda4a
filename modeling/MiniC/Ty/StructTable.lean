import MiniC.Dict
import MiniC.Ty.Basic

/-! # The struct tags of a program

The table has an entry for each tag that was mentioned, and the tags in the order of first mention
in a list of its own. An entry starts incomplete and is completed by the first definition of its
tag; nothing makes it incomplete again. -/

namespace MiniC

structure StructTable where
  entries : Dict StructDef
  order : List String
  deriving DecidableEq, Repr

namespace StructTable

def empty : StructTable := ⟨.empty, []⟩

def get? (t : StructTable) (tag : String) : Option StructDef := t.entries.get? tag

/-- The tag has an entry. -/
def mentions (t : StructTable) (tag : String) : Bool := (t.get? tag).isSome

/-- The tag has been defined. -/
def isDefined (t : StructTable) (tag : String) : Bool := (t.get? tag).any (·.complete)

/-- The entries in the order in which their tags were first mentioned. -/
def defs (t : StructTable) : List StructDef := t.order.filterMap t.get?

/-- Changes the entry of `tag`, if there is one. -/
def update (t : StructTable) (tag : String) (f : StructDef → StructDef) : StructTable :=
  { t with entries := t.entries.modify tag f }

/-- Makes sure that `tag` has an entry; a new one is incomplete, and its tag comes last. -/
def mention (t : StructTable) (tag : String) : StructTable :=
  if t.mentions tag then t else ⟨t.entries.insert tag (.mentioned tag), t.order ++ [tag]⟩

/-- Completes the entry of `tag`, without members so far; none if it is complete already. -/
def define? (t : StructTable) (tag : String) : Option StructTable :=
  if t.isDefined tag then none
  else some ((t.mention tag).update tag fun d => { d with fields := [], complete := true })

/-- Sets the members of the entry of `tag`. -/
def giveFields (t : StructTable) (tag : String) (fields : List Field) : StructTable :=
  t.update tag fun d => { d with fields := fields }

/-- A struct without definition, or an array of such, to any depth. Pointers are complete
whatever they point to. -/
def isIncomplete (t : StructTable) : Ty → Bool
  | .struct tag => !t.isDefined tag
  | .array elem _ => t.isIncomplete elem
  | _ => false

/-- A change is seen at its tag only. -/
theorem get?_update (t : StructTable) (tag n : String) (f : StructDef → StructDef) :
    (t.update tag f).get? n = if tag = n then (t.get? n).map f else t.get? n :=
  t.entries.get?_modify tag n f

/-- Mentioning a tag gives it an entry if it had none, and changes no entry. -/
theorem get?_mention (t : StructTable) (tag n : String) :
    (t.mention tag).get? n =
      (t.get? n).or (if tag = n then some (.mentioned tag) else none) := by
  unfold mention
  split
  · next h =>
    split
    · next hn =>
      subst hn
      obtain ⟨d, hd⟩ := Option.isSome_iff_exists.1 h
      simp [hd]
    · simp
  · next h =>
    have hnone : t.get? tag = none := Option.not_isSome_iff_eq_none.1 h
    refine (t.entries.get?_insert tag n _).trans ?_
    split
    · next hn => rw [← hn, hnone, Option.none_or]
    · rw [Option.or_none]
      rfl

theorem mentions_mention (t : StructTable) (tag : String) :
    (t.mention tag).mentions tag = true := by
  simp [mentions, get?_mention]

/-- The layout of a type by the definitions of the table. -/
def layout (t : StructTable) (ty : Ty) : String := ty.layout t.get?

end StructTable

end MiniC
