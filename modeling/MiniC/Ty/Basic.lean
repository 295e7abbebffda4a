/-! # Types and struct definitions

A struct type names its tag only. What the tag stands for is a `StructDef`, kept apart from the
types, so that every mention of a tag means the same definition, a later one too. Every type has
a spelling, in which a struct is its tag. The layout of a struct type lists the members too. -/

namespace MiniC

inductive Ty where
  | int
  | char
  | array (elem : Ty) (size : Nat)
  | pointer (target : Ty)
  | struct (tag : String)
  | function (ret : Ty) (params : List Ty)
  deriving Repr

namespace Ty

mutual

/-- Equality of types, decided part by part. -/
def same : Ty → Ty → Bool
  | .int, .int => true
  | .char, .char => true
  | .array a n, .array b m => same a b && n == m
  | .pointer a, .pointer b => same a b
  | .struct s, .struct t => s == t
  | .function r ps, .function q qs => same r q && sameAll ps qs
  | _, _ => false

def sameAll : List Ty → List Ty → Bool
  | [], [] => true
  | a :: as, b :: bs => same a b && sameAll as bs
  | _, _ => false

end

mutual

theorem same_self : (a : Ty) → same a a = true
  | .int | .char => by simp [same]
  | .struct _ => by simp [same]
  | .array a _ => by simp [same, same_self a]
  | .pointer a => by simp [same, same_self a]
  | .function r ps => by simp [same, same_self r, sameAll_self ps]

theorem sameAll_self : (as : List Ty) → sameAll as as = true
  | [] => by simp [sameAll]
  | a :: as => by simp [sameAll, same_self a, sameAll_self as]

end

mutual

theorem eq_of_same : (a b : Ty) → same a b = true → a = b
  | .int, b, h => by cases b <;> simp_all [same]
  | .char, b, h => by cases b <;> simp_all [same]
  | .struct _, b, h => by cases b <;> simp_all [same]
  | .array a n, b, h => by
    cases b with
    | array a' n' =>
      simp only [same, Bool.and_eq_true, beq_iff_eq] at h
      rw [eq_of_same a a' h.1, h.2]
    | _ => simp [same] at h
  | .pointer a, b, h => by
    cases b with
    | pointer a' =>
      simp only [same] at h
      rw [eq_of_same a a' h]
    | _ => simp [same] at h
  | .function r ps, b, h => by
    cases b with
    | function q qs =>
      simp only [same, Bool.and_eq_true] at h
      rw [eq_of_same r q h.1, eq_of_sameAll ps qs h.2]
    | _ => simp [same] at h

theorem eq_of_sameAll : (as bs : List Ty) → sameAll as bs = true → as = bs
  | [], bs, h => by cases bs <;> simp_all [sameAll]
  | a :: as, bs, h => by
    cases bs with
    | nil => simp [sameAll] at h
    | cons b bs =>
      simp only [sameAll, Bool.and_eq_true] at h
      rw [eq_of_same a b h.1, eq_of_sameAll as bs h.2]

end

theorem same_iff {a b : Ty} : same a b = true ↔ a = b :=
  ⟨eq_of_same a b, fun h => h ▸ same_self a⟩

instance : DecidableEq Ty := fun _ _ => decidable_of_iff _ same_iff

def isArray : Ty → Bool
  | .array _ _ => true
  | _ => false

mutual

/-- `int`, `char`, `T[n]`, `T*`, `struct tag` or `R(P1,P2)`. -/
def spelling : Ty → String
  | .int => "int"
  | .char => "char"
  | .array elem size => elem.spelling ++ "[" ++ size.repr ++ "]"
  | .pointer target => target.spelling ++ "*"
  | .struct tag => "struct " ++ tag
  | .function ret params => ret.spelling ++ "(" ++ paramSpellings params ++ ")"

/-- The spellings of parameters, commas between them. -/
def paramSpellings : List Ty → String
  | [] => ""
  | [p] => p.spelling
  | p :: ps => p.spelling ++ "," ++ paramSpellings ps

end

end Ty

/-- A struct member. -/
structure Field where
  name : String
  ty : Ty
  deriving DecidableEq, Repr

/-- `T name;` -/
def Field.text (f : Field) : String := f.ty.spelling ++ " " ++ f.name ++ ";"

/-- What is known of a struct tag: whether it has been defined, and its members in order. -/
structure StructDef where
  tag : String
  fields : List Field
  complete : Bool
  deriving DecidableEq, Repr

namespace StructDef

/-- A tag that has been mentioned only. -/
def mentioned (tag : String) : StructDef := ⟨tag, [], false⟩

def spelling (d : StructDef) : String := "struct " ++ d.tag

/-- `struct tag` with the members in braces, or without where there are none to list. -/
def layout (d : StructDef) : String :=
  if d.complete && !d.fields.isEmpty then
    d.spelling ++ "\x7b" ++ String.join (d.fields.map Field.text) ++ "\x7d"
  else d.spelling

/-- The definition of `tag` in a list where later ones replace earlier ones. -/
def latest? (defs : List StructDef) (tag : String) : Option StructDef :=
  defs.reverse.find? (·.tag == tag)

end StructDef

/-- The layout of a struct that `lookup` knows, the spelling of any other type. -/
def Ty.layout (lookup : String → Option StructDef) (ty : Ty) : String :=
  match ty with
  | .struct tag => ((lookup tag).map StructDef.layout).getD ty.spelling
  | _ => ty.spelling

end MiniC
