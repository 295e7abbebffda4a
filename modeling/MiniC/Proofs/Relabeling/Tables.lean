import MiniC.Proofs.Registry.Run
import MiniC.Proofs.Relabeling.Trees

/-!
# Relabeled types and tables

A relabeling acts on all that an analysis makes of a tree: on types, on symbols and scopes, and on
the table of struct tags. Looking a name up and changing what is bound to it commute with it,
because names that differ stay different.
-/

namespace MiniC

/-! ## Types -/

mutual

def Ty.relabel (ρ : Relabeling) : Ty → Ty
  | .int => .int
  | .char => .char
  | .array elem size => .array (elem.relabel ρ) size
  | .pointer target => .pointer (target.relabel ρ)
  | .struct tag => .struct (ρ.name .tag tag)
  | .function ret params => .function (ret.relabel ρ) (relabelTys ρ params)

def relabelTys (ρ : Relabeling) : List Ty → List Ty
  | [] => []
  | ty :: more => ty.relabel ρ :: relabelTys ρ more

end

theorem relabelTys_eq_map (ρ : Relabeling) (tys : List Ty) :
    relabelTys ρ tys = tys.map (Ty.relabel ρ) := by
  induction tys with
  | nil => rfl
  | cons ty more ih => rw [relabelTys, ih, List.map_cons]

mutual

/-- A type that names its tags as before is the same. -/
theorem Ty.relabel_of_names {ρ : Relabeling} (h : ∀ n, ρ.name .tag n = n) :
    (ty : Ty) → ty.relabel ρ = ty
  | .int | .char => rfl
  | .array elem size => by rw [Ty.relabel, elem.relabel_of_names h]
  | .pointer target => by rw [Ty.relabel, target.relabel_of_names h]
  | .struct tag => by rw [Ty.relabel, h]
  | .function ret params => by
    rw [Ty.relabel, ret.relabel_of_names h, relabelTys_of_names h params]

theorem relabelTys_of_names {ρ : Relabeling} (h : ∀ n, ρ.name .tag n = n) :
    (tys : List Ty) → relabelTys ρ tys = tys
  | [] => rfl
  | ty :: more => by rw [relabelTys, ty.relabel_of_names h, relabelTys_of_names h more]

end

namespace Ty

/-- The tag whose definition makes the type complete, if it needs one. -/
def tag? : Ty → Option String
  | .struct tag => some tag
  | .array elem _ => elem.tag?
  | .int | .char | .pointer _ | .function _ _ => none

theorem tag?_relabel (ρ : Relabeling) : (ty : Ty) → (ty.relabel ρ).tag? = ty.tag?.map (ρ.name .tag)
  | .array elem _ => elem.tag?_relabel ρ
  | .int | .char | .pointer _ | .struct _ | .function _ _ => rfl

theorem isArray_relabel (ρ : Relabeling) (ty : Ty) : (ty.relabel ρ).isArray = ty.isArray := by
  cases ty <;> rfl

end Ty

theorem StructTable.isIncomplete_eq (t : StructTable) :
    (ty : Ty) → t.isIncomplete ty = ty.tag?.any (!t.isDefined ·)
  | .array elem _ => t.isIncomplete_eq elem
  | .int | .char | .pointer _ | .struct _ | .function _ _ => rfl

/-- A declared name, with its type. -/
def TypedIdent.relabel (ρ : Relabeling) (space : Space) (d : TypedIdent) : TypedIdent :=
  ⟨d.ident.relabel ρ space, d.ty.relabel ρ⟩

/-! ## Dictionaries -/

namespace Dict

/-- Other keys, different ones for different keys, and other values. -/
def rename (key : String → String) (hkey : Function.Injective key) (f : α → β) (d : Dict α) :
    Dict β where
  bindings := d.bindings.map fun b => (key b.1, f b.2)
  distinct := by
    have hdistinct := d.distinct.map hkey
    rw [List.map_map] at hdistinct ⊢
    exact hdistinct

variable {key : String → String} (hkey : Function.Injective key) (f : α → β) (d : Dict α)
  (n : String)

theorem get?_rename : (d.rename key hkey f).get? (key n) = (d.get? n).map f := by
  apply Option.ext
  intro b
  rw [get?_eq_some_iff, rename, Option.map_eq_some_iff]
  simp [get?_eq_some_iff, hkey.eq_iff]

theorem modify_rename {g : α → α} {g' : β → β} (h : ∀ a, g' (f a) = f (g a)) :
    (d.rename key hkey f).modify (key n) g' = (d.modify n g).rename key hkey f := by
  apply Dict.ext
  refine (List.map_map).trans (Eq.trans (List.map_congr_left fun b _ => ?_) (List.map_map).symm)
  simp only [Function.comp_apply, hkey.eq_iff, Prod.mk.injEq, true_and]
  split
  · exact h b.2
  · rfl

theorem insert_rename (a : α) :
    (d.rename key hkey f).insert (key n) (f a) = (d.insert n a).rename key hkey f := by
  have hmem : key n ∈ (d.rename key hkey f).keys ↔ n ∈ d.keys := by
    rw [mem_keys_iff, get?_rename, Option.isSome_map, mem_keys_iff]
  by_cases hn : n ∈ d.keys
  · rw [insert, insert, dif_pos hn, dif_pos (hmem.2 hn)]
    exact d.modify_rename hkey f n fun _ => rfl
  · rw [insert, insert, dif_neg hn, dif_neg fun h => hn (hmem.1 h)]
    apply Dict.ext
    simp [rename]

end Dict

/-! ## Scopes -/

theorem Relabeling.contains_map (ρ : Relabeling) (space : Space) (names : List String)
    (n : String) : (names.map (ρ.name space)).contains (ρ.name space n) = names.contains n := by
  rw [Bool.eq_iff_iff, List.contains_iff_mem, List.contains_iff_mem,
    List.mem_map_of_injective (ρ.injective space)]

theorem recordName_relabel (ρ : Relabeling) (space : Space) (names : List String) (n : String) :
    recordName (names.map (ρ.name space)) (ρ.name space n) =
      (recordName names n).map (ρ.name space) := by
  rw [recordName, recordName, ρ.contains_map]
  split
  · rfl
  · rw [List.map_append, List.map_singleton]

def Symbol.relabel (ρ : Relabeling) (x : Symbol) : Symbol where
  name := ρ.name .ordinary x.name
  kind := x.kind
  ty := x.ty.relabel ρ
  defined := x.defined
  span := ρ.span x.span

/-- A function that has got a body and the type that comes with it. -/
def Symbol.define (ty : Ty) (x : Symbol) : Symbol := { x with ty := ty, defined := true }

namespace Scope

def relabel (ρ : Relabeling) (s : Scope) : Scope :=
  ⟨s.symbols.rename (ρ.name .ordinary) (ρ.injective .ordinary) (Symbol.relabel ρ)⟩

variable (ρ : Relabeling) (s : Scope)

theorem get?_relabel (n : String) :
    (s.relabel ρ).get? (ρ.name .ordinary n) = (s.get? n).map (Symbol.relabel ρ) :=
  s.symbols.get?_rename (ρ.injective .ordinary) _ n

theorem update_relabel (n : String) {f g : Symbol → Symbol}
    (h : ∀ x, g (x.relabel ρ) = (f x).relabel ρ) :
    (s.relabel ρ).update (ρ.name .ordinary n) g = (s.update n f).relabel ρ :=
  congrArg Scope.mk (s.symbols.modify_rename _ _ n h)

theorem bind_relabel (x : Symbol) : (s.relabel ρ).bind (x.relabel ρ) = (s.bind x).relabel ρ :=
  congrArg Scope.mk (s.symbols.insert_rename _ _ x.name x)

end Scope

/-! ## Struct tags -/

def Field.relabel (ρ : Relabeling) (f : Field) : Field :=
  ⟨ρ.name .member f.name, f.ty.relabel ρ⟩

def StructDef.relabel (ρ : Relabeling) (d : StructDef) : StructDef :=
  ⟨ρ.name .tag d.tag, d.fields.map (Field.relabel ρ), d.complete⟩

/-- A definition that has begun: its members are still to come. -/
def StructDef.begin (d : StructDef) : StructDef := { d with fields := [], complete := true }

namespace StructTable

/-- The table with the definition of `tag` begun. -/
def begin (t : StructTable) (tag : String) : StructTable :=
  (t.mention tag).update tag StructDef.begin

/-- A definition begins unless its tag has one. -/
theorem define?_eq (t : StructTable) (tag : String) :
    t.define? tag = if t.isDefined tag then none else some (t.begin tag) := rfl

theorem isDefined_begin {t : StructTable} {tag : String} (hno : t.isDefined tag = false) :
    (t.begin tag).isDefined tag = true := by
  have hdefine : t.define? tag = some (t.begin tag) := by simp [define?_eq, hno]
  rw [isDefined_define? hdefine, beq_self_eq_true, Bool.true_or]

/-- What is defined stays defined. -/
theorem Grows.isDefined {t u : StructTable} (h : t.Grows u) {tag : String}
    (htag : t.isDefined tag = true) : u.isDefined tag = true := by
  obtain ⟨d, hd, hcomplete⟩ := (Option.any_eq_true _ _).1 htag
  rw [StructTable.isDefined, h.keeps tag d hd hcomplete, Option.any_some, hcomplete]

def relabel (ρ : Relabeling) (t : StructTable) : StructTable where
  entries := t.entries.rename (ρ.name .tag) (ρ.injective .tag) (StructDef.relabel ρ)
  order := t.order.map (ρ.name .tag)

variable (ρ : Relabeling) (t : StructTable) (tag : String)

theorem get?_relabel :
    (t.relabel ρ).get? (ρ.name .tag tag) = (t.get? tag).map (StructDef.relabel ρ) :=
  t.entries.get?_rename (ρ.injective .tag) _ tag

theorem mentions_relabel : (t.relabel ρ).mentions (ρ.name .tag tag) = t.mentions tag := by
  rw [mentions, mentions, get?_relabel, Option.isSome_map]

theorem isDefined_relabel : (t.relabel ρ).isDefined (ρ.name .tag tag) = t.isDefined tag := by
  rw [isDefined, isDefined, get?_relabel, Option.any_map]
  rfl

theorem isIncomplete_relabel (ty : Ty) :
    (t.relabel ρ).isIncomplete (ty.relabel ρ) = t.isIncomplete ty := by
  rw [isIncomplete_eq, isIncomplete_eq, Ty.tag?_relabel, Option.any_map]
  simp only [isDefined_relabel]

theorem update_relabel {f g : StructDef → StructDef}
    (h : ∀ d, g (d.relabel ρ) = (f d).relabel ρ) :
    (t.relabel ρ).update (ρ.name .tag tag) g = (t.update tag f).relabel ρ :=
  congrArg (StructTable.mk · _) (t.entries.modify_rename _ _ tag h)

theorem mention_relabel : (t.relabel ρ).mention (ρ.name .tag tag) = (t.mention tag).relabel ρ := by
  rw [mention, mention, mentions_relabel]
  split
  · rfl
  · refine congrArg₂ StructTable.mk (t.entries.insert_rename _ _ tag (.mentioned tag)) ?_
    rw [List.map_append, List.map_singleton]
    rfl

theorem begin_relabel : (t.relabel ρ).begin (ρ.name .tag tag) = (t.begin tag).relabel ρ := by
  rw [begin, begin, mention_relabel]
  exact update_relabel ρ _ tag fun _ => rfl

theorem giveFields_relabel (fields : List Field) :
    (t.relabel ρ).giveFields (ρ.name .tag tag) (fields.map (Field.relabel ρ)) =
      (t.giveFields tag fields).relabel ρ :=
  update_relabel ρ t tag fun _ => rfl

/-- A table with the same names is the same: it has no spans. -/
theorem relabel_of_names {ρ : Relabeling} (h : ∀ space n, ρ.name space n = n) :
    t.relabel ρ = t := by
  have hfield : ∀ f : Field, f.relabel ρ = f := fun f => by
    rw [Field.relabel, h, Ty.relabel_of_names (h .tag)]
  have hdef : ∀ d : StructDef, d.relabel ρ = d := fun d => by
    rw [StructDef.relabel, h, List.map_congr_left fun f _ => hfield f, List.map_id']
  refine congrArg₂ StructTable.mk (Dict.ext ?_) ?_
  · refine (List.map_congr_left fun b _ => ?_).trans (List.map_id _)
    rw [h, hdef]
    rfl
  · exact (List.map_congr_left fun n _ => h .tag n).trans (List.map_id _)

end StructTable

/-! ## Analyses -/

def Analysis.relabel (ρ : Relabeling) (a : Analysis) : Analysis :=
  ⟨a.symbols.map (Symbol.relabel ρ), a.structs.relabel ρ⟩

/-! ## Nothing changes -/

@[simp] theorem Ty.relabel_refl (ty : Ty) : ty.relabel .refl = ty :=
  ty.relabel_of_names fun _ => rfl

@[simp] theorem Symbol.relabel_refl : Symbol.relabel .refl = id := by
  funext x
  rw [Symbol.relabel, Ty.relabel_refl]
  rfl

@[simp] theorem TypedIdent.relabel_refl (d : TypedIdent) (space : Space) :
    d.relabel .refl space = d := by
  rw [TypedIdent.relabel, Ty.relabel_refl]
  rfl

theorem Analysis.relabel_refl (a : Analysis) : a.relabel .refl = a := by
  rw [relabel, Symbol.relabel_refl, List.map_id, StructTable.relabel_of_names _ fun _ _ => rfl]

end MiniC
