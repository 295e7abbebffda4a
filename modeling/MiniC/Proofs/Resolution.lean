import MiniC.Analysis.Basic

/-!
# What resolving a declaration does

The type that a declaration gives to its name depends on the declaration alone (`Decl.ty`), and
which struct tags are complete afterwards depends only on which were complete before
(`Specifier.completes`). Everything else a resolution can touch it leaves alone: the scopes and the
waiting globals stay, and no name is found undeclared. `Check.Resolves` states all of this for one
checking step, with a rule for each way of building steps, and every resolving function has one
lemma in that form.
-/

namespace MiniC

/-! ## Running steps -/

namespace Check

theorem state_bind_apply (f : State → Check α) (s : State) : (state >>= f) s = f s s := rfl

theorem ite_apply (c : Prop) [Decidable c] (m n : Check α) (s : State) :
    (if c then m else n) s = if c then m s else n s := by
  split <;> rfl

end Check

/-! ## Undeclared names among events -/

/-- The errors about undeclared names, in order. -/
def Event.undeclared (events : List Event) : List SemanticError :=
  (Event.errors events).filter (·.kind = .undeclaredUse)

namespace Event

@[simp] theorem errors_append (es fs : List Event) : errors (es ++ fs) = errors es ++ errors fs :=
  List.filterMap_append

@[simp] theorem errors_map_reported (es : List SemanticError) :
    errors (es.map .reported) = es := by
  rw [errors, List.filterMap_map]
  exact List.filterMap_some

@[simp] theorem undeclared_append (es fs : List Event) :
    undeclared (es ++ fs) = undeclared es ++ undeclared fs := by
  simp only [undeclared, errors_append, List.filter_append]

theorem undeclared_of_error?_eq_none {e : Event} (h : e.error? = none) : undeclared [e] = [] := by
  simp [undeclared, errors, h]

theorem undeclared_reported {kind : SemanticError.Kind} (h : kind ≠ .undeclaredUse) (id : Ident) :
    undeclared [.reported (.atIdent kind id)] = [] := by
  simp [undeclared, errors, error?, SemanticError.atIdent, h]

end Event

/-! ## Complete tags -/

namespace StructTable

/-- The tags of `known` are those that the table has a definition for. -/
def Knows (t : StructTable) (known : List String) : Prop :=
  ∀ tag, t.isDefined tag = true ↔ tag ∈ known

theorem knows_empty : empty.Knows [] := by
  intro tag
  simp [isDefined, get?, empty, Dict.get?_empty]

/-- Every table knows some list of tags. -/
theorem exists_knows (t : StructTable) : ∃ known, t.Knows known := by
  refine ⟨t.entries.keys.filter t.isDefined, fun tag => ?_⟩
  rw [List.mem_filter]
  refine ⟨fun h => ⟨Dict.mem_keys_iff.2 ?_, h⟩, And.right⟩
  cases hget : t.get? tag with
  | none => simp [isDefined, hget] at h
  | some d => exact Option.isSome_iff_exists.2 ⟨d, hget⟩

theorem isDefined_mention (t : StructTable) (tag n : String) :
    (t.mention tag).isDefined n = t.isDefined n := by
  rw [isDefined, isDefined, get?_mention]
  cases t.get? n with
  | some d => rfl
  | none =>
    by_cases h : tag = n
    · simp [h, StructDef.mentioned]
    · simp [h]

theorem isDefined_giveFields (t : StructTable) (tag n : String) (fields : List Field) :
    (t.giveFields tag fields).isDefined n = t.isDefined n := by
  rw [isDefined, isDefined, giveFields, get?_update]
  split
  · cases t.get? n <;> rfl
  · rfl

/-- A definition that is accepted makes its tag complete and no other. -/
theorem isDefined_define? {t u : StructTable} {tag : String} (h : t.define? tag = some u)
    (n : String) : u.isDefined n = (n == tag || t.isDefined n) := by
  unfold define? at h
  split at h
  · cases h
  · cases h
    rw [isDefined, get?_update, ← isDefined_mention t tag n, isDefined]
    by_cases hn : tag = n
    · subst hn
      obtain ⟨d, hd⟩ := Option.isSome_iff_exists.1 (t.mentions_mention tag)
      simp [hd]
    · rw [if_neg hn, beq_false_of_ne (Ne.symm hn), Bool.false_or]

end StructTable

/-! ## Types by shape alone -/

/-- An array of `elem` with this bound, or `elem` where the bound is no positive number. -/
def Bound.over (elem : Ty) (size : Bound) : Ty :=
  if Bound.number size.text ≤ 0 then elem else .array elem (Bound.number size.text).toNat

/-- The type of the declared name over `base`. -/
def Declarator.over (base : Ty) : Declarator → Ty
  | .ident _ => base
  | .paren inner _ => inner.over base
  | .pointer (.array elem size _) _ => size.over (.pointer (elem.over base))
  | .pointer inner _ => .pointer (inner.over base)
  | .array (.paren (.pointer (.ident _) _) _) size _ => .pointer (size.over base)
  | .array inner size _ => size.over (inner.over base)

/-- What holds of the base and is kept under pointers and arrays holds of the declared type. -/
theorem Declarator.over_of_base {P : Ty → Prop} {base : Ty} (hbase : P base)
    (hpointer : ∀ ty, P ty → P (.pointer ty))
    (hbound : ∀ ty (size : Bound), P ty → P (size.over ty)) (d : Declarator) :
    P (d.over base) := by
  fun_induction Declarator.over base d with
  | case1 => exact hbase
  | case2 inner _ ih => exact ih
  | case3 elem size _ _ ih => exact hbound _ size (hpointer _ ih)
  | case4 inner _ _ ih => exact hpointer _ ih
  | case5 _ _ _ size _ => exact hpointer _ (hbound _ size hbase)
  | case6 inner size _ _ ih => exact hbound _ size ih

/-- The type that a specifier names. -/
def Specifier.base : Specifier → Ty
  | .int _ => .int
  | .char _ => .char
  | .structRef tag _ | .structDef tag _ _ => .struct tag.name

namespace Decl

/-- The declared name. -/
def core (d : Decl) : Ident := d.declarator.core

/-- The type of the declared name. -/
def ty (d : Decl) : Ty := d.declarator.over d.specifier.base

/-- The declared name with its type. -/
def typed (d : Decl) : TypedIdent := ⟨d.core, d.ty⟩

end Decl

/-- The type of a function with this header. -/
def Signature.ty (sig : Signature) : Ty := .function sig.ret.base (sig.params.map Decl.ty)

mutual

/-- The tags that are complete after a specifier if those of `known` were before it. A member list
whose tag is known repeats a definition: it is rejected, and no definition in it counts. -/
def Specifier.completes (known : List String) : Specifier → List String
  | .int _ | .char _ | .structRef _ _ => known
  | .structDef tag members _ =>
    if tag.name ∈ known then known else memberCompletes (tag.name :: known) members

def Decl.completes (known : List String) : Decl → List String
  | ⟨specifier, _, _⟩ => specifier.completes known

def memberCompletes (known : List String) : List Decl → List String
  | [] => known
  | member :: more => memberCompletes (member.completes known) more

end

theorem Decl.completes_eq (known : List String) (d : Decl) :
    d.completes known = d.specifier.completes known := by
  cases d
  rfl

/-- The tags that are complete after some specifiers in order. -/
def completed (known : List String) (specs : List Specifier) : List String :=
  specs.foldl Specifier.completes known

theorem completed_decl (known : List String) (d : Decl) :
    completed known [d.specifier] = d.completes known := by
  rw [completed, List.foldl_cons, List.foldl_nil, d.completes_eq]

/-- A type that is no struct without definition, nor an array of such, when the tags of `known`
are defined. -/
def Ty.Complete (known : List String) : Ty → Prop
  | .struct tag => tag ∈ known
  | .array elem _ => elem.Complete known
  | _ => True

instance Ty.decidableComplete (known : List String) : (ty : Ty) → Decidable (ty.Complete known)
  | .struct tag => inferInstanceAs (Decidable (tag ∈ known))
  | .array elem _ => decidableComplete known elem
  | .int | .char | .pointer _ | .function _ _ => inferInstanceAs (Decidable True)

theorem StructTable.Knows.isIncomplete_eq_false_iff {t : StructTable} {known : List String}
    (h : t.Knows known) : (ty : Ty) → (t.isIncomplete ty = false ↔ ty.Complete known)
  | .struct tag => by simp [isIncomplete, Ty.Complete, h tag]
  | .array elem _ => h.isIncomplete_eq_false_iff elem
  | .int | .char | .pointer _ | .function _ _ => by simp [isIncomplete, Ty.Complete]

/-! ## Resolving steps -/

/-- Steps that change nothing but the struct tags, one after the other. -/
theorem State.framed_trans {s t u : State} (h : t = { s with structs := t.structs })
    (h' : u = { t with structs := u.structs }) : u = { s with structs := u.structs } :=
  h'.trans (by rw [h])

/-- The outcome of a step from `s` that gives a value with `P` and comes to a state that knows the
tags `after`. Nothing but the struct tags has changed, and no name was found undeclared. -/
structure Outcome.Resolved (r : Outcome α) (s : State) (after : List String) (P : α → Prop) :
    Prop where
  value : P r.value
  knows : r.state.structs.Knows after
  framed : r.state = { s with structs := r.state.structs }
  undeclared : Event.undeclared r.events = []

theorem Outcome.Resolved.scopes {r : Outcome α} {s : State} {after : List String} {P : α → Prop}
    (h : r.Resolved s after P) : r.state.scopes = s.scopes := by
  rw [h.framed]

namespace Check

/-- The outcome from every state that knows the tags `known`. -/
def Resolves (m : Check α) (known after : List String) (P : α → Prop) : Prop :=
  ∀ s : State, s.structs.Knows known → (m s).Resolved s after P

namespace Resolves

variable {m : Check α} {f : α → Check β} {known between after : List String}
  {P : α → Prop} {Q : β → Prop}

protected theorem pure {a : α} (h : P a) : Resolves (pure a) known known P :=
  fun _ hs => ⟨h, hs, rfl, rfl⟩

protected theorem bind (hm : Resolves m known between P)
    (hf : ∀ a, P a → Resolves (f a) between after Q) : Resolves (m >>= f) known after Q := by
  intro s hs
  have h := hm s hs
  have h' := hf _ h.value _ h.knows
  refine ⟨h'.value, h'.knows, State.framed_trans h.framed h'.framed, ?_⟩
  rw [bind_apply, Event.undeclared_append, h.undeclared, h'.undeclared, List.append_nil]

theorem tell {e : Event} (h : e.error? = none) :
    Resolves (tell e) known known (fun _ => True) :=
  fun _ hs => ⟨trivial, hs, rfl, Event.undeclared_of_error?_eq_none h⟩

theorem report {kind : SemanticError.Kind} (h : kind ≠ .undeclaredUse) (id : Ident) :
    Resolves (report kind id) known known (fun _ => True) :=
  fun _ hs => ⟨trivial, hs, rfl, Event.undeclared_reported h id⟩

theorem state : Resolves state known known (fun s => s.structs.Knows known) :=
  fun _ hs => ⟨hs, hs, rfl, rfl⟩

end Resolves

/-! ## Struct tags -/

theorem mentionTag_apply (tag : String) (s : State) :
    mentionTag tag s =
      if s.structs.mentions tag then ⟨.struct tag, s, []⟩
      else ⟨.struct tag, { s with structs := s.structs.mention tag }, [.tagDeclared tag]⟩ := by
  by_cases h : s.structs.mentions tag = true <;>
    simp only [mentionTag, bind_apply, Check.state, h] <;> rfl

theorem mentionTag_resolves (tag : String) (known : List String) :
    Resolves (mentionTag tag) known known (· = .struct tag) := by
  intro s hs
  rw [mentionTag_apply]
  split
  · exact ⟨rfl, hs, rfl, rfl⟩
  · refine ⟨rfl, fun n => ?_, rfl, rfl⟩
    rw [StructTable.isDefined_mention]
    exact hs n

theorem defineTag_apply (tag : String) (s : State) :
    defineTag tag s =
      match s.structs.define? tag with
      | some structs => ⟨true, { s with structs := structs }, [.tagDefined tag]⟩
      | none => ⟨false, s, []⟩ := by
  cases h : s.structs.define? tag <;> simp only [defineTag, bind_apply, Check.state, h] <;> rfl

/-- A tag is defined unless it was before. -/
theorem defineTag_resolves (tag : String) (known : List String) :
    Resolves (defineTag tag) known (if tag ∈ known then known else tag :: known)
      (fun new => new = true ↔ tag ∉ known) := by
  intro s hs
  rw [defineTag_apply]
  by_cases htag : tag ∈ known
  · have h : s.structs.define? tag = none := by
      simp [StructTable.define?, (hs tag).2 htag]
    rw [h, if_pos htag]
    exact ⟨by simp [htag], hs, rfl, rfl⟩
  · have hnew : ¬ s.structs.isDefined tag = true := fun h => htag ((hs tag).1 h)
    obtain ⟨u, hu⟩ : ∃ u, s.structs.define? tag = some u := by simp [StructTable.define?, hnew]
    rw [hu, if_neg htag]
    refine ⟨by simp [htag], fun n => ?_, rfl, rfl⟩
    rw [StructTable.isDefined_define? hu n, Bool.or_eq_true, hs n, beq_iff_eq, List.mem_cons]

theorem giveFields_resolves (tag : String) (fields : List Field) (known : List String) :
    Resolves (giveFields tag fields) known known (fun _ => True) := by
  intro s hs
  refine ⟨trivial, fun n => ?_, rfl, rfl⟩
  exact (by rw [giveFields, update, StructTable.isDefined_giveFields]; exact hs n)

/-! ## Declarations -/

theorem arrayOf_resolves (id : Ident) (elem : Ty) (size : Bound) (known : List String) :
    Resolves (arrayOf id elem size) known known (· = size.over elem) := by
  unfold arrayOf Bound.over
  by_cases h : Bound.number size.text ≤ 0
  · simp only [h, ↓reduceIte]
    exact (Resolves.report (by decide) id).bind fun _ _ => .pure rfl
  · simp only [h, ↓reduceIte]
    exact .pure rfl

end Check

open Check (Resolves)

theorem Declarator.typeOver_resolves (id : Ident) (base : Ty) (known : List String)
    (d : Declarator) : Resolves (d.typeOver id base) known known (· = d.over base) := by
  fun_induction Declarator.typeOver id base d with
  | case1 => exact .pure rfl
  | case2 inner _ ih => exact ih
  | case3 elem size _ _ ih =>
    refine ih.bind ?_
    rintro _ rfl
    exact Check.arrayOf_resolves id _ size known
  | case4 inner _ hne ih =>
    refine ih.bind ?_
    rintro _ rfl
    exact .pure (by rw [Declarator.over]; exact hne)
  | case5 _ _ _ size _ =>
    refine (Check.arrayOf_resolves id base size known).bind ?_
    rintro _ rfl
    exact .pure rfl
  | case6 inner size _ hne ih =>
    refine ih.bind ?_
    rintro _ rfl
    rw [Declarator.over]
    · exact Check.arrayOf_resolves id _ size known
    · exact hne

theorem Declarator.resolve_resolves (base : Ty) (d : Declarator) (known : List String) :
    Resolves (d.resolve base) known known (· = ⟨d.core, d.over base⟩) := by
  refine (d.typeOver_resolves d.core base known).bind ?_
  rintro _ rfl
  exact (Resolves.tell rfl).bind fun _ _ => .pure rfl

mutual

theorem Specifier.resolve_resolves (known : List String) :
    (spec : Specifier) → Resolves spec.resolve known (spec.completes known) (· = spec.base)
  | .int _ | .char _ => .pure rfl
  | .structRef tag _ => Check.mentionTag_resolves tag.name known
  | .structDef tag members _ => by
    rw [Specifier.resolve]
    refine (Check.mentionTag_resolves tag.name known).bind ?_
    rintro _ rfl
    refine (Check.defineTag_resolves tag.name known).bind fun new hnew => ?_
    rw [Specifier.completes]
    by_cases htag : tag.name ∈ known
    · rw [if_neg (fun h => hnew.1 h htag), if_pos htag, if_pos htag]
      exact (Resolves.report (by decide) tag).bind fun _ _ => .pure rfl
    · rw [if_pos (hnew.2 htag), if_neg htag, if_neg htag]
      refine (resolveMembers_resolves (tag.name :: known) [] members).bind fun fields _ => ?_
      exact (Check.giveFields_resolves tag.name fields _).bind fun _ _ => .pure rfl

theorem Decl.resolve_resolves (known : List String) :
    (d : Decl) → Resolves d.resolve known (d.completes known) (· = d.typed)
  | ⟨specifier, declarator, _⟩ => by
    rw [Decl.resolve]
    refine (specifier.resolve_resolves known).bind ?_
    rintro _ rfl
    exact declarator.resolve_resolves specifier.base _

theorem resolveMembers_resolves (known : List String) (fields : List Field) :
    (members : List Decl) →
      Resolves (resolveMembers fields members) known (memberCompletes known members)
        (fun _ => True)
  | [] => .pure trivial
  | member :: more => by
    rw [resolveMembers, memberCompletes]
    refine (member.resolve_resolves known).bind ?_
    rintro _ rfl
    split
    · refine (Resolves.report (by decide) _).bind fun _ _ => ?_
      exact resolveMembers_resolves _ fields more
    · refine Resolves.state.bind fun s _ => ?_
      split
      · refine (Resolves.report (by decide) _).bind fun _ _ => ?_
        exact resolveMembers_resolves _ _ more
      · exact resolveMembers_resolves _ _ more

end

theorem resolveDecls_resolves (ds : List Decl) (known : List String) :
    Resolves (resolveDecls ds) known (completed known (ds.map (·.specifier)))
      (· = ds.map Decl.typed) := by
  induction ds generalizing known with
  | nil => exact .pure rfl
  | cons d ds ih =>
    rw [resolveDecls, List.map_cons, completed, List.foldl_cons, ← d.completes_eq]
    refine (d.resolve_resolves known).bind ?_
    rintro _ rfl
    refine (ih _).bind ?_
    rintro _ rfl
    exact .pure rfl

/-- A header: its return type, then its parameters. -/
def Signature.specifiers (sig : Signature) : List Specifier :=
  sig.ret :: sig.params.map (·.specifier)

theorem Signature.resolve_resolves (sig : Signature) (known : List String) :
    Resolves sig.resolve known (completed known sig.specifiers)
      (· = (sig.ty, sig.params.map Decl.typed)) := by
  refine (sig.ret.resolve_resolves known).bind ?_
  rintro _ rfl
  refine (resolveDecls_resolves sig.params _).bind ?_
  rintro _ rfl
  exact .pure (by simp [Signature.ty, Decl.typed, Function.comp_def])

end MiniC
