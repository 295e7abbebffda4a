import Mathlib.Data.List.Infix
import MiniC.Proofs.Deferred
import MiniC.Proofs.Registry.Order

/-!
# One more item

The analysis of a program goes item by item, and each item can do little to what was known before
it. What it reports is reported at its own identifiers, and of the struct tags it can only add new
ones at the end and complete those that are incomplete (`Item.check_extends`). One name at most is
added to the file scope or defined there, and one variable at most starts to wait
(`Item.check_entered`). `run_continues` puts these together for the runs over two consecutive
prefixes of a program.
-/

namespace MiniC

/-! ## Identifiers of an item -/

mutual

/-- The identifiers that stand in a specifier. -/
def Specifier.idents : Specifier → List Ident
  | .int _ | .char _ => []
  | .structRef tag _ => [tag]
  | .structDef tag members _ => tag :: memberIdents members

def Decl.idents : Decl → List Ident
  | ⟨specifier, declarator, _⟩ => specifier.idents ++ [declarator.core]

def memberIdents : List Decl → List Ident
  | [] => []
  | member :: more => member.idents ++ memberIdents more

end

theorem Decl.core_mem_idents (d : Decl) : d.core ∈ d.idents := by
  obtain ⟨specifier, _, _⟩ := d
  rw [Decl.idents]
  exact List.mem_append_right specifier.idents (List.mem_singleton_self _)

mutual

/-- The identifiers that stand in a statement, the member names after `.` and `->` apart. -/
def Stmt.idents : Stmt → List Ident
  | .block stmts _ => stmtIdents stmts
  | .varDecl decl init _ => decl.idents ++ optionNames init
  | .expr value => value.names
  | .ret value _ => optionNames value
  | .ifThen cond yes _ => cond.names ++ yes.idents
  | .ifElse cond yes no _ => cond.names ++ (yes.idents ++ no.idents)
  | .loop cond body _ => cond.names ++ body.idents
  | .brk _ | .cont _ | .empty _ => []

def stmtIdents : List Stmt → List Ident
  | [] => []
  | stmt :: more => stmt.idents ++ stmtIdents more

end

/-- The identifiers that stand in the header of a function. -/
def Signature.idents (sig : Signature) : List Ident :=
  sig.ret.idents ++ (memberIdents sig.params ++ [sig.name])

def Item.idents : Item → List Ident
  | .function sig body => sig.idents ++ stmtIdents body.stmts
  | .prototype sig => sig.idents
  | .global decl => decl.idents
  | .tagOnly specifier => specifier.idents

/-- The error is about one of the identifiers, and is placed there. -/
def SemanticError.Anchored (ids : List Ident) (e : SemanticError) : Prop :=
  ∃ kind, ∃ id ∈ ids, e = .atIdent kind id

theorem SemanticError.Anchored.mono {ids jds : List Ident} {e : SemanticError}
    (h : e.Anchored ids) (hsub : ids ⊆ jds) : e.Anchored jds := by
  obtain ⟨kind, id, hid, rfl⟩ := h
  exact ⟨kind, id, hsub hid, rfl⟩

/-! ## Struct tags only gain -/

namespace StructTable

/-- The tags of `t` are the first ones of `u`, and what `t` knows as complete is the same in `u`. If
the tags of `t` are in step with its entries, so are those of `u`. -/
structure Grows (t u : StructTable) : Prop where
  order : t.order <+: u.order
  keeps : ∀ tag d, t.get? tag = some d → d.complete = true → u.get? tag = some d
  inStep : t.InStep → u.InStep

namespace Grows

variable {t u v : StructTable}

theorem refl (t : StructTable) : Grows t t := ⟨List.prefix_refl _, fun _ _ h _ => h, id⟩

theorem trans (h : Grows t u) (h' : Grows u v) : Grows t v :=
  ⟨h.order.trans h'.order, fun tag d hd hc => h'.keeps tag d (h.keeps tag d hd hc) hc,
    fun ht => h'.inStep (h.inStep ht)⟩

theorem mention (t : StructTable) (tag : String) : Grows t (t.mention tag) := by
  refine ⟨?_, fun n d hd _ => ?_, fun ht => ht.mention tag⟩
  · rw [order_mention]
    split
    · exact List.prefix_refl _
    · exact List.prefix_append _ _
  · rw [get?_mention, hd, Option.some_or]

/-- The entry of a tag that was incomplete at the start may change. -/
theorem update (h : Grows t u) {tag : String} (hno : t.isDefined tag = false)
    {f : StructDef → StructDef} (hf : ∀ d, (f d).tag = d.tag) : Grows t (u.update tag f) := by
  refine ⟨h.order, fun n d hd hc => ?_, fun ht => (h.inStep ht).update tag hf⟩
  have hne : tag ≠ n := by
    rintro rfl
    simp [isDefined, hd, hc] at hno
  rw [get?_update, if_neg hne, h.keeps n d hd hc]

theorem define? {tag : String} (h : t.define? tag = some u) : Grows t u := by
  unfold StructTable.define? at h
  split at h
  · cases h
  · rename_i hno
    cases h
    exact (mention t tag).update (by simpa using hno) fun _ => rfl

end Grows

end StructTable

/-! ## Steps that extend what is known -/

/-- The outcome of a step from `s` that gives a value with `P`, adds to the struct tags only, and
reports at some of the identifiers `ids` only. -/
structure Outcome.Extended (r : Outcome α) (s : State) (ids : List Ident) (P : α → Prop) :
    Prop where
  value : P r.value
  structs : s.structs.Grows r.state.structs
  anchored : ∀ e ∈ Event.errors r.events, e.Anchored ids

theorem Outcome.Extended.mono {r : Outcome α} {s : State} {ids jds : List Ident} {P : α → Prop}
    (h : r.Extended s ids P) (hsub : ids ⊆ jds) : r.Extended s jds P :=
  ⟨h.value, h.structs, fun e he => (h.anchored e he).mono hsub⟩

namespace Check

/-- The outcome from every state. -/
def Extends (m : Check α) (ids : List Ident) (P : α → Prop) : Prop :=
  ∀ s : State, (m s).Extended s ids P

namespace Extends

variable {m : Check α} {f : α → Check β} {ids jds : List Ident} {P : α → Prop} {Q : β → Prop}

theorem mono (h : Extends m ids P) (hsub : ids ⊆ jds) : Extends m jds P :=
  fun s => (h s).mono hsub

protected theorem pure {a : α} (h : P a) : Extends (pure a) ids P :=
  fun s => ⟨h, .refl _, fun _ he => by cases he⟩

protected theorem bind (hm : Extends m ids P) (hf : ∀ a, P a → Extends (f a) ids Q) :
    Extends (m >>= f) ids Q := by
  intro s
  have h := hm s
  have h' := hf _ h.value (m s).state
  refine ⟨h'.value, h.structs.trans h'.structs, fun e he => ?_⟩
  rw [bind_apply, Event.errors_append, List.mem_append] at he
  rcases he with he | he
  · exact h.anchored e he
  · exact h'.anchored e he

theorem state : Extends state ids (fun _ => True) :=
  fun _ => ⟨trivial, .refl _, fun _ he => by cases he⟩

theorem tell {e : Event} (h : e.error? = none) : Extends (tell e) ids (fun _ => True) := by
  refine fun _ => ⟨trivial, .refl _, fun _ he => ?_⟩
  simp [Check.tell, Event.errors, h] at he

theorem report (kind : SemanticError.Kind) {id : Ident} (hid : id ∈ ids) :
    Extends (report kind id) ids (fun _ => True) := by
  refine fun _ => ⟨trivial, .refl _, fun e he => ⟨kind, id, hid, ?_⟩⟩
  simpa [Check.report, Check.tell, Event.errors, Event.error?] using he

/-- A change of the scopes and of what waits. -/
theorem update {g : State → State} (hg : ∀ s, (g s).structs = s.structs) :
    Extends (update g) ids (fun _ => True) := by
  refine fun s => ⟨trivial, ?_, fun _ he => by cases he⟩
  rw [Check.update, hg s]
  exact .refl _

theorem of_looked {m : Check Unit} (h : ∀ s, m s = s.looked ids) :
    Extends m ids (fun _ => True) := by
  intro s
  rw [h s]
  refine ⟨trivial, .refl _, fun e he => ?_⟩
  rw [State.looked, Event.errors_map_reported, State.unbound] at he
  obtain ⟨id, hid, rfl⟩ := List.mem_map.1 he
  exact ⟨_, id, (List.mem_filter.1 hid).1, rfl⟩

end Extends

/-! ## Declarations -/

theorem mentionTag_extends (tag : String) (ids : List Ident) :
    Extends (mentionTag tag) ids (fun _ => True) := by
  intro s
  rw [mentionTag_apply]
  split
  · exact ⟨trivial, .refl _, fun _ he => by cases he⟩
  · exact ⟨trivial, .mention _ tag, fun _ he => by cases he⟩

theorem arrayOf_extends {id : Ident} {ids : List Ident} (hid : id ∈ ids) (elem : Ty)
    (size : Bound) : Extends (arrayOf id elem size) ids (fun _ => True) := by
  unfold arrayOf
  by_cases h : Bound.number size.text ≤ 0
  · simp only [h, ↓reduceIte]
    exact (Extends.report _ hid).bind fun _ _ => .pure trivial
  · simp only [h, ↓reduceIte]
    exact .pure trivial

end Check

open Check (Extends)

theorem Declarator.typeOver_extends {id : Ident} {ids : List Ident} (hid : id ∈ ids) (base : Ty)
    (d : Declarator) : Extends (d.typeOver id base) ids (fun _ => True) := by
  fun_induction Declarator.typeOver id base d with
  | case1 => exact .pure trivial
  | case2 inner _ ih => exact ih
  | case3 elem size _ _ ih => exact ih.bind fun ty _ => Check.arrayOf_extends hid _ size
  | case4 inner _ _ ih => exact ih.bind fun ty _ => .pure trivial
  | case5 _ _ _ size _ => exact (Check.arrayOf_extends hid _ size).bind fun _ _ => .pure trivial
  | case6 inner size _ _ ih => exact ih.bind fun ty _ => Check.arrayOf_extends hid _ size

theorem Declarator.resolve_extends {ids : List Ident} {d : Declarator} (hid : d.core ∈ ids)
    (base : Ty) : Extends (d.resolve base) ids (·.ident = d.core) :=
  (d.typeOver_extends hid base).bind fun _ _ => (Extends.tell rfl).bind fun _ _ => .pure rfl

/-- A tag gets its definition, or clashes with the one it has. The entry that is given its members
was incomplete at the start, so nothing complete is changed. -/
theorem Check.defineTag_bind_extends (tag : String) (ty : Ty) {ids : List Ident}
    {members : Check (List Field)} {clash : Check Unit}
    (hmembers : Extends members ids (fun _ => True)) (hclash : Extends clash ids (fun _ => True)) :
    Extends (do
      if ← defineTag tag then
        let fields ← members
        giveFields tag fields
      else clash
      return ty) ids (fun _ => True) := by
  intro s
  rw [bind_apply, defineTag_apply]
  cases hdefine : s.structs.define? tag with
  | none => exact (hclash.bind fun _ _ => .pure trivial) s
  | some structs =>
    have hno : s.structs.isDefined tag = false := by
      unfold StructTable.define? at hdefine
      split at hdefine
      · cases hdefine
      · rename_i hno
        simpa using hno
    have h := hmembers { s with structs := structs }
    refine ⟨trivial, ?_, fun e he => h.anchored e ?_⟩
    · exact ((StructTable.Grows.define? hdefine).trans h.structs).update hno fun _ => rfl
    · change e ∈ Event.errors
        ([.tagDefined tag] ++ ((members { s with structs := structs }).events ++ ([] ++ []))) at he
      simpa [Event.errors, Event.error?] using he

mutual

theorem Specifier.resolve_extends (ids : List Ident) :
    (spec : Specifier) → spec.idents ⊆ ids → Extends spec.resolve ids (fun _ => True)
  | .int _, _ | .char _, _ => .pure trivial
  | .structRef tag _, _ => Check.mentionTag_extends tag.name ids
  | .structDef tag members _, hsub => by
    rw [Specifier.idents, List.cons_subset] at hsub
    rw [Specifier.resolve]
    refine (Check.mentionTag_extends tag.name ids).bind fun ty _ => ?_
    exact Check.defineTag_bind_extends tag.name ty
      (resolveMembers_extends ids [] members hsub.2) (.report .redefinition hsub.1)

theorem Decl.resolve_extends (ids : List Ident) :
    (d : Decl) → d.idents ⊆ ids → Extends d.resolve ids (·.ident = d.core)
  | ⟨specifier, declarator, _⟩, hsub => by
    rw [Decl.idents, List.append_subset, List.cons_subset] at hsub
    rw [Decl.resolve]
    refine (specifier.resolve_extends ids hsub.1).bind fun base _ => ?_
    exact declarator.resolve_extends hsub.2.1 base

theorem resolveMembers_extends (ids : List Ident) (fields : List Field) :
    (members : List Decl) → memberIdents members ⊆ ids →
      Extends (resolveMembers fields members) ids (fun _ => True)
  | [], _ => .pure trivial
  | member :: more, hsub => by
    rw [memberIdents, List.append_subset] at hsub
    rw [resolveMembers]
    refine (member.resolve_extends ids hsub.1).bind fun d hd => ?_
    have hid : d.ident ∈ ids := hd ▸ hsub.1 member.core_mem_idents
    split
    · refine (Extends.report _ hid).bind fun _ _ => ?_
      exact resolveMembers_extends ids fields more hsub.2
    · refine Extends.state.bind fun s _ => ?_
      split
      · refine (Extends.report _ hid).bind fun _ _ => ?_
        exact resolveMembers_extends ids _ more hsub.2
      · exact resolveMembers_extends ids _ more hsub.2

end

theorem resolveDecls_extends {ids : List Ident} (ds : List Decl) (hsub : memberIdents ds ⊆ ids) :
    Extends (resolveDecls ds) ids (fun _ => True) := by
  induction ds with
  | nil => exact .pure trivial
  | cons d ds ih =>
    rw [memberIdents, List.append_subset] at hsub
    refine (d.resolve_extends ids hsub.1).bind fun _ _ => ?_
    exact (ih hsub.2).bind fun _ _ => .pure trivial

theorem Signature.resolve_extends {ids : List Ident} (sig : Signature) (hsub : sig.idents ⊆ ids) :
    Extends sig.resolve ids (fun _ => True) := by
  rw [Signature.idents, List.append_subset, List.append_subset] at hsub
  refine (sig.ret.resolve_extends ids hsub.1).bind fun _ _ => ?_
  exact (resolveDecls_extends sig.params hsub.2.1).bind fun _ _ => .pure trivial

/-! ## Statements and bodies -/

namespace Check

variable {ids : List Ident} {id : Ident}

theorem bindLocal_extends (hid : id ∈ ids) (ty : Ty) :
    Extends (bindLocal id ty) ids (fun _ => True) := by
  refine Extends.state.bind fun s _ => ?_
  split
  · exact .report _ hid
  · exact (Extends.tell rfl).bind fun _ _ => .update fun _ => rfl

theorem bindGlobal_extends (hid : id ∈ ids) (ty : Ty) :
    Extends (bindGlobal id ty) ids (fun _ => True) := by
  refine Extends.bind (P := fun _ => True) (Extends.state.bind fun s _ => .pure trivial)
    fun verdict _ => ?_
  split
  · exact .report _ hid
  · exact (Extends.tell rfl).bind fun _ _ => .update fun _ => rfl

theorem bindVariable_extends (hid : id ∈ ids) (ty : Ty) :
    Extends (bindVariable id ty) ids (fun _ => True) := by
  refine Extends.state.bind fun s _ => ?_
  split
  · exact .report _ hid
  · split
    · exact bindGlobal_extends hid ty
    · exact bindLocal_extends hid ty

theorem bindFunction_extends (hid : id ∈ ids) (ty : Ty) (hasBody : Bool) :
    Extends (bindFunction id ty hasBody) ids (fun _ => True) := by
  refine Extends.bind (P := fun _ => True) (Extends.state.bind fun s _ => .pure trivial)
    fun verdict _ => ?_
  split
  · exact (Extends.tell rfl).bind fun _ _ => .update fun _ => rfl
  · exact (Extends.tell rfl).bind fun _ _ => .update fun _ => rfl
  · exact .report _ hid

theorem bindParams_extends {params : List TypedIdent} (h : ∀ p ∈ params, p.ident ∈ ids) :
    Extends (bindParams params) ids (fun _ => True) := by
  induction params with
  | nil => exact .pure trivial
  | cons p params ih =>
    rw [List.forall_mem_cons] at h
    exact (bindVariable_extends h.1 p.ty).bind fun _ _ => ih h.2

theorem scoped_extends {m : Check Unit} (h : Extends m ids (fun _ => True)) :
    Extends (do openScope; m; closeScope) ids (fun _ => True) := by
  have hopen : Extends openScope ids (fun _ => True) := by
    refine Extends.bind (P := fun _ => True) (.update fun _ => rfl) fun _ _ => ?_
    exact Extends.state.bind fun _ _ => .tell rfl
  have hclose : Extends closeScope ids (fun _ => True) := by
    refine Extends.state.bind fun s _ => ?_
    split
    · exact Extends.bind (P := fun _ => True) (.update fun _ => rfl) fun _ _ => .tell rfl
    · exact .pure trivial
  exact hopen.bind fun _ _ => h.bind fun _ _ => hclose

end Check

mutual

theorem Stmt.check_extends (ids : List Ident) :
    (stmt : Stmt) → stmt.idents ⊆ ids → Extends stmt.check ids (fun _ => True)
  | .block stmts _, hsub => Check.scoped_extends (checkStmts_extends ids stmts hsub)
  | .varDecl decl init _, hsub => by
    rw [Stmt.idents, List.append_subset] at hsub
    rw [Stmt.check]
    refine (decl.resolve_extends ids hsub.1).bind fun d hd => ?_
    have hid : d.ident ∈ ids := hd ▸ hsub.1 decl.core_mem_idents
    refine (Check.bindVariable_extends hid d.ty).bind fun _ _ => ?_
    exact (Extends.of_looked fun s => checkOption_apply s init).mono hsub.2
  | .expr value, hsub => (Extends.of_looked fun s => value.check_apply s).mono hsub
  | .ret value _, hsub => (Extends.of_looked fun s => checkOption_apply s value).mono hsub
  | .ifThen cond yes _, hsub => by
    rw [Stmt.idents, List.append_subset] at hsub
    refine ((Extends.of_looked fun s => cond.check_apply s).mono hsub.1).bind fun _ _ => ?_
    exact yes.check_extends ids hsub.2
  | .ifElse cond yes no _, hsub => by
    rw [Stmt.idents, List.append_subset, List.append_subset] at hsub
    refine ((Extends.of_looked fun s => cond.check_apply s).mono hsub.1).bind fun _ _ => ?_
    exact (yes.check_extends ids hsub.2.1).bind fun _ _ => no.check_extends ids hsub.2.2
  | .loop cond body _, hsub => by
    rw [Stmt.idents, List.append_subset] at hsub
    refine ((Extends.of_looked fun s => cond.check_apply s).mono hsub.1).bind fun _ _ => ?_
    exact body.check_extends ids hsub.2
  | .brk _, _ | .cont _, _ | .empty _, _ => .pure trivial

theorem checkStmts_extends (ids : List Ident) :
    (stmts : List Stmt) → stmtIdents stmts ⊆ ids → Extends (checkStmts stmts) ids (fun _ => True)
  | [], _ => .pure trivial
  | stmt :: more, hsub => by
    rw [stmtIdents, List.append_subset] at hsub
    exact (stmt.check_extends ids hsub.1).bind fun _ _ => checkStmts_extends ids more hsub.2

end

/-! ## Items -/

theorem mem_memberIdents_of_mem {d : Decl} {ds : List Decl} (h : d ∈ ds) :
    d.core ∈ memberIdents ds := by
  induction ds with
  | nil => cases h
  | cons first more ih =>
    rw [memberIdents, List.mem_append]
    rcases List.mem_cons.1 h with rfl | h
    · exact .inl d.core_mem_idents
    · exact .inr (ih h)

theorem firstRepeated?_mem {seen : List String} {ids : List Ident} {id : Ident}
    (h : firstRepeated? seen ids = some id) : id ∈ ids := by
  induction ids generalizing seen with
  | nil => cases h
  | cons first more ih =>
    rw [firstRepeated?] at h
    split at h
    · exact Option.some.inj h ▸ List.mem_cons_self
    · exact List.mem_cons_of_mem first (ih h)

theorem Check.checkParams_extends {ids : List Ident} {params : List TypedIdent}
    (h : ∀ p ∈ params, p.ident ∈ ids) : Extends (checkParams params) ids (fun _ => True) := by
  unfold checkParams
  split
  · rename_i id hid
    obtain ⟨p, hp, rfl⟩ := List.mem_map.1 (firstRepeated?_mem hid)
    exact .report _ (h p hp)
  · exact .pure trivial

theorem Signature.params_subset {sig : Signature} {ids : List Ident} (hsub : sig.idents ⊆ ids) :
    ∀ p ∈ sig.params.map Decl.typed, p.ident ∈ ids := by
  intro p hp
  obtain ⟨d, hd, rfl⟩ := List.mem_map.1 hp
  rw [Signature.idents, List.append_subset, List.append_subset] at hsub
  exact hsub.2.1 (mem_memberIdents_of_mem hd)

theorem Signature.name_mem {sig : Signature} {ids : List Ident} (hsub : sig.idents ⊆ ids) :
    sig.name ∈ ids := by
  rw [Signature.idents, List.append_subset, List.append_subset] at hsub
  exact hsub.2.2 (List.mem_singleton_self _)

theorem checkBody_extends {ids : List Ident} {params : List TypedIdent} {body : Block}
    (hparams : ∀ p ∈ params, p.ident ∈ ids) (hbody : stmtIdents body.stmts ⊆ ids) :
    Extends (checkBody params body) ids (fun _ => True) := by
  rw [checkBody_eq]
  refine Check.scoped_extends ?_
  exact (Check.bindParams_extends hparams).bind fun _ _ => checkStmts_extends ids body.stmts hbody

namespace Item

theorem checkHeader_extends (item : Item) :
    Extends item.checkHeader item.idents (fun _ => True) := by
  cases item with
  | function sig _ =>
    refine (sig.resolve_extends ?_).bind fun _ _ => .pure trivial
    exact List.subset_append_left _ _
  | prototype sig =>
    refine (sig.resolve_extends (List.Subset.refl _)).bind fun _ _ => ?_
    exact Check.checkParams_extends (Signature.params_subset (List.Subset.refl _))
  | global decl =>
    exact (decl.resolve_extends _ (List.Subset.refl _)).bind fun _ _ => .pure trivial
  | tagOnly specifier =>
    exact (specifier.resolve_extends _ (List.Subset.refl _)).bind fun _ _ => .pure trivial

theorem bindName_extends (item : Item) : Extends item.bindName item.idents (fun _ => True) := by
  cases item with
  | function sig _ =>
    exact Check.bindFunction_extends (Signature.name_mem (List.subset_append_left _ _)) _ _
  | prototype sig => exact Check.bindFunction_extends (Signature.name_mem (List.Subset.refl _)) _ _
  | global decl => exact Check.bindVariable_extends decl.core_mem_idents _
  | tagOnly _ => exact .pure trivial

theorem walkBody_extends (item : Item) : Extends item.walkBody item.idents (fun _ => True) := by
  cases item with
  | function sig body =>
    exact checkBody_extends (Signature.params_subset (List.subset_append_left _ _))
      (List.subset_append_right _ _)
  | prototype _ | global _ | tagOnly _ => exact .pure trivial

/-- An item reports at its own identifiers, and adds to the struct tags only. -/
theorem check_extends (item : Item) : Extends item.check item.idents (fun _ => True) := by
  rw [check_eq]
  exact item.checkHeader_extends.bind fun _ _ =>
    item.bindName_extends.bind fun _ _ => item.walkBody_extends

end Item

/-! ## The name of an item -/

/-- The symbols `ys` are the symbols `xs`, one function at most apart, which was undefined and has
been defined, perhaps with another type. -/
def DefinesOne (xs ys : List Symbol) : Prop :=
  ys = xs ∨ ∃ pre x post ty, xs = pre ++ x :: post ∧ x.kind = .func ∧ x.defined = false ∧
    ys = pre ++ { x with ty := ty, defined := true } :: post

/-- The outcome of a step from `s` that enters one name at file scope, that of one of `ids`. -/
structure Outcome.Entered (r : Outcome Unit) (s : State) (ids : List Ident) : Prop where
  symbols : ∃ ys new, r.state.symbols = ys ++ new ∧ DefinesOne s.symbols ys ∧ new.length ≤ 1
  pending : ∃ new, r.state.pending = s.pending ++ new ∧ new.length ≤ 1 ∧ ∀ d ∈ new, d.ident ∈ ids

/-- A step that reports and does nothing else enters no name. -/
theorem Outcome.Entered.of_state {r : Outcome Unit} {s : State} (h : r.state = s)
    (ids : List Ident) : r.Entered s ids := by
  rw [← h]
  exact ⟨⟨_, [], (List.append_nil _).symm, .inl rfl, Nat.zero_le _⟩,
    ⟨[], (List.append_nil _).symm, Nat.zero_le _, List.forall_mem_nil _⟩⟩

/-- A change of the one symbol of a name. -/
theorem map_eq_of_filter {xs : List Symbol} {name : String} {x : Symbol} {f : Symbol → Symbol}
    (h : xs.filter (·.name = name) = [x]) :
    ∃ pre post, xs = pre ++ x :: post ∧
      (xs.map fun y => if y.name == name then f y else y) = pre ++ f x :: post := by
  obtain ⟨pre, post, rfl, hpre, hname, hpost⟩ := List.filter_eq_cons_iff.1 h
  have hkeep : ∀ zs : List Symbol, (∀ z ∈ zs, ¬ z.name = name) →
      (zs.map fun z => if z.name == name then f z else z) = zs := fun zs hzs =>
    (List.map_congr_left fun z hz => if_neg (by simpa using hzs z hz)).trans (List.map_id zs)
  refine ⟨pre, post, rfl, ?_⟩
  rw [List.map_append, List.map_cons, hkeep pre (by simpa using hpre),
    hkeep post (by simpa using List.filter_eq_nil_iff.1 hpost), if_pos (by simpa using hname)]

/-- An occurrence enters its name, or defines what was declared, or clashes. -/
theorem Occurrence.bind_entered {os : List Occurrence} {s : State} (h : Records os s)
    (o : Occurrence) {ids : List Ident} (hid : o.id ∈ ids) : (o.bind s).Entered s ids := by
  by_cases hnew : named os o.id.name = []
  · have hv : o.verdict (named os o.id.name) = .fresh := by simp [verdict, hnew, clash?]
    refine ⟨⟨_, _, symbols_bind_of_fresh h o hnew, .inl rfl, Nat.le_refl 1⟩, ?_⟩
    by_cases hform : o.form = .var
    · rw [bind_variable_apply h o hform, hv]
      by_cases hinc : s.structs.isIncomplete o.ty = true
      · refine ⟨[⟨o.id, o.ty⟩], by simp [hinc], Nat.le_refl 1, fun d hd => ?_⟩
        rw [List.mem_singleton.1 hd]
        exact hid
      · exact ⟨[], by simp [hinc], Nat.zero_le 1, List.forall_mem_nil _⟩
    · rw [bind_function_apply h o hform, hv]
      exact ⟨[], (List.append_nil _).symm, Nat.zero_le 1, List.forall_mem_nil _⟩
  · cases hc : o.clash? (named os o.id.name) with
    | some kind =>
      rw [bind_of_clash h o hc]
      exact .of_state rfl ids
    | none =>
      have hv : o.verdict (named os o.id.name) = .completes := by simp [verdict, hc, hnew]
      obtain ⟨x, hx, hkind⟩ :=
        Option.map_eq_some_iff.1 (Verdict.existing_of_judge ((judge_eq _ o).trans hv))
      rw [Prod.mk.injEq] at hkind
      have hone : s.symbols.filter (·.name = o.id.name) = [x] := by
        rw [h.symbols_eq, filter_symbolsOf, hx, Option.toList_some]
      obtain ⟨pre, post, hsplit, hmap⟩ := map_eq_of_filter (f := o.define) hone
      have hform : o.form ≠ .var := form_ne_of_completes hnew hc
      refine ⟨⟨_, [], (List.append_nil _).symm, .inr ⟨pre, x, post, o.ty, hsplit, hkind.1, hkind.2,
        (symbols_bind_of_completes h o hnew hc).trans hmap⟩, Nat.zero_le 1⟩, ?_⟩
      rw [bind_function_apply h o hform, hv]
      exact ⟨[], (List.append_nil _).symm, Nat.zero_le 1, List.forall_mem_nil _⟩

namespace Item

theorem id_mem_of_occurrence? {item : Item} {known : List String} {o : Occurrence}
    (h : item.occurrence? known = some o) : o.id ∈ item.idents := by
  cases item with
  | function sig body =>
    cases h
    exact List.mem_append_left _ (Signature.name_mem (List.Subset.refl _))
  | prototype sig =>
    cases h
    exact Signature.name_mem (List.Subset.refl _)
  | global decl =>
    rw [occurrence?] at h
    split at h <;> cases h
    exact decl.core_mem_idents
  | tagOnly _ => cases h

/-- Binding the name of an item enters that name at most. -/
theorem bindName_entered (item : Item) {os : List Occurrence} {s : State} {known : List String}
    (hr : Records os s) (hin : s.scopes.inner = [])
    (hs : s.structs.Knows (completed known item.headerSpecifiers)) :
    (item.bindName s).Entered s item.idents := by
  cases ho : item.occurrence? known with
  | none =>
    rw [bindName_of_none hin hs ho]
    exact .of_state rfl _
  | some o =>
    rw [bindName_of_some hin hs ho]
    exact o.bind_entered hr (id_mem_of_occurrence? ho)

/-- What an item does to the file scope and to what waits, after the items `before`. -/
theorem check_entered (before : List Item) (item : Item) :
    (item.check (stateAfter before)).Entered (stateAfter before) item.idents := by
  have hc := item.checked_stateAfter before
  have hr := (records_stateAfter before).congr hc.header_globals hc.header_scopes
  have hin : (item.headerState (stateAfter before)).scopes.inner = [] := by
    rw [hc.header_scopes, inner_stateAfter]
  have h := item.bindName_entered hr hin hc.header_knows
  obtain ⟨ys, new, hsymbols, hdefines, hnew⟩ := h.symbols
  obtain ⟨waits, hpending, hlength, hwaits⟩ := h.pending
  rw [hc.header_symbols] at hdefines
  rw [hc.header_pending] at hpending
  exact ⟨⟨ys, new, hc.symbols.trans hsymbols, hdefines, hnew⟩,
    ⟨waits, hc.pending.trans hpending, hlength, hwaits⟩⟩

end Item

/-! ## Two runs -/

/-- The variables at file scope whose type is incomplete. -/
def Analysis.waiting (a : Analysis) : List Symbol :=
  a.globals.filter fun x => a.structs.isIncomplete x.ty

/-- The error about a variable whose type is never completed. -/
def Symbol.incompleteError (x : Symbol) : SemanticError := ⟨.incompleteType, x.name, x.span⟩

namespace Program

/-- The program of the first `n` items. -/
def first (p : Program) (n : Nat) : Program := ⟨p.items.take n⟩

variable (before : List Item) (item : Item)

theorem immediate_concat :
    immediate ⟨before ++ [item]⟩ =
      immediate ⟨before⟩ ++ Event.errors (item.check (stateAfter before)).events := by
  rw [immediate, checkItems_append, Check.bind_apply, Event.errors_append]
  simp only [checkItems, Check.bind_apply, Check.pure_apply, List.append_nil]
  rfl

theorem deferred_eq_waiting (p : Program) :
    p.deferred = p.run.result.waiting.map Symbol.incompleteError := by
  rw [Analysis.waiting, p.incomplete_globals_eq, p.deferred_eq,
    ← (waiting_stateAfter p.items).queue, List.map_map]
  rfl

/-- What still waits after one more item is what waited before it and is still incomplete. -/
theorem deferred_concat :
    ∃ es : List SemanticError,
      deferred ⟨before ++ [item]⟩ =
        ((run ⟨before⟩).result.waiting.filter
          fun x => (run ⟨before ++ [item]⟩).result.structs.isIncomplete x.ty).map
            Symbol.incompleteError ++ es ∧
      es.length ≤ 1 ∧ ∀ e ∈ es, e.Anchored item.idents := by
  obtain ⟨new, hpending, hlength, hnew⟩ := (item.check_entered before).pending
  have hsub : tagsAfter before ⊆ tagsAfter (before ++ [item]) := by
    rw [tagsAfter_concat]
    exact subset_completed _ _
  have hw := (waiting_stateAfter before).mono hsub
  have hstill : ((run ⟨before⟩).result.waiting.filter
      fun x => (run ⟨before ++ [item]⟩).result.structs.isIncomplete x.ty) =
      (stateAfter before).symbols.filter (·.Waits (tagsAfter (before ++ [item]))) := by
    rw [Analysis.waiting, incomplete_globals_eq, List.filter_filter]
    refine List.filter_congr fun x _ => ?_
    have hty := (knows_stateAfter (before ++ [item])).isIncomplete_eq_false_iff x.ty
    have hmono := x.ty.complete_mono hsub
    rw [Bool.eq_iff_iff, structs_run, Bool.and_eq_true, ← Bool.not_eq_false, hty,
      decide_eq_true_iff, decide_eq_true_iff]
    unfold Symbol.Waits
    tauto
  refine ⟨(new.filter (¬ ·.ty.Complete (tagsAfter (before ++ [item])))).map
    fun d => .atIdent .incompleteType d.ident, ?_, ?_, ?_⟩
  · rw [deferred_eq, stateAfter_concat, hpending, List.filter_append, List.map_append, ← hw.queue,
      List.map_map, hstill]
    rfl
  · rw [List.length_map]
    exact (List.length_filter_le _ _).trans hlength
  · intro e he
    obtain ⟨d, hd, rfl⟩ := List.mem_map.1 he
    exact ⟨_, d.ident, hnew d (List.mem_filter.1 hd).1, rfl⟩

theorem symbols_concat :
    ∃ ys new, (run ⟨before ++ [item]⟩).result.symbols = ys ++ new ∧
      DefinesOne (run ⟨before⟩).result.symbols ys ∧ new.length ≤ 1 := by
  rw [symbols_run, symbols_run, stateAfter_concat]
  exact (item.check_entered before).symbols

theorem structs_concat :
    (run ⟨before⟩).result.structs.Grows (run ⟨before ++ [item]⟩).result.structs := by
  rw [structs_run, structs_run, stateAfter_concat]
  exact (item.check_extends _).structs

/-- The tags of a run are in step with their entries. -/
theorem inStep_run (p : Program) : p.run.result.structs.InStep := by
  obtain ⟨items⟩ := p
  induction items using List.reverseRecOn with
  | nil => exact .empty
  | append_singleton before item ih => exact (structs_concat before item).inStep ih

theorem tags_concat :
    (run ⟨before⟩).result.structs.defs.map (·.tag) <+:
      (run ⟨before ++ [item]⟩).result.structs.defs.map (·.tag) := by
  rw [(inStep_run _).tags_defs, (inStep_run _).tags_defs]
  exact (structs_concat before item).order

/-- How the run of `new`, which has one item more, continues the run of `old`: the item has the
identifiers `ids`. -/
structure Continues (old new : Program) (ids : List Ident) : Prop where
  immediate : ∃ es, new.immediate = old.immediate ++ es ∧ ∀ e ∈ es, e.Anchored ids
  deferred : ∃ es, new.deferred =
      (old.run.result.waiting.filter fun x => new.run.result.structs.isIncomplete x.ty).map
        Symbol.incompleteError ++ es ∧
    es.length ≤ 1 ∧ ∀ e ∈ es, e.Anchored ids
  symbols : ∃ ys xs, new.run.result.symbols = ys ++ xs ∧
    DefinesOne old.run.result.symbols ys ∧ xs.length ≤ 1
  structs : old.run.result.structs.Grows new.run.result.structs
  tags : old.run.result.structs.defs.map (·.tag) <+: new.run.result.structs.defs.map (·.tag)

/-- **The analysis is incremental.** The errors of a run are those of the walk and then the deferred
ones, one for each variable that still waits. With one more item, errors at identifiers of that item
follow those of the walk. Of the deferred errors those stay whose variables are still of incomplete
type, and one may be added at an identifier of the item. The symbols stay, but one function may be
defined that was only declared, and one symbol may be added. The struct tags stay in order before
any new ones, and what was complete stays the same. -/
theorem run_continues (p : Program) (n : Nat) (hn : n < p.items.length) :
    (∀ k, (p.first k).run.errors = (p.first k).immediate ++ (p.first k).deferred ∧
      (p.first k).deferred = (p.first k).run.result.waiting.map Symbol.incompleteError) ∧
    Continues (p.first n) (p.first (n + 1)) p.items[n].idents := by
  have hnew : p.first (n + 1) = ⟨p.items.take n ++ [p.items[n]]⟩ := by simp [first]
  refine ⟨fun k => ⟨(p.first k).errors_run, (p.first k).deferred_eq_waiting⟩, ?_⟩
  rw [hnew]
  exact {
    immediate := ⟨_, immediate_concat _ _, (Item.check_extends _ _).anchored⟩
    deferred := deferred_concat _ _
    symbols := symbols_concat _ _
    structs := structs_concat _ _
    tags := tags_concat _ _ }

/-- A variable of a struct without definition, a declared function, and then its definition, which
has the definition of the struct among its parameters and an undeclared name in its body. -/
def lateStruct : Program :=
  let place (n : Nat) : Span := ⟨n, n + 1, 1, n + 1⟩
  let member : Decl := ⟨.int (place 5), .ident ⟨"a", place 6⟩, place 5⟩
  let tagged : Specifier := .structDef ⟨"T", place 4⟩ [member] (place 4)
  let param : Decl := ⟨tagged, .ident ⟨"x", place 7⟩, place 4⟩
  ⟨[.global ⟨.structRef ⟨"T", place 0⟩ (place 0), .ident ⟨"g", place 1⟩, place 0⟩,
    .prototype ⟨.int (place 2), ⟨"f", place 3⟩, [], place 2⟩,
    .function ⟨.int (place 2), ⟨"f", place 3⟩, [param], place 2⟩
      ⟨[.ret (some (.name ⟨"y", place 9⟩)) (place 8)], place 8⟩]⟩

theorem lateStruct_continues :
    2 < lateStruct.items.length ∧
      Continues (lateStruct.first 2) (lateStruct.first 3)
        (Item.idents (lateStruct.items.get ⟨2, by decide⟩)) :=
  ⟨by decide, (run_continues lateStruct 2 (by decide)).2⟩

end Program

end MiniC
