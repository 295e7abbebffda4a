import MiniC.Proofs.Levels.Basic
import MiniC.Proofs.Registry.Resolving

/-!
# Each declarator is resolved once

What a run tells about types is that a declarator has been resolved and that a type is incomplete.
The second is reported for two reasons: a bound of the declarator is no positive number, or the type
is a struct without definition where the name is declared. The notes on a program list what is told,
in the order in which it is walked, and keep the two apart: the errors about bounds belong to the
note that the declarator is resolved (`TypeNote.events`), the others are notes of their own. A
member list that is rejected, because its tag has been defined before, has no notes.

`run_resolves_once` says that a run tells this and nothing else about types, so each declarator is
resolved once, with an error for each bad bound, wherever it stands.
-/

namespace MiniC

/-! ## Notes -/

/-- Something that is told about the type of a declared name. -/
inductive TypeNote where
  | resolved (d : Decl)
  | incomplete (id : Ident)

/-- The number of bounds that are no positive numbers. -/
def Decl.badBounds (d : Decl) : Nat := d.declarator.numbers.countP (· ≤ 0)

namespace TypeNote

/-- How a note is told. The errors about the bounds of a declarator come right before the event that
it is resolved. -/
def events : TypeNote → List Event
  | .resolved d =>
    .replicate d.badBounds (.reported (.atIdent .incompleteType d.core)) ++
      [.resolved d.core.name d.ty]
  | .incomplete id => [.reported (.atIdent .incompleteType id)]

/-- The declaration whose declarator is resolved. -/
def decl? : TypeNote → Option Decl
  | .resolved d => some d
  | .incomplete _ => none

end TypeNote

/-- The note on a name that is declared where only the tags of `known` are complete, if that is not
enough for its type. -/
def Decl.incomplete (known : List String) (d : Decl) : List TypeNote :=
  if d.ty.Complete known then [] else [.incomplete d.core]

mutual

/-- The notes on the members in a specifier if the tags of `known` are complete before it. -/
def Specifier.notes (known : List String) : Specifier → List TypeNote
  | .int _ | .char _ | .structRef _ _ => []
  | .structDef tag members _ =>
    if tag.name ∈ known then [] else memberNotes (tag.name :: known) [] members

/-- The members in the specifier of a declaration come before its own declarator. -/
def Decl.notes (known : List String) : Decl → List TypeNote
  | ⟨specifier, declarator, span⟩ =>
    specifier.notes known ++ [.resolved ⟨specifier, declarator, span⟩]

/-- A member that repeats a name of `earlier` is left out of the struct, so its type does not have
to be complete. -/
def memberNotes (known earlier : List String) : List Decl → List TypeNote
  | [] => []
  | d :: more =>
    d.notes known ++
      ((if d.core.name ∈ earlier then [] else d.incomplete (d.completes known)) ++
        memberNotes (d.completes known) (d.core.name :: earlier) more)

end

/-- The notes on the parameters of a function. Their types are looked at when they are bound. -/
def paramNotes (known : List String) : List Decl → List TypeNote
  | [] => []
  | d :: more => d.notes known ++ paramNotes (d.completes known) more

/-- The return type comes before the parameters. -/
def Signature.notes (known : List String) (sig : Signature) : List TypeNote :=
  sig.ret.notes known ++ paramNotes (sig.ret.completes known) sig.params

mutual

def Stmt.notes (known : List String) : Stmt → List TypeNote
  | .block stmts _ => stmtNotes known stmts
  | .varDecl decl _ _ => decl.notes known ++ decl.incomplete (decl.completes known)
  | .ifThen _ yes _ => yes.notes known
  | .ifElse _ yes no _ => yes.notes known ++ no.notes (completed known yes.specifiers)
  | .loop _ body _ => body.notes known
  | .expr _ | .ret _ _ | .brk _ | .cont _ | .empty _ => []

def stmtNotes (known : List String) : List Stmt → List TypeNote
  | [] => []
  | stmt :: more => stmt.notes known ++ stmtNotes (completed known stmt.specifiers) more

end

namespace Item

/-- The notes on the header of an item. That of a function is the same with and without a body. -/
def headerNotes (known : List String) : Item → List TypeNote
  | .function sig _ | .prototype sig => sig.notes known
  | .global decl => decl.notes known
  | .tagOnly specifier => specifier.notes known

/-- The notes on what comes after the header, where the tags of `known` are complete. Parameters are
bound with the body, and a global variable may have an incomplete type unless that is an array. -/
def innerNotes (known : List String) : Item → List TypeNote
  | .function sig body =>
    sig.params.flatMap (Decl.incomplete known) ++ stmtNotes known body.stmts
  | .global decl => if decl.ty.isArray then decl.incomplete known else []
  | .prototype _ | .tagOnly _ => []

def notes (known : List String) (item : Item) : List TypeNote :=
  item.headerNotes known ++ item.innerNotes (completed known item.headerSpecifiers)

end Item

def itemNotes (known : List String) : List Item → List TypeNote
  | [] => []
  | item :: more => item.notes known ++ itemNotes (completed known item.specifiers) more

namespace Program

/-- The notes on a program, those on the global variables that are still incomplete in the end
last. -/
def notes (p : Program) : List TypeNote :=
  itemNotes [] p.items ++ p.run.result.waiting.map fun x => .incomplete ⟨x.name, x.span⟩

/-- The declarators of a program in the order in which they are resolved. -/
def declarators (p : Program) : List Decl := p.notes.filterMap TypeNote.decl?

end Program

/-! ## Events about types -/

namespace Event

/-- The event is about the type of a declared name. -/
def isTyping : Event → Bool
  | .resolved _ _ => true
  | .reported error => error.kind = .incompleteType
  | _ => false

/-- What some events tell about types. -/
def typing (events : List Event) : List Event := events.filter isTyping

theorem typing_append (es fs : List Event) : typing (es ++ fs) = typing es ++ typing fs :=
  List.filter_append es fs

theorem typing_map_reported {errors : List SemanticError}
    (h : ∀ e ∈ errors, e.kind ≠ .incompleteType) : typing (errors.map .reported) = [] := by
  rw [typing, List.filter_eq_nil_iff, List.forall_mem_map]
  intro e he
  simp [isTyping, h e he]

theorem typing_reported {kind : SemanticError.Kind} (h : kind ≠ .incompleteType) (id : Ident) :
    typing [.reported (.atIdent kind id)] = [] := by
  simp [typing, isTyping, SemanticError.atIdent, h]

end Event

theorem TypeNote.typing_events (note : TypeNote) : Event.typing note.events = note.events := by
  rw [Event.typing, List.filter_eq_self]
  cases note with
  | resolved d =>
    simp only [events, List.forall_mem_append, List.forall_mem_singleton]
    refine ⟨fun e he => ?_, rfl⟩
    rw [List.eq_of_mem_replicate he]
    rfl
  | incomplete id =>
    rw [events, List.forall_mem_singleton]
    rfl

/-! ## Steps and their notes -/

namespace Check

/-- From every state that knows the tags of `known`, the step tells these notes about types. -/
def Notes (m : Check α) (known : List String) (notes : List TypeNote) : Prop :=
  ∀ s : State, s.structs.Knows known →
    Event.typing (m s).events = notes.flatMap TypeNote.events

/-- From every such state inside a function. -/
def NotesInside (m : Check Unit) (known : List String) (notes : List TypeNote) : Prop :=
  ∀ s : State, s.structs.Knows known → s.scopes.inner ≠ [] →
    Event.typing (m s).events = notes.flatMap TypeNote.events

namespace Notes

variable {m : Check α} {f : α → Check β} {known between : List String} {notes more : List TypeNote}

theorem quiet (h : ∀ s, Event.typing (m s).events = []) : Notes m known [] := fun s _ => h s

protected theorem pure (a : α) : Notes (pure a) known [] := quiet fun _ => rfl

protected theorem bind {P : α → Prop} (hm : Notes m known notes)
    (hr : Resolves m known between P) (hf : ∀ a, P a → Notes (f a) between more) :
    Notes (m >>= f) known (notes ++ more) := by
  intro s hs
  have h := hr s hs
  rw [bind_apply, Event.typing_append, hm s hs, hf _ h.value _ h.knows, List.flatMap_append]

/-- A step that tells nothing about types, and then one that may use its value. -/
theorem quiet_bind {P : α → Prop} (hm : ∀ s, Event.typing (m s).events = [])
    (hr : Resolves m known between P) (hf : ∀ a, P a → Notes (f a) between notes) :
    Notes (m >>= f) known notes :=
  (quiet hm).bind hr hf

/-- A step, and then one that tells nothing about types. -/
theorem bind_quiet (hm : Notes m known notes) (hf : ∀ a s, Event.typing (f a s).events = []) :
    Notes (m >>= f) known notes := by
  intro s hs
  rw [bind_apply, Event.typing_append, hm s hs, hf, List.append_nil]

theorem inside {m : Check Unit} (h : Notes m known notes) : NotesInside m known notes :=
  fun s hs _ => h s hs

end Notes

namespace NotesInside

variable {m n : Check Unit} {known between : List String} {notes more : List TypeNote}

protected theorem bind (hm : NotesInside m known notes) (hw : Walks m known between)
    (hn : NotesInside n between more) : NotesInside (do m; n) known (notes ++ more) := by
  intro s hs hin
  have h := hw s hs hin
  rw [bind_apply, Event.typing_append, hm s hs hin, hn _ h.knows h.inside, List.flatMap_append]

/-- A resolution and then a step that may use its value. -/
theorem resolve_bind {r : Check α} {f : α → Check Unit} {a : α} (hn : Notes r known notes)
    (hr : Resolves r known between (· = a)) (hf : NotesInside (f a) between more) :
    NotesInside (r >>= f) known (notes ++ more) := by
  intro s hs hin
  have h := hr s hs
  have hin' : (r s).state.scopes.inner ≠ [] := by rw [h.scopes]; exact hin
  rw [bind_apply, Event.typing_append, hn s hs, h.value, hf _ h.knows hin', List.flatMap_append]

theorem of_looked {ids : List Ident} (h : ∀ s, m s = s.looked ids) : NotesInside m known [] := by
  intro s _ _
  rw [h s, State.looked]
  apply Event.typing_map_reported
  rw [State.unbound, List.forall_mem_map]
  intro id _
  simp [SemanticError.atIdent]

/-- Names that are looked at before a step tell nothing about types. -/
theorem looked_bind {ids : List Ident} (h : ∀ s, m s = s.looked ids)
    (hn : NotesInside n known notes) : NotesInside (do m; n) known notes :=
  (of_looked h).bind (.of_looked h) hn

end NotesInside

/-- A scope around a step tells nothing about types, and inside it there is a function. -/
theorem NotesInside.scoped {m : Check Unit} {known after : List String} {notes : List TypeNote}
    (hm : NotesInside m known notes) (hw : Walks m known after) :
    Notes (do openScope; m; closeScope) known notes := by
  intro s hs
  have hin : s.scopes.push.inner ≠ [] := by simp [ScopeChain.push]
  have h := hm { s with scopes := s.scopes.push } hs hin
  rw [scoped_apply rfl (hw { s with scopes := s.scopes.push } hs hin), ← List.singleton_append,
    Event.typing_append, Event.typing_append, h]
  exact List.append_nil _

end Check

open Check (Notes NotesInside Resolves)

/-! ## Declarators -/

/-- A declarator is resolved once, with an error for each bad bound. -/
theorem Decl.declarator_notes (d : Decl) (known : List String) :
    Notes (d.declarator.resolve d.specifier.base) known [.resolved d] := by
  intro s _
  have hevents : (d.declarator.resolve d.specifier.base s).events = (TypeNote.resolved d).events :=
    d.declarator.events_resolve d.specifier.base s
  rw [hevents, TypeNote.typing_events, List.flatMap_singleton]

namespace Check

theorem typing_mentionTag (tag : String) (s : State) :
    Event.typing (mentionTag tag s).events = [] := by
  rw [mentionTag_apply]
  split <;> rfl

theorem typing_defineTag (tag : String) (s : State) :
    Event.typing (defineTag tag s).events = [] := by
  rw [defineTag_apply]
  split <;> rfl

theorem watch_resolves (d : TypedIdent) (known : List String) :
    Resolves (watch d) known known (fun _ => True) := by
  refine Resolves.state.bind fun s _ => ?_
  split
  · exact .report (by decide) _
  · exact .pure trivial

/-- The note on a name whose type is looked at is told in a state that knows the same tags. -/
theorem incomplete_events {s : State} {known : List String} (hs : s.structs.Knows known)
    (d : Decl) :
    (d.incomplete known).flatMap TypeNote.events =
      if s.structs.isIncomplete d.ty then [.reported (.atIdent .incompleteType d.core)]
      else [] := by
  have h := hs.isIncomplete_eq_false_iff d.ty
  unfold Decl.incomplete
  by_cases hty : d.ty.Complete known
  · rw [if_pos hty, h.2 hty]
    rfl
  · rw [if_neg hty, if_pos (by rwa [← h, Bool.not_eq_false] at hty)]
    rfl

theorem watch_notes (d : Decl) (known : List String) :
    Notes (watch d.typed) known (d.incomplete known) := by
  intro s hs
  rw [incomplete_events hs, watch, state_bind_apply, ite_apply]
  change Event.typing (if s.structs.isIncomplete d.ty then _ else _ : Outcome Unit).events = _
  split <;> rfl

end Check

mutual

theorem Specifier.resolve_notes (known : List String) :
    (spec : Specifier) → Notes spec.resolve known (spec.notes known)
  | .int _ | .char _ => .pure _
  | .structRef tag _ => .quiet (Check.typing_mentionTag tag.name)
  | .structDef tag members _ => by
    rw [Specifier.resolve, Specifier.notes]
    refine .quiet_bind (Check.typing_mentionTag _) (Check.mentionTag_resolves tag.name known) ?_
    rintro _ rfl
    refine .quiet_bind (Check.typing_defineTag _) (Check.defineTag_resolves tag.name known)
      fun new hnew => ?_
    by_cases htag : tag.name ∈ known
    · rw [if_neg (fun h => hnew.1 h htag), if_pos htag, if_pos htag]
      exact .quiet fun _ => rfl
    · rw [if_pos (hnew.2 htag), if_neg htag, if_neg htag]
      have hnone : ∀ n, n ∈ ([] : List Field).map (·.name) ↔ n ∈ ([] : List String) := by simp
      exact (resolveMembers_notes _ hnone members).bind_quiet fun _ _ => rfl

theorem Decl.resolve_notes (known : List String) :
    (d : Decl) → Notes d.resolve known (d.notes known)
  | ⟨specifier, declarator, span⟩ => by
    rw [Decl.resolve, Decl.notes]
    refine (specifier.resolve_notes known).bind (specifier.resolve_resolves known) ?_
    rintro _ rfl
    exact Decl.declarator_notes ⟨specifier, declarator, span⟩ _

theorem resolveMembers_notes (known : List String) {fields : List Field} {earlier : List String}
    (hearlier : ∀ n, n ∈ fields.map (·.name) ↔ n ∈ earlier) :
    (members : List Decl) →
      Notes (resolveMembers fields members) known (memberNotes known earlier members)
  | [] => .pure _
  | member :: more => by
    have hmember := member.resolve_notes known
    have hresolves := member.resolve_resolves known
    rw [memberNotes]
    by_cases hmem : member.core.name ∈ earlier
    · rw [resolveMembers_repeated ((any_name_iff hearlier _).2 hmem), if_pos hmem, List.nil_append]
      refine hmember.bind hresolves fun _ _ => ?_
      refine .quiet_bind (fun _ => rfl) (Resolves.report (by decide) _) fun _ _ => ?_
      exact resolveMembers_notes _ (names_repeated hearlier hmem) more
    · rw [resolveMembers_fresh (mt (any_name_iff hearlier _).1 hmem), if_neg hmem]
      refine hmember.bind hresolves fun _ _ => ?_
      refine (Check.watch_notes member _).bind (Check.watch_resolves _ _) fun _ _ => ?_
      exact resolveMembers_notes _ (names_fresh hearlier member) more

end

theorem resolveDecls_notes (ds : List Decl) (known : List String) :
    Notes (resolveDecls ds) known (paramNotes known ds) := by
  induction ds generalizing known with
  | nil => exact .pure _
  | cons d ds ih =>
    rw [resolveDecls, paramNotes]
    refine (d.resolve_notes known).bind (d.resolve_resolves known) fun _ _ => ?_
    exact (ih _).bind_quiet fun _ _ => rfl

theorem Signature.resolve_notes (sig : Signature) (known : List String) :
    Notes sig.resolve known (sig.notes known) := by
  refine (sig.ret.resolve_notes known).bind (sig.ret.resolve_resolves known) fun _ _ => ?_
  exact (resolveDecls_notes sig.params _).bind_quiet fun _ _ => rfl

/-! ## Statements -/

namespace Check

theorem bindVariable_notes (d : Decl) (known : List String) :
    NotesInside (bindVariable d.core d.ty) known (d.incomplete known) := by
  intro s hs hin
  obtain ⟨here, outer, hin⟩ := List.exists_cons_of_ne_nil hin
  rw [incomplete_events hs, bindVariable_apply_inner hin]
  split
  · rfl
  · split <;> rfl

theorem bindParams_notes (ds : List Decl) (known : List String) :
    NotesInside (bindParams (ds.map Decl.typed)) known (ds.flatMap (Decl.incomplete known)) := by
  induction ds with
  | nil => exact (Notes.pure _).inside
  | cons d ds ih => exact (bindVariable_notes d known).bind (bindVariable_walks _ _ known) ih

end Check

mutual

theorem Stmt.check_notes (known : List String) :
    (stmt : Stmt) → NotesInside stmt.check known (stmt.notes known)
  | .block stmts _ =>
    ((checkStmts_notes known stmts).scoped (checkStmts_walks known stmts)).inside
  | .varDecl decl init _ => by
    have hinit : ∀ s, checkOption init s = s.looked (optionNames init) :=
      fun s => checkOption_apply s init
    rw [Stmt.check, Stmt.notes, ← List.append_nil (decl.incomplete _)]
    refine .resolve_bind (decl.resolve_notes known) (decl.resolve_resolves known) ?_
    exact (Check.bindVariable_notes decl _).bind (Check.bindVariable_walks _ _ _) (.of_looked hinit)
  | .expr value => .of_looked fun s => value.check_apply s
  | .ret value _ => .of_looked fun s => checkOption_apply s value
  | .ifThen cond yes _ =>
    .looked_bind (fun s => cond.check_apply s) (yes.check_notes known)
  | .ifElse cond yes no _ => by
    rw [Stmt.check, Stmt.notes]
    refine .looked_bind (fun s => cond.check_apply s) ?_
    exact (yes.check_notes known).bind (yes.check_walks known) (no.check_notes _)
  | .loop cond body _ =>
    .looked_bind (fun s => cond.check_apply s) (body.check_notes known)
  | .brk _ | .cont _ | .empty _ => (Notes.pure _).inside

theorem checkStmts_notes (known : List String) :
    (stmts : List Stmt) → NotesInside (checkStmts stmts) known (stmtNotes known stmts)
  | [] => (Notes.pure _).inside
  | stmt :: more => by
    rw [checkStmts, stmtNotes]
    exact (stmt.check_notes known).bind (stmt.check_walks known) (checkStmts_notes _ more)

end

theorem checkBody_notes (ds : List Decl) (body : Block) (known : List String) :
    Notes (checkBody (ds.map Decl.typed) body) known
      (ds.flatMap (Decl.incomplete known) ++ stmtNotes known body.stmts) := by
  have hparams := Check.bindParams_walks (ds.map Decl.typed) known
  rw [checkBody_eq]
  refine NotesInside.scoped ?_ (hparams.bind (checkStmts_walks known body.stmts))
  exact (Check.bindParams_notes ds known).bind hparams (checkStmts_notes known body.stmts)

/-! ## Items -/

namespace Check

theorem typing_bindGlobal (id : Ident) (ty : Ty) (s : State) :
    Event.typing (bindGlobal id ty s).events = [] := by
  rw [bindGlobal_apply]
  split
  · rename_i kind hjudge
    exact Event.typing_reported (Verdict.kind_ne_of_judge hjudge).2 id
  · rfl

theorem typing_bindFunction (id : Ident) (ty : Ty) (hasBody : Bool) (s : State) :
    Event.typing (bindFunction id ty hasBody s).events = [] := by
  rw [bindFunction_apply]
  split
  · rfl
  · rfl
  · rename_i kind hjudge
    exact Event.typing_reported (Verdict.kind_ne_of_judge hjudge).2 id

theorem typing_checkParams (params : List TypedIdent) (s : State) :
    Event.typing (checkParams params s).events = [] := by
  unfold checkParams
  cases firstRepeated? [] (params.map (·.ident)) <;> rfl

end Check

namespace Item

theorem checkHeader_notes (item : Item) (known : List String) :
    Notes item.checkHeader known (item.headerNotes known) := by
  cases item with
  | function sig _ => exact (sig.resolve_notes known).bind_quiet fun _ _ => rfl
  | prototype sig =>
    exact (sig.resolve_notes known).bind_quiet fun _ s => Check.typing_checkParams _ s
  | global decl => exact (decl.resolve_notes known).bind_quiet fun _ _ => rfl
  | tagOnly specifier => exact (specifier.resolve_notes known).bind_quiet fun _ _ => rfl

/-- What comes after the header. Binding the name of a function tells nothing about types. -/
theorem typing_inner (item : Item) {s : State} {known : List String} (hs : s.structs.Knows known)
    (hin : s.scopes.inner = []) :
    Event.typing ((do item.bindName; item.walkBody) s).events =
      (item.innerNotes known).flatMap TypeNote.events := by
  cases item with
  | function sig body =>
    have hnamed := Check.bindFunction_named sig.name sig.ty true s
    have hs' : (Check.bindFunction sig.name sig.ty true s).state.structs.Knows known := by
      rw [hnamed.structs]
      exact hs
    rw [bindName, walkBody, Check.bind_apply, Event.typing_append, Check.typing_bindFunction,
      checkBody_notes sig.params body known _ hs']
    rfl
  | prototype sig =>
    rw [bindName, walkBody, Check.bind_apply, Event.typing_append, Check.typing_bindFunction]
    rfl
  | global decl =>
    rw [bindName, walkBody, Check.bind_apply, Event.typing_append,
      Check.bindVariable_apply_file hin, innerNotes]
    by_cases harray : decl.ty.isArray = true
    · rw [if_pos harray, Check.incomplete_events hs, harray, Bool.and_true]
      split
      · rfl
      · rw [Check.typing_bindGlobal]
        rfl
    · rw [if_neg harray, eq_false_of_ne_true harray, Bool.and_false, if_neg Bool.false_ne_true,
        Check.typing_bindGlobal]
      rfl
  | tagOnly _ => rfl

theorem typing_check (item : Item) {s : State} {known : List String} (hs : s.structs.Knows known)
    (hin : s.scopes.inner = []) :
    Event.typing (item.check s).events = (item.notes known).flatMap TypeNote.events := by
  have h := item.checked hs hin
  have hin' : (item.headerState s).scopes.inner = [] := by rw [h.header_scopes, hin]
  rw [check_eq, Check.bind_apply, Event.typing_append, item.checkHeader_notes known s hs, notes,
    List.flatMap_append, ← item.typing_inner h.header_knows hin']
  rfl

end Item

theorem typing_checkItems (items : List Item) {s : State} {known : List String}
    (hs : s.structs.Knows known) (hin : s.scopes.inner = []) :
    Event.typing (checkItems items s).events =
      (itemNotes known items).flatMap TypeNote.events := by
  induction items generalizing s known with
  | nil => rfl
  | cons item items ih =>
    have h := item.checked hs hin
    rw [checkItems, itemNotes, Check.bind_apply, Event.typing_append, item.typing_check hs hin,
      ih h.knows (h.scopes ▸ h.named_inner), List.flatMap_append]

/-! ## Programs -/

/-- In the end only variables that are still incomplete are about types. -/
theorem State.typing_settled (s : State) (ds : List TypedIdent) :
    Event.typing (ds.map s.settled) = (Event.errors (ds.map s.settled)).map .reported := by
  induction ds with
  | nil => rfl
  | cons d ds ih =>
    rw [List.map_cons, ← List.singleton_append, Event.typing_append, Event.errors_append,
      List.map_append, ih]
    apply congrArg (· ++ _)
    unfold State.settled
    split <;> rfl

namespace Program

theorem typing_settlePending (p : Program) :
    Event.typing (settlePending (stateAfter p.items)).events =
      (p.run.result.waiting.map fun x => .incomplete ⟨x.name, x.span⟩).flatMap TypeNote.events := by
  have hdeferred := p.deferred_eq_waiting
  rw [deferred, settlePending_apply] at hdeferred
  rw [settlePending_apply, State.typing_settled, hdeferred, List.map_map, List.flatMap_map,
    List.map_eq_flatMap]
  rfl

theorem typing_run (p : Program) : Event.typing p.run.events = p.notes.flatMap TypeNote.events := by
  have hitems := typing_checkItems p.items StructTable.knows_empty (s := .initial) rfl
  rw [notes, List.flatMap_append, ← hitems, ← p.typing_settlePending]
  exact Event.typing_append _ _

end Program

/-! ## The trace -/

namespace Event

/-- The lines of finest detail. -/
def traceLines (events : List Event) : List (Level × String) :=
  (events.flatMap lines).filter (·.1 = .trace)

theorem traceLines_append (es fs : List Event) :
    traceLines (es ++ fs) = traceLines es ++ traceLines fs := by
  rw [traceLines, List.flatMap_append, List.filter_append, traceLines, traceLines]

theorem traceLines_replicate_reported (n : Nat) (error : SemanticError) :
    traceLines (.replicate n (.reported error)) = [] := by
  induction n with
  | zero => rfl
  | succ n ih =>
    rw [List.replicate_succ, ← List.singleton_append, traceLines_append, ih]
    rfl

/-- They are all about types. -/
theorem traceLines_typing (events : List Event) :
    traceLines (typing events) = traceLines events := by
  induction events with
  | nil => rfl
  | cons e events ih =>
    have hone : traceLines (typing [e]) = traceLines [e] := by
      cases e with
      | reported error =>
        by_cases h : error.kind = .incompleteType <;> simp [typing, isTyping, h, traceLines, lines]
      | _ => rfl
    rw [← List.singleton_append, typing_append, traceLines_append, traceLines_append, hone, ih]

end Event

/-- The line for a declarator. -/
def Decl.line (d : Decl) : Event.Level × String :=
  (.trace, "resolved " ++ d.core.name ++ ": " ++ d.ty.spelling)

namespace TypeNote

theorem traceLines_events (note : TypeNote) :
    Event.traceLines note.events = (note.decl?.map Decl.line).toList := by
  cases note with
  | resolved d =>
    rw [events, Event.traceLines_append, Event.traceLines_replicate_reported]
    rfl
  | incomplete id => rfl

theorem traceLines_flatMap (notes : List TypeNote) :
    Event.traceLines (notes.flatMap events) = (notes.filterMap decl?).map Decl.line := by
  induction notes with
  | nil => rfl
  | cons note notes ih =>
    rw [List.flatMap_cons, Event.traceLines_append, note.traceLines_events, ih]
    cases note <;> rfl

end TypeNote

/-- **Each declarator is resolved once.** The trace of a run has one line for each declarator that
is not in a rejected member list: items in order, in a function the return type before the
parameters before the body, and the members in a specifier before the declarator that it belongs to.
All that a run tells about types are its notes. So for each of these declarators there are as many
errors about bounds as it has bounds that are no positive numbers, in functions with and without a
body, and any other error about an incomplete type is about a name declared with such a type. -/
theorem run_resolves_once (p : Program) :
    Event.traceLines p.run.events = p.declarators.map Decl.line ∧
    Event.typing p.run.events = p.notes.flatMap TypeNote.events := by
  refine ⟨?_, p.typing_run⟩
  rw [← Event.traceLines_typing, p.typing_run, TypeNote.traceLines_flatMap, Program.declarators]

/-- `int f(struct S { int a[0][2][-1]; } x, struct S { int b[0]; } y[0]);`, where the second member
list is rejected. -/
def twiceDefined : Program :=
  let place (n : Nat) : Span := ⟨n, n + 1, 1, n + 1⟩
  let decl (specifier : Specifier) (name : String) (n : Nat) (bounds : List String) : Decl :=
    ⟨specifier, bounds.foldl (fun d b => .array d ⟨b, place n⟩ (place n)) (.ident ⟨name, place n⟩),
      place n⟩
  let a := decl (.int (place 2)) "a" 3 ["0", "2", "-1"]
  let b := decl (.int (place 6)) "b" 7 ["0"]
  let x := decl (.structDef ⟨"S", place 1⟩ [a] (place 1)) "x" 4 []
  let y := decl (.structDef ⟨"S", place 5⟩ [b] (place 5)) "y" 8 ["0"]
  ⟨[.prototype ⟨.int (place 0), ⟨"f", place 0⟩, [x, y], place 0⟩]⟩

example : twiceDefined.declarators.map (fun d => (d.core.name, d.badBounds)) =
    [("a", 2), ("x", 0), ("y", 1)] := by
  decide +kernel

end MiniC
