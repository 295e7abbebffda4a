import MiniC.Proofs.Increment

/-!
# Bodies leave the outer scopes alone

A statement adds names to the current scope and changes none of the scopes around it, whichever
scope is the current one (`Stmt.check_confines`). The scopes that it opens on the way are all closed
again: what it tells of them is `Stmt.marks`, which depends on the statement and on how deep it
stands, and nothing else. So the marks in the trace of a program are well bracketed
(`Program.bracketed_marks`), and the walk ends where it began, at file scope.
-/

namespace MiniC

/-! ## Scopes that grow -/

namespace Scope

/-- The bindings of `s` are the first ones of `t`, and those that follow have new names, each a name
of its own. -/
def Grows (s t : Scope) : Prop :=
  ∃ added, t.symbols.bindings = s.symbols.bindings ++ added ∧ (added.map (·.1)).Nodup ∧
    ∀ b ∈ added, s.get? b.1 = none

namespace Grows

variable {s t u : Scope}

theorem refl (s : Scope) : s.Grows s := ⟨[], by simp, by simp, by simp⟩

/-- A name that is bound keeps its symbol. -/
theorem get? (h : s.Grows t) {n : String} {x : Symbol} (hx : s.get? n = some x) :
    t.get? n = some x := by
  obtain ⟨added, ht, -, -⟩ := h
  refine Dict.get?_eq_some_iff.2 ?_
  rw [ht]
  exact List.mem_append_left _ (Dict.get?_eq_some_iff.1 hx)

/-- More bindings than those of `s` have other names, as a scope binds no name twice. -/
theorem of_bindings {added : List (String × Symbol)}
    (h : t.symbols.bindings = s.symbols.bindings ++ added) : s.Grows t := by
  have hdistinct := t.symbols.distinct
  rw [h, List.map_append, List.nodup_append] at hdistinct
  refine ⟨added, h, hdistinct.2.1, fun b hb => Dict.get?_eq_none_iff.2 fun hmem => ?_⟩
  exact hdistinct.2.2 b.1 hmem b.1 (List.mem_map_of_mem hb) rfl

theorem trans (h : s.Grows t) (h' : t.Grows u) : s.Grows u := by
  obtain ⟨added, ht, -, -⟩ := h
  obtain ⟨more, hu, -, -⟩ := h'
  exact of_bindings (by rw [hu, ht, List.append_assoc])

theorem bind {x : Symbol} (h : s.get? x.name = none) : s.Grows (s.bind x) :=
  of_bindings (Dict.bindings_insert_of_none h x)

end Grows

end Scope

namespace ScopeChain

/-- All scopes, the current one first and the file scope last. -/
def frames (t : ScopeChain) : List Scope := t.inner ++ [t.file]

theorem depth_eq_of_tail {t u : ScopeChain} (h : t.frames.tail = u.frames.tail) :
    t.depth = u.depth := by
  have hlength := congrArg List.length h
  simpa [frames, depth] using hlength

end ScopeChain

/-! ## What resolving tells -/

namespace Event

/-- Something that is told while types are resolved. -/
def Resolving : Event → Prop
  | .tagDeclared _ | .tagDefined _ | .resolved _ _ | .reported _ => True
  | _ => False

/-- The event opens or closes a scope. -/
def isMark : Event → Bool
  | .entered _ | .exited _ => true
  | _ => false

/-- What some events tell of scopes. -/
def marks (events : List Event) : List Event := events.filter isMark

@[simp] theorem marks_nil : marks [] = [] := rfl

@[simp] theorem marks_append (es fs : List Event) : marks (es ++ fs) = marks es ++ marks fs :=
  List.filter_append es fs

theorem marks_cons (e : Event) (es : List Event) :
    marks (e :: es) = if e.isMark then e :: marks es else marks es := List.filter_cons

theorem marks_of_resolving {events : List Event} (h : ∀ e ∈ events, e.Resolving) :
    marks events = [] := by
  unfold marks
  rw [List.filter_eq_nil_iff]
  intro e he
  have hres := h e he
  cases e <;> simp_all [Resolving, isMark]

end Event

namespace Check

/-- The step tells resolving events only. -/
def Tells (m : Check α) : Prop := ∀ s, ∀ e ∈ (m s).events, e.Resolving

namespace Tells

variable {m : Check α} {f : α → Check β}

protected theorem pure (a : α) : Tells (pure a) := by
  intro s e he
  cases he

protected theorem bind (hm : Tells m) (hf : ∀ a, Tells (f a)) : Tells (m >>= f) := by
  intro s e he
  rcases List.mem_append.1 he with he | he
  · exact hm s e he
  · exact hf _ _ e he

theorem state : Tells state := by
  intro s e he
  cases he

theorem update (g : State → State) : Tells (update g) := by
  intro s e he
  cases he

theorem tell {e : Event} (h : e.Resolving) : Tells (tell e) := by
  intro s e' he
  rw [List.mem_singleton.1 he]
  exact h

theorem report (kind : SemanticError.Kind) (id : Ident) : Tells (report kind id) := tell trivial

end Tells

theorem mentionTag_tells (tag : String) : Tells (mentionTag tag) := by
  intro s e he
  rw [mentionTag_apply] at he
  split at he
  · cases he
  · rw [List.mem_singleton.1 he]
    trivial

theorem defineTag_tells (tag : String) : Tells (defineTag tag) := by
  intro s e he
  rw [defineTag_apply] at he
  split at he
  · rw [List.mem_singleton.1 he]
    trivial
  · cases he

theorem arrayOf_tells (id : Ident) (elem : Ty) (size : Bound) : Tells (arrayOf id elem size) := by
  unfold arrayOf
  by_cases h : Bound.number size.text ≤ 0
  · simp only [h, ↓reduceIte]
    exact (Tells.report _ id).bind fun _ => .pure _
  · simp only [h, ↓reduceIte]
    exact .pure _

theorem checkParams_tells (params : List TypedIdent) : Tells (checkParams params) := by
  unfold checkParams
  split
  · exact .report _ _
  · exact .pure _

end Check

open Check (Tells)

theorem Declarator.typeOver_tells (id : Ident) (base : Ty) (d : Declarator) :
    Tells (d.typeOver id base) := by
  fun_induction Declarator.typeOver id base d with
  | case1 => exact .pure _
  | case2 inner _ ih => exact ih
  | case3 elem size _ _ ih => exact ih.bind fun _ => Check.arrayOf_tells id _ size
  | case4 inner _ _ ih => exact ih.bind fun _ => .pure _
  | case5 _ _ _ size _ => exact (Check.arrayOf_tells id _ size).bind fun _ => .pure _
  | case6 inner size _ _ ih => exact ih.bind fun _ => Check.arrayOf_tells id _ size

theorem Declarator.resolve_tells (base : Ty) (d : Declarator) : Tells (d.resolve base) :=
  (d.typeOver_tells d.core base).bind fun _ => Tells.bind (.tell trivial) fun _ => .pure _

mutual

theorem Specifier.resolve_tells : (spec : Specifier) → Tells spec.resolve
  | .int _ | .char _ => .pure _
  | .structRef tag _ => Check.mentionTag_tells tag.name
  | .structDef tag members _ => by
    rw [Specifier.resolve]
    apply (Check.mentionTag_tells tag.name).bind
    intro ty
    apply (Check.defineTag_tells tag.name).bind
    intro new
    split
    · apply (resolveMembers_tells [] members).bind
      intro fields
      exact (Tells.update _).bind fun _ => .pure _
    · exact (Tells.report _ tag).bind fun _ => .pure _

theorem Decl.resolve_tells : (d : Decl) → Tells d.resolve
  | ⟨specifier, declarator, _⟩ => by
    rw [Decl.resolve]
    exact specifier.resolve_tells.bind fun base => declarator.resolve_tells base

theorem resolveMembers_tells (fields : List Field) :
    (members : List Decl) → Tells (resolveMembers fields members)
  | [] => .pure _
  | member :: more => by
    rw [resolveMembers]
    apply member.resolve_tells.bind
    intro d
    split
    · exact (Tells.report _ _).bind fun _ => resolveMembers_tells fields more
    · apply Tells.state.bind
      intro s
      split
      · exact (Tells.report _ _).bind fun _ => resolveMembers_tells _ more
      · exact resolveMembers_tells _ more

end

theorem resolveDecls_tells (ds : List Decl) : Tells (resolveDecls ds) := by
  induction ds with
  | nil => exact .pure _
  | cons d ds ih => exact d.resolve_tells.bind fun _ => ih.bind fun _ => .pure _

theorem Signature.resolve_tells (sig : Signature) : Tells sig.resolve :=
  sig.ret.resolve_tells.bind fun _ => (resolveDecls_tells sig.params).bind fun _ => .pure _

/-! ## Steps in the current scope -/

/-- The outcome of a step from `s` that adds names to the current scope and leaves the scopes below
it alone. What it tells of scopes is `marks`. -/
structure Outcome.Confined (r : Outcome Unit) (s : State) (marks : List Event) : Prop where
  below : r.state.scopes.frames.tail = s.scopes.frames.tail
  current : s.scopes.current.Grows r.state.scopes.current
  marks : Event.marks r.events = marks

/-- A step that changes no scope. -/
theorem Outcome.Confined.of_scopes {r : Outcome Unit} {s : State} {marks : List Event}
    (hscopes : r.state.scopes = s.scopes) (hmarks : Event.marks r.events = marks) :
    r.Confined s marks := by
  refine ⟨by rw [hscopes], ?_, hmarks⟩
  rw [hscopes]
  exact .refl _

namespace Check

/-- The outcome from every state, where `marks` are told of scopes from the depth of the state. -/
def Confines (m : Check Unit) (marks : Nat → List Event) : Prop :=
  ∀ s : State, (m s).Confined s (marks s.scopes.depth)

namespace Confines

variable {m n : Check Unit} {f g : Nat → List Event}

protected theorem pure : Confines (pure ()) (fun _ => []) := by
  intro s
  exact .of_scopes rfl rfl

protected theorem bind (hm : Confines m f) (hn : Confines n g) :
    Confines (do m; n) (fun d => f d ++ g d) := by
  intro s
  have h := hm s
  have h' := hn (m s).state
  have hdepth := ScopeChain.depth_eq_of_tail h.below
  refine ⟨h'.below.trans h.below, h.current.trans h'.current, ?_⟩
  rw [bind_apply, Event.marks_append, h.marks, h'.marks, hdepth]

/-- A resolution and then a step that may use its value. -/
theorem resolve_bind {r : Check α} {k : α → Check Unit} {a : α}
    {after : List String → List String} (hr : ∀ known, Resolves r known (after known) (· = a))
    (ht : Tells r) (hk : Confines (k a) f) : Confines (r >>= k) f := by
  intro s
  obtain ⟨known, hs⟩ := s.structs.exists_knows
  have h := hr known s hs
  have h' := hk (r s).state
  rw [bind_apply, h.value]
  refine ⟨?_, ?_, ?_⟩
  · rw [h'.below, h.scopes]
  · have hcurrent := h'.current
    rw [h.scopes] at hcurrent
    exact hcurrent
  · rw [Event.marks_append, Event.marks_of_resolving (ht s), List.nil_append, h'.marks, h.scopes]

theorem of_looked {ids : List Ident} (h : ∀ s, m s = s.looked ids) :
    Confines m (fun _ => []) := by
  intro s
  rw [h s]
  refine .of_scopes rfl (Event.marks_of_resolving ?_)
  intro e he
  obtain ⟨error, -, rfl⟩ := List.mem_map.1 he
  trivial

/-- Names that are looked at before a step do not matter to it. -/
theorem looked_bind {ids : List Ident} (h : ∀ s, m s = s.looked ids) (hn : Confines n g) :
    Confines (do m; n) g := (of_looked h).bind hn

end Confines

/-- A variable that is bound in the current scope had no binding there before. -/
theorem bindVariable_confines (id : Ident) (ty : Ty) :
    Confines (bindVariable id ty) (fun _ => []) := by
  intro s
  rcases hin : s.scopes.inner with _ | ⟨here, outer⟩
  · rw [bindVariable_apply_file hin]
    split
    · exact .of_scopes rfl rfl
    · cases hget : s.scopes.file.get? id.name with
      | none =>
        have hcurrent : s.scopes.current = s.scopes.file := by simp [ScopeChain.current, hin]
        rw [bindGlobal_of_none hget]
        refine ⟨by simp [ScopeChain.frames, ScopeChain.bindFile, hin], ?_, rfl⟩
        rw [hcurrent]
        simp only [ScopeChain.current, ScopeChain.bindFile, hin, List.headD_nil]
        exact .bind hget
      | some x =>
        obtain ⟨kind, hclash⟩ := bindGlobal_of_some hget ty
        rw [hclash]
        exact .of_scopes rfl rfl
  · rw [bindVariable_apply_inner hin]
    split
    · exact .of_scopes rfl rfl
    · split
      · exact .of_scopes rfl rfl
      · rename_i hfree
        have hnone : here.get? id.name = none := by simpa using hfree
        refine ⟨by simp [ScopeChain.frames, hin], ?_, rfl⟩
        simp only [ScopeChain.current, hin, List.headD_cons]
        exact .bind hnone

theorem bindParams_confines (params : List TypedIdent) :
    Confines (bindParams params) (fun _ => []) := by
  induction params with
  | nil => exact .pure
  | cons p params ih => exact (bindVariable_confines p.ident p.ty).bind ih

end Check

open Check (Confines)

/-! ## Statements -/

mutual

/-- What a statement that stands `depth` scopes deep tells of the scopes it opens and closes. -/
def Stmt.marks (depth : Nat) : Stmt → List Event
  | .block stmts _ => .entered (depth + 1) :: (stmtMarks (depth + 1) stmts ++ [.exited depth])
  | .ifThen _ yes _ => yes.marks depth
  | .ifElse _ yes no _ => yes.marks depth ++ no.marks depth
  | .loop _ body _ => body.marks depth
  | .varDecl _ _ _ | .expr _ | .ret _ _ | .brk _ | .cont _ | .empty _ => []

def stmtMarks (depth : Nat) : List Stmt → List Event
  | [] => []
  | stmt :: more => stmt.marks depth ++ stmtMarks depth more

end

/-- A block does to the scopes nothing at all. -/
theorem Stmt.check_block (stmts : List Stmt) (span : Span) (s : State) :
    (Stmt.block stmts span).check s =
      let r := checkStmts stmts { s with scopes := s.scopes.push }
      ⟨(), { r.state with scopes := s.scopes },
        .entered (s.scopes.depth + 1) :: (r.events ++ [.exited s.scopes.depth])⟩ := by
  obtain ⟨known, hs⟩ := s.structs.exists_knows
  apply Check.scoped_apply rfl
  exact checkStmts_walks known stmts _ hs (by simp [ScopeChain.push])

mutual

theorem Stmt.check_confines : (stmt : Stmt) → Confines stmt.check stmt.marks
  | .block stmts span => by
    intro s
    have h := checkStmts_confines stmts { s with scopes := s.scopes.push }
    rw [Stmt.check_block]
    refine .of_scopes rfl ?_
    simp only [Event.marks_cons, Event.isMark, Event.marks_append, h.marks, ScopeChain.depth_push,
      Event.marks_nil, if_true, Stmt.marks]
  | .varDecl decl init _ =>
    .resolve_bind decl.resolve_resolves decl.resolve_tells
      ((Check.bindVariable_confines _ _).bind (.of_looked fun s => checkOption_apply s init))
  | .expr value => .of_looked fun s => value.check_apply s
  | .ret value _ => .of_looked fun s => checkOption_apply s value
  | .ifThen cond yes _ => .looked_bind (fun s => cond.check_apply s) yes.check_confines
  | .ifElse cond yes no _ =>
    .looked_bind (fun s => cond.check_apply s) (yes.check_confines.bind no.check_confines)
  | .loop cond body _ => .looked_bind (fun s => cond.check_apply s) body.check_confines
  | .brk _ | .cont _ | .empty _ => .pure

theorem checkStmts_confines :
    (stmts : List Stmt) → Confines (checkStmts stmts) (fun d => stmtMarks d stmts)
  | [] => .pure
  | stmt :: more => stmt.check_confines.bind (checkStmts_confines more)

end

/-! ## Programs -/

/-- What an item tells of scopes: those of a function body. -/
def Item.marks : Item → List Event
  | .function _ body => .entered 1 :: (stmtMarks 1 body.stmts ++ [.exited 0])
  | .prototype _ | .global _ | .tagOnly _ => []

def Program.marks (p : Program) : List Event := p.items.flatMap Item.marks

theorem marks_checkBody (params : List TypedIdent) (body : Block) (s : State) :
    Event.marks (checkBody params body s).events =
      .entered (s.scopes.depth + 1) ::
        (stmtMarks (s.scopes.depth + 1) body.stmts ++ [.exited s.scopes.depth]) := by
  obtain ⟨known, hs⟩ := s.structs.exists_knows
  have h := (Check.bindParams_confines params).bind (checkStmts_confines body.stmts)
    { s with scopes := s.scopes.push }
  rw [checkBody_apply params body hs]
  simp only [Event.marks_cons, Event.isMark, Event.marks_append, h.marks, ScopeChain.depth_push,
    Event.marks_nil, if_true, List.nil_append]

/-- Parameters and body of a function change no more than the struct tags. -/
theorem state_checkBody (params : List TypedIdent) (body : Block) (s : State) :
    (checkBody params body s).state =
      { s with structs := (checkBody params body s).state.structs } := by
  obtain ⟨known, hs⟩ := s.structs.exists_knows
  rw [checkBody_apply params body hs]
  exact Check.framed_of_walked (checkBody_walked params body hs)

namespace Item

theorem marks_checkHeader (item : Item) (s : State) :
    Event.marks (item.checkHeader s).events = [] := by
  apply Event.marks_of_resolving
  revert s
  cases item with
  | function sig _ => exact sig.resolve_tells.bind fun _ => .pure _
  | prototype sig => exact sig.resolve_tells.bind fun _ => Check.checkParams_tells _
  | global decl => exact decl.resolve_tells.bind fun _ => .pure _
  | tagOnly specifier => exact specifier.resolve_tells.bind fun _ => .pure _

theorem marks_bindName (item : Item) (s : State) : Event.marks (item.bindName s).events = [] := by
  cases item with
  | function sig _ | prototype sig =>
    rw [bindName, Check.bindFunction_apply]
    split <;> rfl
  | global decl => exact (Check.bindVariable_confines decl.core decl.ty s).marks
  | tagOnly _ => rfl

theorem marks_check (before : List Item) (item : Item) :
    Event.marks (item.check (stateAfter before)).events = item.marks := by
  have hinner := (item.checked_stateAfter before).named_inner
  rw [check_eq, Check.bind_apply, Check.bind_apply, Event.marks_append, Event.marks_append,
    marks_checkHeader, marks_bindName, List.nil_append, List.nil_append]
  change Event.marks (item.walkBody (item.namedState (stateAfter before))).events = item.marks
  cases item with
  | function sig body =>
    rw [walkBody, marks_checkBody, ScopeChain.depth, hinner]
    rfl
  | prototype _ | global _ | tagOnly _ => rfl

end Item

theorem marks_checkItems (items : List Item) :
    Event.marks (checkItems items .initial).events = items.flatMap Item.marks := by
  induction items using List.reverseRecOn with
  | nil => rfl
  | append_singleton before item ih =>
    rw [checkItems_append, Check.bind_apply, Event.marks_append, ih, List.flatMap_append,
      List.flatMap_singleton, ← item.marks_check before]
    simp only [checkItems, Check.bind_apply, Check.pure_apply, List.append_nil]
    rfl

theorem Program.marks_run (p : Program) : Event.marks p.run.events = p.marks := by
  have hsettled : Event.marks (settlePending (stateAfter p.items)).events = [] := by
    rw [settlePending_apply, Event.marks, List.filter_eq_nil_iff]
    intro e he
    obtain ⟨d, -, rfl⟩ := List.mem_map.1 he
    unfold State.settled
    split <;> simp [Event.isMark]
  change Event.marks ((checkItems p.items .initial).events ++
    (settlePending (stateAfter p.items)).events) = p.marks
  rw [Event.marks_append, marks_checkItems, hsettled, List.append_nil, Program.marks]

/-! ## Brackets -/

/-- Every scope that is opened is closed, and the events say how many scopes are open after them if
`depth` are open at the start. -/
inductive Event.Bracketed : Nat → List Event → Prop
  | nil (depth : Nat) : Bracketed depth []
  | scope {depth : Nat} {inside after : List Event} :
    Bracketed (depth + 1) inside → Bracketed depth after →
      Bracketed depth (.entered (depth + 1) :: (inside ++ .exited depth :: after))

namespace Event.Bracketed

theorem append {depth : Nat} {es fs : List Event} (h : Bracketed depth es)
    (h' : Bracketed depth fs) : Bracketed depth (es ++ fs) := by
  induction h with
  | nil => exact h'
  | scope hinside _ _ ih =>
    rw [List.cons_append, List.append_assoc, List.cons_append]
    exact .scope hinside (ih h')

theorem one {depth : Nat} {inside : List Event} (h : Bracketed (depth + 1) inside) :
    Bracketed depth (.entered (depth + 1) :: (inside ++ [.exited depth])) :=
  .scope h (.nil depth)

end Event.Bracketed

mutual

theorem Stmt.bracketed_marks (depth : Nat) :
    (stmt : Stmt) → Event.Bracketed depth (stmt.marks depth)
  | .block stmts _ => .one (bracketed_stmtMarks (depth + 1) stmts)
  | .ifThen _ yes _ => yes.bracketed_marks depth
  | .ifElse _ yes no _ => (yes.bracketed_marks depth).append (no.bracketed_marks depth)
  | .loop _ body _ => body.bracketed_marks depth
  | .varDecl _ _ _ | .expr _ | .ret _ _ | .brk _ | .cont _ | .empty _ => .nil depth

theorem bracketed_stmtMarks (depth : Nat) :
    (stmts : List Stmt) → Event.Bracketed depth (stmtMarks depth stmts)
  | [] => .nil depth
  | stmt :: more => (stmt.bracketed_marks depth).append (bracketed_stmtMarks depth more)

end

theorem Program.bracketed_marks (p : Program) : Event.Bracketed 0 p.marks := by
  unfold Program.marks
  induction p.items with
  | nil => exact .nil 0
  | cons item items ih =>
    rw [List.flatMap_cons]
    refine Event.Bracketed.append ?_ ih
    cases item with
    | function _ body => exact .one (bracketed_stmtMarks 1 body.stmts)
    | prototype _ | global _ | tagOnly _ => exact .nil 0

/-- **Walking a body frames the outer state.** From every state, a block leaves all scopes as they
were. A statement leaves the scopes below the current one as they were and adds names to the current
one, none of which was bound there. The parameters and the body of a function change nothing but the
struct tags: not the file scope, not the order of its names, not the globals that wait. So in the
trace of a program the scopes are those of its functions and blocks, each opened and closed at the
depth at which it stands, and the walk ends at file scope. -/
theorem bodies_frame_outer_state :
    (∀ (s : State) (stmts : List Stmt) (span : Span),
      ((Stmt.block stmts span).check s).state.scopes = s.scopes) ∧
    (∀ (s : State) (stmt : Stmt),
      (stmt.check s).state.scopes.frames.tail = s.scopes.frames.tail ∧
      s.scopes.current.Grows (stmt.check s).state.scopes.current) ∧
    (∀ (s : State) (params : List TypedIdent) (body : Block),
      (checkBody params body s).state =
        { s with structs := (checkBody params body s).state.structs }) ∧
    ∀ p : Program,
      Event.marks p.run.events = p.marks ∧ Event.Bracketed 0 (Event.marks p.run.events) ∧
      (checkItems p.items .initial).state.scopes.atFile = true := by
  refine ⟨?_, ?_, ?_, ?_⟩
  · intro s stmts span
    rw [Stmt.check_block]
  · intro s stmt
    have h := stmt.check_confines s
    exact ⟨h.below, h.current⟩
  · intro s params body
    exact state_checkBody params body s
  · intro p
    have hmarks := p.marks_run
    refine ⟨hmarks, hmarks ▸ p.bracketed_marks, ?_⟩
    exact List.isEmpty_iff.2 (inner_stateAfter p.items)

end MiniC
