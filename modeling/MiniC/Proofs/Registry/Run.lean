import MiniC.Proofs.Increment
import MiniC.Proofs.Registry.Resolving

/-!
# The registry at the end of a run

`Check.Declares` follows a step of the walk with the specifiers that stand in it, in order, and the
names that it declares. Binding a name leaves the struct tags alone and reports that name at most
once. So the registry of a run and what is reported on it depend on the specifiers alone, wherever
they stand.
-/

namespace MiniC

open Check (Registers)

/-! ## Whole walks -/

/-- A step with the specifiers `specs` that may report the names of `bound` as redefinitions. -/
def Check.Declares (m : Check α) (specs : List Specifier) (bound : List Ident) : Prop :=
  ∀ before, Registers m [] before (before ++ walkedFrom before specs)
    (.ofMentions before (walkedFrom before specs) bound)

namespace Check.Declares

variable {m : Check α} {f : α → Check β} {specs more : List Specifier} {bound names : List Ident}

/-- A step that has no specifiers. -/
theorem of_registers (h : ∀ before, Registers m [] before before ⟨[], bound, []⟩) :
    Declares m [] bound := by
  intro before
  rw [walkedFrom, List.append_nil]
  exact h before

protected theorem pure {x : α} : Declares (pure x) [] [] := of_registers fun _ => .pure

theorem of_looked {m : Check Unit} {ids : List Ident} (h : ∀ s, m s = s.looked ids) :
    Declares m [] [] :=
  of_registers fun _ => .of_looked h

protected theorem bind (hm : Declares m specs bound) (hf : ∀ x, Declares (f x) more names) :
    Declares (m >>= f) (specs ++ more) (bound ++ names) := by
  intro before
  rw [walkedFrom_append, ← List.append_assoc, Account.ofMentions_append]
  exact (hm before).bind fun x => hf x _

/-- A step and then one that has no specifiers. -/
theorem bind_names (hm : Declares m specs bound) (hf : ∀ x, Declares (f x) [] names) :
    Declares (m >>= f) specs (bound ++ names) := by
  have h := hm.bind hf
  rwa [List.append_nil] at h

theorem bind_quiet (hm : Declares m specs bound) (hf : ∀ x, Declares (f x) [] []) :
    Declares (m >>= f) specs bound := by
  have h := hm.bind_names hf
  rwa [List.append_nil] at h

theorem mono (h : Declares m specs bound) (hsub : bound.Sublist names) : Declares m specs names :=
  fun before => (h before).weaken (.refl _) hsub (List.Subset.refl _)

end Check.Declares

open Check (Declares)

theorem Specifier.resolve_declares (spec : Specifier) : Declares spec.resolve [spec] [] := by
  intro before
  rw [walkedFrom, walkedFrom, List.append_nil]
  exact spec.resolve_registers [] before

theorem Decl.resolve_declares (d : Decl) : Declares d.resolve [d.specifier] [] := by
  intro before
  rw [walkedFrom, walkedFrom, List.append_nil, ← d.walked_eq]
  exact d.resolve_registers [] before

theorem resolveDecls_declares (ds : List Decl) :
    Declares (resolveDecls ds) (ds.map (·.specifier)) [] := by
  induction ds with
  | nil => exact .pure
  | cons d ds ih => exact d.resolve_declares.bind fun _ => ih.bind_quiet fun _ => .pure

theorem Signature.resolve_declares (sig : Signature) : Declares sig.resolve sig.specifiers [] :=
  sig.ret.resolve_declares.bind fun _ =>
    (resolveDecls_declares sig.params).bind_quiet fun _ => .pure

/-! ## Binding names -/

/-- The outcome of a step from `s` that binds a name or reports it. -/
structure Outcome.Binds (r : Outcome Unit) (s : State) (id : Ident) : Prop where
  structs : r.state.structs = s.structs
  errors : Event.errors r.events = [] ∨ ∃ kind, Event.errors r.events = [.atIdent kind id]

namespace Check

theorem Declares.of_binds {m : Check Unit} {id : Ident} (h : ∀ s, (m s).Binds s id) :
    Declares m [] [id] := by
  refine .of_registers fun before => .of_structs (fun s => (h s).structs) fun s => ?_
  rcases (h s).errors with hnone | ⟨kind, hone⟩
  · exact ⟨[], List.nil_sublist _, by rw [hnone]; rfl⟩
  · rw [hone]
    by_cases hkind : kind = .redefinition
    · exact ⟨[id], .refl _, by simp [SemanticError.atIdent, hkind]⟩
    · exact ⟨[], List.nil_sublist _, by simp [SemanticError.atIdent, hkind]⟩

variable (id : Ident) (ty : Ty)

theorem bindLocal_binds (s : State) : (bindLocal id ty s).Binds s id := by
  rw [bindLocal_apply]
  split
  · exact ⟨rfl, .inr ⟨_, rfl⟩⟩
  · exact ⟨rfl, .inl rfl⟩

theorem bindGlobal_binds (s : State) : (bindGlobal id ty s).Binds s id := by
  rw [bindGlobal_apply]
  split
  · exact ⟨rfl, .inr ⟨_, rfl⟩⟩
  · exact ⟨rfl, .inl rfl⟩

theorem bindVariable_binds (s : State) : (bindVariable id ty s).Binds s id := by
  rw [bindVariable_apply]
  split
  · exact ⟨rfl, .inr ⟨_, rfl⟩⟩
  · split
    · exact bindGlobal_binds id ty s
    · exact bindLocal_binds id ty s

theorem bindFunction_binds (hasBody : Bool) (s : State) :
    (bindFunction id ty hasBody s).Binds s id := by
  rw [bindFunction_apply]
  split
  · exact ⟨rfl, .inl rfl⟩
  · exact ⟨rfl, .inl rfl⟩
  · exact ⟨rfl, .inr ⟨_, rfl⟩⟩

theorem bindParams_declares (params : List TypedIdent) :
    Declares (bindParams params) [] (params.map (·.ident)) := by
  induction params with
  | nil => exact .pure
  | cons p params ih => exact (Declares.of_binds (bindVariable_binds p.ident p.ty)).bind fun _ => ih

theorem checkParams_declares (params : List TypedIdent) :
    Declares (checkParams params) [] (params.map (·.ident)) := by
  unfold checkParams
  split
  · rename_i id hid
    have h : Declares (report .redefinition id) [] [id] :=
      .of_binds fun _ => ⟨rfl, .inr ⟨_, rfl⟩⟩
    exact h.mono (List.singleton_sublist.2 (firstRepeated?_mem hid))
  · exact Declares.pure.mono (List.nil_sublist _)

theorem scoped_declares {m : Check Unit} {specs : List Specifier} {bound : List Ident}
    (h : Declares m specs bound) : Declares (do openScope; m; closeScope) specs bound := by
  have hopen : Declares openScope [] [] := by
    refine Declares.bind_quiet (.of_registers fun _ => .update fun _ => rfl) fun _ => ?_
    refine Declares.bind_quiet (.of_registers fun _ => .state) fun s => ?_
    exact .of_registers fun _ => .tell rfl
  have hclose : Declares closeScope [] [] := by
    refine Declares.bind_quiet (.of_registers fun _ => .state) fun s => ?_
    split
    · refine Declares.bind_quiet (.of_registers fun _ => .update fun _ => rfl) fun _ => ?_
      exact .of_registers fun _ => .tell rfl
    · exact .pure
  exact hopen.bind fun _ => h.bind_quiet fun _ => hclose

end Check

/-! ## Statements and items -/

mutual

/-- The names that a statement declares, in order. -/
def Stmt.declared : Stmt → List Ident
  | .block stmts _ => stmtsDeclared stmts
  | .varDecl decl _ _ => [decl.core]
  | .ifThen _ yes _ => yes.declared
  | .ifElse _ yes no _ => yes.declared ++ no.declared
  | .loop _ body _ => body.declared
  | .expr _ | .ret _ _ | .brk _ | .cont _ | .empty _ => []

def stmtsDeclared : List Stmt → List Ident
  | [] => []
  | stmt :: more => stmt.declared ++ stmtsDeclared more

end

mutual

theorem Stmt.check_declares : (stmt : Stmt) → Declares stmt.check stmt.specifiers stmt.declared
  | .block stmts _ => Check.scoped_declares (checkStmts_declares stmts)
  | .varDecl decl init _ => by
    rw [Stmt.check, Check.bind_eq_of_value decl.value_resolve]
    refine decl.resolve_declares.bind fun _ => ?_
    exact (Declares.of_binds (Check.bindVariable_binds _ _)).bind fun _ =>
      .of_looked fun s => checkOption_apply s init
  | .expr value => .of_looked fun s => value.check_apply s
  | .ret value _ => .of_looked fun s => checkOption_apply s value
  | .ifThen cond yes _ =>
    (Declares.of_looked fun s => cond.check_apply s).bind fun _ => yes.check_declares
  | .ifElse cond yes no _ =>
    (Declares.of_looked fun s => cond.check_apply s).bind fun _ =>
      yes.check_declares.bind fun _ => no.check_declares
  | .loop cond body _ =>
    (Declares.of_looked fun s => cond.check_apply s).bind fun _ => body.check_declares
  | .brk _ | .cont _ | .empty _ => .pure

theorem checkStmts_declares :
    (stmts : List Stmt) → Declares (checkStmts stmts) (stmtSpecifiers stmts) (stmtsDeclared stmts)
  | [] => .pure
  | stmt :: more => stmt.check_declares.bind fun _ => checkStmts_declares more

end

namespace Item

/-- The names that are compared in the header of an item: the parameters, if no body binds them. -/
def headerDeclared : Item → List Ident
  | .prototype sig => sig.params.map Decl.core
  | .function _ _ | .global _ | .tagOnly _ => []

/-- The name that an item declares at file scope. -/
def nameDeclared : Item → List Ident
  | .function sig _ | .prototype sig => [sig.name]
  | .global decl => [decl.core]
  | .tagOnly _ => []

/-- The names that the body of an item declares, with the parameters. -/
def bodyDeclared : Item → List Ident
  | .function sig body => sig.params.map Decl.core ++ stmtsDeclared body.stmts
  | .prototype _ | .global _ | .tagOnly _ => []

/-- The names that an item declares: variables, functions and parameters. -/
def declared (item : Item) : List Ident :=
  item.headerDeclared ++ (item.nameDeclared ++ item.bodyDeclared)

theorem checkHeader_declares (item : Item) :
    Declares item.checkHeader item.headerSpecifiers item.headerDeclared := by
  cases item with
  | function sig _ => exact sig.resolve_declares.bind_quiet fun _ => .pure
  | prototype sig =>
    have h := Check.checkParams_declares (sig.params.map Decl.typed)
    rw [List.map_map] at h
    exact sig.resolve_declares.bind_names fun _ => h
  | global decl => exact decl.resolve_declares.bind_quiet fun _ => .pure
  | tagOnly specifier => exact specifier.resolve_declares.bind_quiet fun _ => .pure

theorem bindName_declares (item : Item) : Declares item.bindName [] item.nameDeclared := by
  cases item with
  | function sig _ => exact .of_binds (Check.bindFunction_binds sig.name sig.ty true)
  | prototype sig => exact .of_binds (Check.bindFunction_binds sig.name sig.ty false)
  | global decl => exact .of_binds (Check.bindVariable_binds decl.core decl.ty)
  | tagOnly _ => exact .pure

theorem walkBody_declares (item : Item) :
    Declares item.walkBody item.bodySpecifiers item.bodyDeclared := by
  cases item with
  | function sig body =>
    have h := Check.bindParams_declares (sig.params.map Decl.typed)
    rw [List.map_map] at h
    rw [walkBody, checkBody_eq]
    exact Check.scoped_declares (h.bind fun _ => checkStmts_declares body.stmts)
  | prototype _ | global _ | tagOnly _ => exact .pure

theorem check_declares (item : Item) : Declares item.check item.specifiers item.declared := by
  rw [check_eq]
  exact item.checkHeader_declares.bind fun _ => item.bindName_declares.bind fun _ =>
    item.walkBody_declares

end Item

theorem checkItems_declares (items : List Item) :
    Declares (checkItems items) (items.flatMap Item.specifiers) (items.flatMap Item.declared) := by
  induction items with
  | nil => exact .pure
  | cons item items ih => exact item.check_declares.bind fun _ => ih

/-! ## Whole programs -/

namespace Program

/-- The names that a program declares as variables, functions and parameters. -/
def declared (p : Program) : List Ident := p.items.flatMap Item.declared

/-- The redefinitions of tags and members, in the order of the specifiers they belong to. -/
def redefinitions (p : Program) : List Ident := gather Mention.redefined [] p.walked

theorem registered_run (p : Program) :
    p.run.result.structs.Holds [] p.walked ∧
      Account.Met (.ofMentions [] p.walked p.declared) p.run.result.structs p.run.errors := by
  have h := checkItems_declares p.items [] .initial .empty
  rw [structs_run, errors_run]
  refine ⟨h.table, ?_⟩
  -- the errors at the end are about variables of incomplete type, none is a redefinition
  have hnone : Account.empty.Met (stateAfter p.items).structs p.deferred := by
    refine ⟨⟨[], .slnil, ?_⟩, by simp [Account.empty]⟩
    rw [deferred_eq_waiting, List.filter_map]
    simp [Function.comp_def, Symbol.incompleteError, Account.empty]
  have hmet := h.met.append hnone fun _ hty => hty
  rwa [Account.append_empty] at hmet

end Program

/-- The members of a first definition are kept when it is walked. -/
theorem keptMembers_subset {before ws : List Mention} {tag : String} {members : List Decl}
    (hbefore : firstDefinition? before tag = none) (h : firstDefinition? ws tag = some members) :
    keptMembers [] members ⊆ gather Mention.kept before ws := by
  induction ws generalizing before with
  | nil => cases h
  | cons w ws ih =>
    rw [gather]
    rw [firstDefinition?, List.findSome?_cons] at h
    split at h
    · rename_i members' hw
      cases h
      split at hw
      · -- `w` is the first definition
        rename_i htag
        subst htag
        apply List.subset_append_of_subset_left
        simp [Mention.kept, hw, hbefore]
      · cases hw
    · rename_i hw
      apply List.subset_append_of_subset_right
      apply ih _ h
      rw [firstDefinition?_append, hbefore, Option.none_or, firstDefinition?, List.findSome?_cons,
        hw]
      rfl

/-- **The struct registry.** The entries of the registry are those of the walked specifiers: one for
each tag in the order of first mention, with the members of its first definition, each with the type
that it resolves to. The redefinitions that are reported are the definitions that come later and the
members that repeat a name, once each, and besides at most once each some of the names that are
declared as variables, functions and parameters. A member whose type is still incomplete at the end
is reported. -/
theorem run_registers_structs (p : Program) :
    p.run.result.structs.defs = ((p.walked.map (·.tag.name)).eraseDups).map (entry p.walked) ∧
    (∃ clashes : List Ident, clashes.Sublist p.declared ∧
      (p.run.errors.filter (·.kind = .redefinition)).Perm
        ((p.redefinitions ++ clashes).map (.atIdent .redefinition))) ∧
    (∀ tag members, firstDefinition? p.walked tag = some members →
      ∀ d ∈ keptMembers [] members, p.run.result.structs.isIncomplete d.ty = true →
        .atIdent .incompleteType d.core ∈ p.run.errors) ∧
    ∀ (d : Decl) (s : State), (d.resolve s).value = ⟨d.core, d.ty⟩ := by
  obtain ⟨htable, hmet⟩ := p.registered_run
  refine ⟨htable.defs, hmet.redefinitions, fun tag members hfirst d hd => ?_, Decl.value_resolve⟩
  exact hmet.incomplete d (keptMembers_subset rfl hfirst hd)

/-- The members of a struct `S` that define `S` once more, repeat a name, and have the type of a
struct that is never defined. -/
def nestedMembers : List Decl :=
  let place (n : Nat) : Span := ⟨n, n + 1, 1, n + 1⟩
  [⟨.structDef ⟨"S", place 1⟩ [] (place 1), .ident ⟨"x", place 2⟩, place 1⟩,
    ⟨.int (place 3), .ident ⟨"x", place 4⟩, place 3⟩,
    ⟨.structRef ⟨"T", place 5⟩ (place 5), .ident ⟨"y", place 6⟩, place 5⟩]

def nestedStruct : Program :=
  ⟨[.tagOnly (.structDef ⟨"S", ⟨0, 1, 1, 1⟩⟩ nestedMembers ⟨0, 1, 1, 1⟩)]⟩

theorem nestedStruct_registers :
    nestedStruct.run.result.structs.defs =
      [⟨"S", [⟨"x", .struct "S"⟩, ⟨"y", .struct "T"⟩], true⟩, ⟨"T", [], false⟩] ∧
    nestedStruct.redefinitions = [⟨"x", ⟨4, 5, 1, 5⟩⟩, ⟨"S", ⟨1, 2, 1, 2⟩⟩] ∧
    firstDefinition? nestedStruct.walked "S" = some nestedMembers ∧
    .atIdent .incompleteType ⟨"y", ⟨6, 7, 1, 7⟩⟩ ∈ nestedStruct.run.errors := by
  obtain ⟨hdefs, -, hincomplete, -⟩ := run_registers_structs nestedStruct
  have hmember : nestedMembers.get ⟨2, by decide⟩ ∈ keptMembers [] nestedMembers :=
    List.mem_cons_of_mem _ List.mem_cons_self
  exact ⟨hdefs.trans (by decide), by decide, rfl,
    hincomplete "S" nestedMembers rfl _ hmember (by decide)⟩

end MiniC
