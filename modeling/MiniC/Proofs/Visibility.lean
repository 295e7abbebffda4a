import Mathlib.Data.List.Forall2
import Mathlib.Data.List.Infix
import MiniC.Proofs.FileScope

/-!
# Names resolve lexically

The uses of names in a function are listed with what was walked before them (`Program.uses`), and a
use is bound if the file scope has its name or an accepted declaration of it precedes the use in a
scope around it (`Use.Bound`). Scopes are not stacked here. Each one has an address, the path of its
block through the statements, and a scope is around another if its address is an end of the other's.

`run_reports_unbound_uses` says that the analysis reports exactly the uses that are not bound. Two
invariants carry the walk: `Mirrors` relates each open scope to the declarations accepted at its
address, and `Placed` says that no address is used twice.
-/

namespace MiniC

/-! ## The walk through a function -/

/-- What stands at one place of the walk. -/
inductive Site where
  | specifier (spec : Specifier)
  | binding (decl : Decl)
  | use (id : Ident)

/-- A site and the address of its scope: the path of the block that opens the scope, from the inside
outwards. The scope of the function body has the empty address. -/
structure Step where
  scope : List Nat
  site : Site

/-- Sites in a row in one scope. -/
def stepsIn (scope : List Nat) (sites : List Site) : List Step := sites.map (⟨scope, ·⟩)

/-- The uses of some names in one scope. -/
def useSteps (scope : List Nat) (ids : List Ident) : List Step := stepsIn scope (ids.map .use)

mutual

/-- The steps of the statement at `path`, which stands in `scope`. Only a block opens a scope. -/
def Stmt.steps (scope path : List Nat) : Stmt → List Step
  | .block stmts _ => stmtSteps path path 0 stmts
  | .varDecl decl init _ =>
    ⟨scope, .specifier decl.specifier⟩ :: ⟨scope, .binding decl⟩ ::
      useSteps scope (optionNames init)
  | .expr value => useSteps scope value.names
  | .ret value _ => useSteps scope (optionNames value)
  | .ifThen cond yes _ => useSteps scope cond.names ++ yes.steps scope (0 :: path)
  | .ifElse cond yes no _ =>
    useSteps scope cond.names ++ (yes.steps scope (0 :: path) ++ no.steps scope (1 :: path))
  | .loop cond body _ => useSteps scope cond.names ++ body.steps scope (0 :: path)
  | .brk _ | .cont _ | .empty _ => []

/-- The steps of statements in a row, the first at place `i` under `path`. -/
def stmtSteps (scope path : List Nat) (i : Nat) : List Stmt → List Step
  | [] => []
  | stmt :: more => stmt.steps scope (i :: path) ++ stmtSteps scope path (i + 1) more

end

/-- The steps of a function: its header, its parameters, its statements. The parameters share the
scope of the body. -/
def functionSteps (sig : Signature) (body : Block) : List Step :=
  stepsIn [] (sig.specifiers.map .specifier) ++
    (stepsIn [] (sig.params.map .binding) ++ stmtSteps [] [] 0 body.stmts)

/-! ## Accepted declarations

Steps that have been walked are kept latest first. -/

/-- The tags that are complete after the steps `past` if those of `known` were before. -/
def stepTags (known : List String) : List Step → List String
  | [] => known
  | ⟨_, .specifier spec⟩ :: past => spec.completes (stepTags known past)
  | ⟨_, .binding _⟩ :: past | ⟨_, .use _⟩ :: past => stepTags known past

/-- A declaration of `x` has been accepted in the scope at `scope`. -/
def Declared (known : List String) : List Step → List Nat → String → Prop
  | [], _, _ => False
  | ⟨here, .binding decl⟩ :: past, scope, x =>
    Declared known past scope x ∨
      (here = scope ∧ decl.core.name = x ∧ decl.ty.Complete (stepTags known past) ∧
        ¬ Declared known past here decl.core.name)
  | ⟨_, .specifier _⟩ :: past, scope, x | ⟨_, .use _⟩ :: past, scope, x =>
    Declared known past scope x

/-- A declaration is accepted if its type is complete when it is bound and no declaration of its
name was accepted earlier in the same scope. -/
def Accepted (known : List String) (past : List Step) (scope : List Nat) (decl : Decl) : Prop :=
  decl.ty.Complete (stepTags known past) ∧ ¬ Declared known past scope decl.core.name

theorem declared_binding {known : List String} {past : List Step} {here scope : List Nat}
    {decl : Decl} {x : String} :
    Declared known (⟨here, .binding decl⟩ :: past) scope x ↔
      Declared known past scope x ∨
        (here = scope ∧ decl.core.name = x ∧ Accepted known past here decl) :=
  Iff.rfl

instance decidableDeclared (known : List String) :
    (past : List Step) → (scope : List Nat) → (x : String) → Decidable (Declared known past scope x)
  | [], _, _ => inferInstanceAs (Decidable False)
  | ⟨here, .binding decl⟩ :: past, scope, x =>
    have := decidableDeclared known past scope x
    have := decidableDeclared known past here decl.core.name
    inferInstanceAs (Decidable (_ ∨ (here = scope ∧ decl.core.name = x ∧
      decl.ty.Complete (stepTags known past) ∧ ¬ Declared known past here decl.core.name)))
  | ⟨_, .specifier _⟩ :: past, scope, x | ⟨_, .use _⟩ :: past, scope, x =>
    decidableDeclared known past scope x

theorem Declared.cons {known : List String} {past : List Step} {scope : List Nat} {x : String}
    (h : Declared known past scope x) (step : Step) : Declared known (step :: past) scope x := by
  obtain ⟨_, spec | decl | id⟩ := step
  · exact h
  · exact .inl h
  · exact h

/-- What has been declared is an accepted declaration among the steps. -/
theorem declared_iff {known : List String} {past : List Step} {scope : List Nat} {x : String} :
    Declared known past scope x ↔
      ∃ later decl earlier, past = later ++ ⟨scope, .binding decl⟩ :: earlier ∧
        decl.core.name = x ∧ Accepted known earlier scope decl := by
  induction past with
  | nil => simp [Declared]
  | cons step past ih =>
    constructor
    · intro h
      have hpast : Declared known past scope x → ∃ later decl earlier,
          step :: past = later ++ ⟨scope, .binding decl⟩ :: earlier ∧
            decl.core.name = x ∧ Accepted known earlier scope decl := by
        intro h
        obtain ⟨later, decl, earlier, rfl, hx, hacc⟩ := ih.1 h
        exact ⟨step :: later, decl, earlier, rfl, hx, hacc⟩
      obtain ⟨here, spec | decl | id⟩ := step
      · exact hpast h
      · rcases declared_binding.1 h with h | ⟨rfl, hx, hacc⟩
        · exact hpast h
        · exact ⟨[], decl, past, rfl, hx, hacc⟩
      · exact hpast h
    · rintro ⟨later, decl, earlier, heq, hx, hacc⟩
      cases later with
      | nil =>
        obtain ⟨rfl, rfl⟩ := List.cons.inj heq
        exact declared_binding.2 (.inr ⟨rfl, hx, hacc⟩)
      | cons first later =>
        obtain ⟨rfl, rfl⟩ := List.cons.inj heq
        exact (ih.2 ⟨later, decl, earlier, rfl, hx, hacc⟩).cons step

/-! ## Uses of names -/

/-- A name in an expression of a function body: the items before the function, its header, the steps
before the use, the scope of the use and the name. -/
structure Use where
  before : List Item
  sig : Signature
  past : List Step
  scope : List Nat
  id : Ident

/-- The uses among some steps of a function, after the steps `past`. -/
def usesFrom (before : List Item) (sig : Signature) (past : List Step) : List Step → List Use
  | [] => []
  | ⟨scope, .use id⟩ :: more =>
    ⟨before, sig, past, scope, id⟩ :: usesFrom before sig (⟨scope, .use id⟩ :: past) more
  | ⟨scope, .specifier spec⟩ :: more =>
    usesFrom before sig (⟨scope, .specifier spec⟩ :: past) more
  | ⟨scope, .binding decl⟩ :: more => usesFrom before sig (⟨scope, .binding decl⟩ :: past) more

/-- The uses in an item after the items `before`. -/
def Item.uses (before : List Item) : Item → List Use
  | .function sig body => usesFrom before sig [] (functionSteps sig body)
  | .prototype _ | .global _ | .tagOnly _ => []

def itemUses (before : List Item) : List Item → List Use
  | [] => []
  | item :: more => item.uses before ++ itemUses (before ++ [item]) more

/-- All names in the function bodies of a program, in the order of the walk. -/
def Program.uses (p : Program) : List Use := itemUses [] p.items

/-- The name is that of the function or of an item before it, or an accepted declaration of it
precedes the use in a scope around the use. -/
def Use.Bound (u : Use) : Prop :=
  u.id.name = u.sig.name.name ∨ u.id.name ∈ (occurrences u.before).map (·.id.name) ∨
    ∃ later scope decl earlier, u.past = later ++ ⟨scope, .binding decl⟩ :: earlier ∧
      decl.core.name = u.id.name ∧ Accepted (tagsAfter u.before) earlier scope decl ∧
      scope <:+ u.scope

theorem Use.bound_iff (u : Use) :
    u.Bound ↔ u.id.name = u.sig.name.name ∨ u.id.name ∈ (occurrences u.before).map (·.id.name) ∨
      ∃ scope ∈ u.scope.tails, Declared (tagsAfter u.before) u.past scope u.id.name := by
  refine or_congr_right (or_congr_right ?_)
  constructor
  · rintro ⟨later, scope, decl, earlier, heq, hx, hacc, hsuf⟩
    exact ⟨scope, (List.mem_tails _ _).2 hsuf, declared_iff.2 ⟨later, decl, earlier, heq, hx, hacc⟩⟩
  · rintro ⟨scope, hsuf, h⟩
    obtain ⟨later, decl, earlier, heq, hx, hacc⟩ := declared_iff.1 h
    exact ⟨later, scope, decl, earlier, heq, hx, hacc, (List.mem_tails _ _).1 hsuf⟩

instance : DecidablePred Use.Bound := fun u => decidable_of_iff _ u.bound_iff.symm

theorem usesFrom_append (before : List Item) (sig : Signature) (past steps more : List Step) :
    usesFrom before sig past (steps ++ more) =
      usesFrom before sig past steps ++ usesFrom before sig (steps.reverse ++ past) more := by
  induction steps generalizing past with
  | nil => rfl
  | cons step steps ih =>
    obtain ⟨_, spec | decl | id⟩ := step <;>
      simp only [List.cons_append, usesFrom, ih, List.reverse_cons, List.append_assoc,
        List.nil_append]

/-! ## Addresses -/

theorem scope_of_mem_stepsIn {scope : List Nat} {sites : List Site} {step : Step}
    (h : step ∈ stepsIn scope sites) : step.scope = scope := by
  obtain ⟨site, -, rfl⟩ := List.mem_map.1 h
  rfl

/-- The statement at `path` stands in the scope at `scope`, with the scopes of `outer` around it.
No step so far belongs to any other scope that encloses the statement or lies inside it. -/
structure Placed (past : List Step) (scope : List Nat) (outer : List (List Nat))
    (path : List Nat) : Prop where
  inside : scope <:+ path
  proper : scope.length < path.length
  nested : ∀ a ∈ outer, a <:+ scope ∧ a ≠ scope
  fresh : ∀ step ∈ past, step.scope <:+ path ∨ path <:+ step.scope → step.scope ∈ scope :: outer

namespace Placed

variable {past : List Step} {scope path : List Nat} {outer : List (List Nat)}

theorem suffix_of_mem (h : Placed past scope outer path) {a : List Nat}
    (ha : a ∈ scope :: outer) : a <:+ scope := by
  rcases List.mem_cons.1 ha with rfl | ha
  · exact List.suffix_refl a
  · exact (h.nested a ha).1

/-- A part of a statement that is no block of its own. -/
theorem child (h : Placed past scope outer path) (i : Nat) :
    Placed past scope outer (i :: path) := by
  refine ⟨h.inside.trans (List.suffix_cons i path), ?_, h.nested, fun step hstep hs => ?_⟩
  · exact Nat.lt_succ_of_lt h.proper
  · apply h.fresh step hstep
    rcases hs with hs | hs
    · rcases List.suffix_cons_iff.1 hs with heq | hs
      · exact .inr (heq ▸ List.suffix_cons i path)
      · exact .inl hs
    · exact .inr ((List.suffix_cons i path).trans hs)

/-- A statement of a block. -/
theorem enter (h : Placed past scope outer path) (i : Nat) :
    Placed past path (scope :: outer) (i :: path) := by
  refine ⟨List.suffix_cons i path, Nat.lt_succ_self _, fun a ha => ?_, fun step hstep hs => ?_⟩
  · have hsuf := h.suffix_of_mem ha
    refine ⟨hsuf.trans h.inside, fun heq => ?_⟩
    have hlen := hsuf.length_le
    have := h.proper
    rw [heq] at hlen
    omega
  · exact List.mem_cons_of_mem path ((h.child i).fresh step hstep hs)

/-- More steps that belong to the scope of the statement, or lie in a statement elsewhere. -/
theorem after (h : Placed past scope outer path) (steps : List Step)
    (hsteps : ∀ step ∈ steps, step.scope = scope ∨
      ¬ (step.scope <:+ path ∨ path <:+ step.scope)) :
    Placed (steps.reverse ++ past) scope outer path := by
  refine ⟨h.inside, h.proper, h.nested, fun step hstep hs => ?_⟩
  rcases List.mem_append.1 hstep with hstep | hstep
  · rcases hsteps step (List.mem_reverse.1 hstep) with heq | hno
    · exact heq ▸ List.mem_cons_self
    · exact absurd hs hno
  · exact h.fresh step hstep hs

/-- No step belongs to a block that has not been entered. -/
theorem not_declared (h : Placed past scope outer path) {known : List String} {x : String} :
    ¬ Declared known past path x := by
  intro hdecl
  obtain ⟨later, decl, earlier, rfl, -, -⟩ := declared_iff.1 hdecl
  have hmem := h.fresh ⟨path, .binding decl⟩ (by simp) (.inl (List.suffix_refl path))
  have hlen : path.length ≤ scope.length := (h.suffix_of_mem hmem).length_le
  have := h.proper
  omega

end Placed

/-- Two places in one row are apart. -/
theorem not_suffix_of_ne {i j : Nat} (hne : i ≠ j) {path scope : List Nat}
    (h : (i :: path) <:+ scope) : ¬ (scope <:+ (j :: path) ∨ (j :: path) <:+ scope) := by
  have hij : ¬ (i :: path) <:+ (j :: path) := by
    intro hs
    exact hne (List.cons.inj (hs.eq_of_length rfl)).1
  rintro (hs | hs)
  · exact hij (h.trans hs)
  · exact hij (List.suffix_of_suffix_length_le h hs (Nat.le_refl _))

mutual

/-- The steps of a statement belong to its scope or lie inside the statement. -/
theorem Stmt.scope_of_mem_steps {scope path : List Nat} {step : Step} :
    (stmt : Stmt) → step ∈ stmt.steps scope path → step.scope = scope ∨ path <:+ step.scope
  | .block stmts _, h => .inr (scope_of_mem_stmtSteps stmts h |>.elim
      (fun heq => heq ▸ List.suffix_refl _) (fun hs => hs))
  | .varDecl decl init _, h => by
    simp only [Stmt.steps, List.mem_cons] at h
    rcases h with rfl | rfl | h
    · exact .inl rfl
    · exact .inl rfl
    · exact .inl (scope_of_mem_stepsIn h)
  | .expr value, h => .inl (scope_of_mem_stepsIn h)
  | .ret value _, h => .inl (scope_of_mem_stepsIn h)
  | .ifThen cond yes _, h => by
    rcases List.mem_append.1 h with h | h
    · exact .inl (scope_of_mem_stepsIn h)
    · exact (yes.scope_of_mem_steps h).imp_right (List.suffix_cons 0 path).trans
  | .ifElse cond yes no _, h => by
    rcases List.mem_append.1 h with h | h
    · exact .inl (scope_of_mem_stepsIn h)
    · rcases List.mem_append.1 h with h | h
      · exact (yes.scope_of_mem_steps h).imp_right (List.suffix_cons 0 path).trans
      · exact (no.scope_of_mem_steps h).imp_right (List.suffix_cons 1 path).trans
  | .loop cond body _, h => by
    rcases List.mem_append.1 h with h | h
    · exact .inl (scope_of_mem_stepsIn h)
    · exact (body.scope_of_mem_steps h).imp_right (List.suffix_cons 0 path).trans
  | .brk _, h | .cont _, h | .empty _, h => by cases h

theorem scope_of_mem_stmtSteps {scope path : List Nat} {i : Nat} {step : Step} :
    (stmts : List Stmt) → step ∈ stmtSteps scope path i stmts →
      step.scope = scope ∨ path <:+ step.scope
  | [], h => by cases h
  | stmt :: more, h => by
    rcases List.mem_append.1 h with h | h
    · exact (stmt.scope_of_mem_steps h).imp_right (List.suffix_cons i path).trans
    · exact scope_of_mem_stmtSteps more h

end

/-! ## Open scopes -/

/-- The scope `frame` binds the names that have been declared at the address `scope`. -/
def Frame (known : List String) (past : List Step) (scope : List Nat) (frame : Scope) : Prop :=
  ∀ x, (frame.get? x).isSome = true ↔ Declared known past scope x

namespace Frame

variable {known : List String} {past : List Step} {scope here : List Nat} {frame : Scope}
  {decl : Decl}

theorem empty (h : ∀ x, ¬ Declared known past scope x) : Frame known past scope .empty :=
  fun x => ⟨fun hx => by simp [Scope.get?_empty] at hx, fun hx => absurd hx (h x)⟩

theorem accept (h : Frame known past scope frame) (hacc : Accepted known past scope decl)
    {ty : Ty} {span : Span} :
    Frame known (⟨scope, .binding decl⟩ :: past) scope
      (frame.bind (.ofVariable decl.core.name ty span)) := by
  intro x
  have hname : (Symbol.ofVariable decl.core.name ty span).name = decl.core.name := rfl
  rw [Scope.get?_bind, hname, declared_binding, ← h x]
  split
  · rename_i hx
    exact ⟨fun _ => .inr ⟨rfl, hx, hacc⟩, fun _ => rfl⟩
  · rename_i hx
    exact ⟨.inl, fun hor => hor.elim id fun hor => absurd hor.2.1 hx⟩

theorem reject (h : Frame known past scope frame) (hacc : ¬ Accepted known past here decl) :
    Frame known (⟨here, .binding decl⟩ :: past) scope frame := by
  intro x
  rw [h x, declared_binding]
  exact ⟨.inl, fun hx => hx.elim id fun hx => absurd hx.2.2 hacc⟩

theorem elsewhere (h : Frame known past scope frame) (hne : here ≠ scope) (decl : Decl) :
    Frame known (⟨here, .binding decl⟩ :: past) scope frame := by
  intro x
  rw [h x, declared_binding]
  exact ⟨.inl, fun hx => hx.elim id fun hx => absurd hx.1 hne⟩

end Frame

/-- The state knows the tags of the steps so far, and its open scopes, innermost first, bind what
has been declared at the addresses `scopes`. -/
structure Mirrors (known : List String) (file : Scope) (past : List Step)
    (scopes : List (List Nat)) (s : State) : Prop where
  knows : s.structs.Knows (stepTags known past)
  file : s.scopes.file = file
  frames : List.Forall₂ (Frame known past) scopes s.scopes.inner

theorem ScopeChain.isSome_find?_iff (t : ScopeChain) (x : String) :
    (t.find? x).isSome = true ↔
      (t.file.get? x).isSome = true ∨ ∃ frame ∈ t.inner, (frame.get? x).isSome = true := by
  rw [find?, List.findSome?_isSome_iff]
  simp only [List.mem_append, List.mem_singleton]
  constructor
  · rintro ⟨frame, hmem | rfl, h⟩
    · exact .inr ⟨frame, hmem, h⟩
    · exact .inl h
  · rintro (h | ⟨frame, hmem, h⟩)
    · exact ⟨t.file, .inr rfl, h⟩
    · exact ⟨frame, .inl hmem, h⟩

theorem exists_frame_iff {known : List String} {past : List Step} {scopes : List (List Nat)}
    {frames : List Scope} (h : List.Forall₂ (Frame known past) scopes frames) (x : String) :
    (∃ frame ∈ frames, (frame.get? x).isSome = true) ↔ ∃ a ∈ scopes, Declared known past a x := by
  induction h with
  | nil => simp
  | cons hframe _ ih => simp only [List.mem_cons, exists_eq_or_imp, hframe x, ih]

/-- A name is found if the file scope has it or it has been declared in a scope around the
statement. -/
theorem Mirrors.isSome_find?_iff {known : List String} {file : Scope} {past : List Step}
    {scope path : List Nat} {outer : List (List Nat)} {s : State}
    (hm : Mirrors known file past (scope :: outer) s) (hp : Placed past scope outer path)
    (x : String) :
    (s.scopes.find? x).isSome = true ↔
      (file.get? x).isSome = true ∨ ∃ a ∈ scope.tails, Declared known past a x := by
  rw [ScopeChain.isSome_find?_iff, hm.file, exists_frame_iff hm.frames]
  refine or_congr_right ⟨?_, ?_⟩
  · rintro ⟨a, ha, hdecl⟩
    exact ⟨a, (List.mem_tails _ _).2 (hp.suffix_of_mem ha), hdecl⟩
  · rintro ⟨a, ha, hdecl⟩
    refine ⟨a, ?_, hdecl⟩
    -- what was declared around the statement was declared in a scope that is still open
    obtain ⟨later, decl, earlier, rfl, -, -⟩ := declared_iff.1 hdecl
    have hsuf := ((List.mem_tails _ _).1 ha).trans hp.inside
    exact hp.fresh ⟨a, .binding decl⟩ (by simp) (.inl hsuf)

/-! ## Steps of the walk -/

/-- The errors about the uses of a list that are not bound. -/
def Use.errors (us : List Use) : List SemanticError :=
  (us.filter (¬ ·.Bound)).map fun u => .atIdent .undeclaredUse u.id

theorem Use.errors_append (us vs : List Use) :
    Use.errors (us ++ vs) = Use.errors us ++ Use.errors vs := by
  simp only [Use.errors, List.filter_append, List.map_append]

section

variable {before : List Item} {sig : Signature} {file : Scope}

/-- The errors about the uses among some steps that are not bound. -/
def unboundUses (before : List Item) (sig : Signature) (past steps : List Step) :
    List SemanticError :=
  Use.errors (usesFrom before sig past steps)

theorem unboundUses_append (past steps more : List Step) :
    unboundUses before sig past (steps ++ more) =
      unboundUses before sig past steps ++
        unboundUses before sig (steps.reverse ++ past) more := by
  rw [unboundUses, usesFrom_append, Use.errors_append, unboundUses, unboundUses]

/-- The step takes open scopes that mirror `past` to ones that mirror `steps` too, and reports the
uses among `steps` that are not bound. -/
def Follows (before : List Item) (sig : Signature) (file : Scope) (m : Check Unit)
    (past : List Step) (scopes : List (List Nat)) (steps : List Step) : Prop :=
  ∀ s, Mirrors (tagsAfter before) file past scopes s →
    Mirrors (tagsAfter before) file (steps.reverse ++ past) scopes (m s).state ∧
      Event.undeclared (m s).events = unboundUses before sig past steps

namespace Follows

variable {m n : Check Unit} {past steps more : List Step} {scope path : List Nat}
  {outer scopes : List (List Nat)}

protected theorem pure : Follows before sig file (pure ()) past scopes [] :=
  fun _ hm => ⟨hm, rfl⟩

protected theorem bind (hm : Follows before sig file m past scopes steps)
    (hn : Follows before sig file n (steps.reverse ++ past) scopes more) :
    Follows before sig file (do m; n) past scopes (steps ++ more) := by
  intro s hs
  obtain ⟨hmir, hund⟩ := hm s hs
  obtain ⟨hmir', hund'⟩ := hn _ hmir
  rw [Check.bind_apply, Event.undeclared_append, hund, hund', unboundUses_append,
    List.reverse_append, List.append_assoc]
  exact ⟨hmir', rfl⟩

/-- A resolution of a specifier and then a step that may use its value. -/
theorem resolve_bind {r : Check α} {f : α → Check Unit} {a : α} {spec : Specifier}
    (hr : Check.Resolves r (stepTags (tagsAfter before) past)
      (spec.completes (stepTags (tagsAfter before) past)) (· = a))
    (hf : Follows before sig file (f a) (⟨scope, .specifier spec⟩ :: past) scopes steps) :
    Follows before sig file (r >>= f) past scopes (⟨scope, .specifier spec⟩ :: steps) := by
  intro s hs
  have h := hr s hs.knows
  have hmir : Mirrors (tagsAfter before) file (⟨scope, .specifier spec⟩ :: past) scopes
      (r s).state := ⟨h.knows, h.scopes ▸ hs.file, h.scopes ▸ hs.frames⟩
  obtain ⟨hmir', hund⟩ := hf _ hmir
  rw [Check.bind_apply, h.value, Event.undeclared_append, h.undeclared, hund,
    List.reverse_cons, List.append_assoc]
  exact ⟨hmir', rfl⟩

/-- A scope is opened at an address where nothing has been declared. What happens inside it reaches
the scopes around it through the steps alone. -/
theorem openClose {after : List String} (hnew : ∀ x, ¬ Declared (tagsAfter before) past path x)
    (hwalk : Check.Walks m (stepTags (tagsAfter before) past) after)
    (hm : Follows before sig file m past (path :: scopes) steps) :
    Follows before sig file (do Check.openScope; m; Check.closeScope) past scopes steps := by
  intro s hs
  have hw := hwalk { s with scopes := s.scopes.push } hs.knows (by simp [ScopeChain.push])
  obtain ⟨hmir, hund⟩ :=
    hm { s with scopes := s.scopes.push } ⟨hs.knows, hs.file, .cons (.empty hnew) hs.frames⟩
  -- the scopes around the new one are the same as before, and mirror the new steps as well
  obtain ⟨here, rest, -, hrest, hin⟩ := List.forall₂_cons_left_iff.1 hmir.frames
  have hout : rest = s.scopes.inner := by
    have := hw.outer
    rwa [hin] at this
  rw [Check.scoped_apply rfl hw]
  refine ⟨⟨hmir.knows, hs.file, hout ▸ hrest⟩, ?_⟩
  rw [← List.singleton_append, Event.undeclared_append, Event.undeclared_append, hund]
  exact List.append_nil _

end Follows

/-- The file scope has the names of the items before the function and the function's own. -/
def FileNames (before : List Item) (sig : Signature) (file : Scope) : Prop :=
  ∀ x, (file.get? x).isSome = true ↔
    x = sig.name.name ∨ x ∈ (occurrences before).map (·.id.name)

section

variable (hfile : FileNames before sig file) {past : List Step} {scope path : List Nat}
  {outer : List (List Nat)}

include hfile

theorem Mirrors.find?_eq_none_iff {s : State}
    (hm : Mirrors (tagsAfter before) file past (scope :: outer) s)
    (hp : Placed past scope outer path) (id : Ident) :
    (s.scopes.find? id.name).isNone = true ↔ ¬ Use.Bound ⟨before, sig, past, scope, id⟩ := by
  rw [Use.bound_iff, ← or_assoc, ← hfile, ← hm.isSome_find?_iff hp]
  simp

/-- Uses leave the state alone, so each of them is looked up where the first one is. -/
theorem Mirrors.uses {s : State} (hm : Mirrors (tagsAfter before) file past (scope :: outer) s)
    (hp : Placed past scope outer path) (ids : List Ident) :
    Mirrors (tagsAfter before) file ((useSteps scope ids).reverse ++ past) (scope :: outer) s ∧
      unboundUses before sig past (useSteps scope ids) = s.unbound ids := by
  induction ids generalizing past with
  | nil => exact ⟨hm, rfl⟩
  | cons id ids ih =>
    have hm' : Mirrors (tagsAfter before) file (⟨scope, .use id⟩ :: past) (scope :: outer) s :=
      ⟨hm.knows, hm.file, hm.frames⟩
    obtain ⟨hmir, hund⟩ := ih hm' (hp.after [⟨scope, .use id⟩] (by simp))
    have hid : unboundUses before sig past [⟨scope, .use id⟩] = s.unbound [id] := by
      by_cases h : (s.scopes.find? id.name).isNone = true
      · have hbound := (hm.find?_eq_none_iff hfile hp id).1 h
        simp [unboundUses, usesFrom, Use.errors, State.unbound, hbound, h]
      · have hbound := not_not.1 (mt (hm.find?_eq_none_iff hfile hp id).2 h)
        simp [unboundUses, usesFrom, Use.errors, State.unbound, hbound, h]
    refine ⟨?_, ?_⟩
    · rw [useSteps, stepsIn, List.map_cons, List.map_cons, List.reverse_cons, List.append_assoc]
      exact hmir
    · calc unboundUses before sig past ([⟨scope, .use id⟩] ++ useSteps scope ids)
          = unboundUses before sig past [⟨scope, .use id⟩] ++
              unboundUses before sig (⟨scope, .use id⟩ :: past) (useSteps scope ids) :=
            unboundUses_append _ _ _
        _ = s.unbound [id] ++ s.unbound ids := by rw [hid, hund]
        _ = s.unbound (id :: ids) := (s.unbound_append [id] ids).symm

theorem follows_uses {m : Check Unit} {ids : List Ident} (h : ∀ s, m s = s.looked ids)
    (hp : Placed past scope outer path) :
    Follows before sig file m past (scope :: outer) (useSteps scope ids) := by
  intro s hs
  obtain ⟨hmir, hund⟩ := hs.uses hfile hp ids
  rw [h s, hund]
  exact ⟨hmir, s.undeclared_looked ids⟩

end

/-- The declaration is accepted exactly if it is bound in the innermost scope. No other open scope
has the address of this one. -/
theorem follows_binding (decl : Decl) {past : List Step} {scope path : List Nat}
    {outer : List (List Nat)} (hp : Placed past scope outer path) :
    Follows before sig file (Check.bindVariable decl.core decl.ty) past (scope :: outer)
      [⟨scope, .binding decl⟩] := by
  intro s hs
  obtain ⟨here, rest, hhere, hrest, hin⟩ := List.forall₂_cons_left_iff.1 hs.frames
  have hrejected (hacc : ¬ Accepted (tagsAfter before) past scope decl) :
      Mirrors (tagsAfter before) file (⟨scope, .binding decl⟩ :: past) (scope :: outer) s :=
    ⟨hs.knows, hs.file, hs.frames.imp fun _ _ hf => hf.reject hacc⟩
  rw [Check.bindVariable_apply_inner hin]
  split
  · rename_i hinc
    refine ⟨hrejected fun hacc => ?_, Event.undeclared_reported (by decide) _⟩
    rw [(hs.knows.isIncomplete_eq_false_iff _).2 hacc.1] at hinc
    cases hinc
  · split
    · rename_i hdup
      exact ⟨hrejected fun hacc => hacc.2 ((hhere _).1 hdup),
        Event.undeclared_reported (by decide) _⟩
    · rename_i hinc hdup
      have hacc : Accepted (tagsAfter before) past scope decl :=
        ⟨(hs.knows.isIncomplete_eq_false_iff _).1 (Bool.eq_false_iff.2 hinc),
          fun hdecl => hdup ((hhere _).2 hdecl)⟩
      have hother := ((List.forall₂_and_left outer rest).2
        ⟨fun a ha => (hp.nested a ha).2.symm, hrest⟩).imp
          fun _ _ hf => hf.2.elsewhere hf.1 decl
      exact ⟨⟨hs.knows, hs.file, .cons (hhere.accept hacc) hother⟩, rfl⟩

mutual

theorem Stmt.follows (hfile : FileNames before sig file) {past : List Step}
    {scope path : List Nat} {outer : List (List Nat)} (hp : Placed past scope outer path) :
    (stmt : Stmt) →
      Follows before sig file stmt.check past (scope :: outer) (stmt.steps scope path)
  | .block stmts _ =>
    .openClose (fun _ => hp.not_declared) (checkStmts_walks _ stmts)
      (follows_stmts hfile (fun i _ => hp.enter i) stmts)
  | .varDecl decl init _ => by
    refine .resolve_bind (decl.completes_eq _ ▸ decl.resolve_resolves _) ?_
    have hp' := hp.after [⟨scope, .specifier decl.specifier⟩] (by simp)
    have hp'' := hp'.after [⟨scope, .binding decl⟩] (by simp)
    exact (follows_binding decl hp').bind (follows_uses hfile (checkOption_apply · init) hp'')
  | .expr value => follows_uses hfile (value.check_apply ·) hp
  | .ret value _ => follows_uses hfile (checkOption_apply · value) hp
  | .ifThen cond yes _ => by
    have hp' := hp.after (useSteps scope cond.names) fun _ h => .inl (scope_of_mem_stepsIn h)
    exact (follows_uses hfile (cond.check_apply ·) hp).bind (yes.follows hfile (hp'.child 0))
  | .ifElse cond yes no _ => by
    have hp' := hp.after (useSteps scope cond.names) fun _ h => .inl (scope_of_mem_stepsIn h)
    have hp'' := (hp'.child 1).after (yes.steps scope (0 :: path)) fun _ h =>
      (yes.scope_of_mem_steps h).imp_right (not_suffix_of_ne Nat.zero_ne_one)
    refine (follows_uses hfile (cond.check_apply ·) hp).bind ?_
    exact (yes.follows hfile (hp'.child 0)).bind (no.follows hfile hp'')
  | .loop cond body _ => by
    have hp' := hp.after (useSteps scope cond.names) fun _ h => .inl (scope_of_mem_stepsIn h)
    exact (follows_uses hfile (cond.check_apply ·) hp).bind (body.follows hfile (hp'.child 0))
  | .brk _ | .cont _ | .empty _ => .pure

theorem follows_stmts (hfile : FileNames before sig file) {past : List Step}
    {scope path : List Nat} {outer : List (List Nat)} {i : Nat}
    (hp : ∀ j, i ≤ j → Placed past scope outer (j :: path)) :
    (stmts : List Stmt) →
      Follows before sig file (checkStmts stmts) past (scope :: outer)
        (stmtSteps scope path i stmts)
  | [] => .pure
  | stmt :: more => by
    refine (stmt.follows hfile (hp i (Nat.le_refl i))).bind (follows_stmts hfile ?_ more)
    -- the blocks inside this statement have addresses away from those of the later ones
    intro j hj
    refine (hp j (Nat.le_of_succ_le hj)).after _ fun _ h => ?_
    exact (stmt.scope_of_mem_steps h).imp_right (not_suffix_of_ne (Nat.ne_of_lt hj))

end

/-- The parameters are bound one after the other in the scope of the body. -/
theorem follows_params (params : List Decl) {past : List Step} {scope path : List Nat}
    {outer : List (List Nat)} (hp : Placed past scope outer path) :
    Follows before sig file (Check.bindParams (params.map Decl.typed)) past (scope :: outer)
      (stepsIn scope (params.map .binding)) := by
  induction params generalizing past with
  | nil => exact .pure
  | cons decl params ih =>
    exact (follows_binding decl hp).bind (ih (hp.after [⟨scope, .binding decl⟩] (by simp)))

end

/-! ## Whole programs -/

/-- The first statements of a function, of which only the header and the parameters have been
walked. -/
theorem Placed.function {past : List Step} (h : ∀ step ∈ past, step.scope = []) (i : Nat) :
    Placed past [] [] [i] := by
  refine ⟨List.nil_suffix, Nat.zero_lt_one, ?_, fun step hstep _ => ?_⟩
  · intro a ha
    cases ha
  · exact List.mem_singleton.2 (h step hstep)

theorem fileNames_function (before : List Item) (sig : Signature) (body : Block) :
    FileNames before sig
      ((Item.function sig body).namedState (stateAfter before)).scopes.file := by
  intro x
  have h := (bindName_records (.function sig body) (records_stateAfter before)).1
  rw [h.isSome_get?_iff, occurrences_concat, List.map_append, List.mem_append, or_comm]
  simp [Item.occurrence?]

theorem stepTags_specifiers (known : List String) (scope : List Nat) (specs : List Specifier) :
    stepTags known (stepsIn scope (specs.map .specifier)).reverse = completed known specs := by
  induction specs using List.reverseRecOn with
  | nil => rfl
  | append_singleton specs spec ih =>
    rw [stepsIn, List.map_append, List.map_append, List.reverse_append, completed_append, ← ih]
    rfl

theorem unboundUses_specifiers (before : List Item) (sig : Signature) (past : List Step)
    (scope : List Nat) (specs : List Specifier) :
    unboundUses before sig past (stepsIn scope (specs.map .specifier)) = [] := by
  induction specs generalizing past with
  | nil => rfl
  | cons spec specs ih => exact ih _

theorem not_declared_specifiers (known : List String) (scope here : List Nat)
    (specs : List Specifier) (x : String) :
    ¬ Declared known (stepsIn scope (specs.map .specifier)).reverse here x := by
  intro hx
  obtain ⟨later, decl, earlier, heq, -, -⟩ := declared_iff.1 hx
  have hmem : ⟨here, .binding decl⟩ ∈ stepsIn scope (specs.map .specifier) := by
    rw [← List.mem_reverse, heq]
    simp
  simp [stepsIn] at hmem

/-- A function body opens its scope after the header, and binds the parameters in it first. -/
theorem undeclared_function (before : List Item) (sig : Signature) (body : Block) :
    Event.undeclared ((Item.function sig body).walkBody
        ((Item.function sig body).namedState (stateAfter before))).events =
      unboundUses before sig [] (functionSteps sig body) := by
  have hc := (Item.function sig body).checked_stateAfter before
  have hfile := fileNames_function before sig body
  rw [functionSteps, unboundUses_append, unboundUses_specifiers, List.nil_append, List.append_nil]
  generalize hpast : (stepsIn [] (sig.specifiers.map .specifier)).reverse = past
  have hscope : ∀ step ∈ past, step.scope = [] := fun step hstep =>
    scope_of_mem_stepsIn (List.mem_reverse.1 (hpast ▸ hstep))
  have hp (i : Nat) := Placed.function hscope i
  have hstmts := follows_stmts hfile (i := 0)
    (fun i _ => (hp i).after (stepsIn [] (sig.params.map .binding))
      fun _ h => .inl (scope_of_mem_stepsIn h)) body.stmts
  have hbody := (follows_params sig.params (hp 0)).bind hstmts
  have hwalk := (Check.bindParams_walks (sig.params.map Decl.typed) _).bind
    (checkStmts_walks (stepTags (tagsAfter before) past) body.stmts)
  have hnew : ∀ x, ¬ Declared (tagsAfter before) past [] x := by
    rw [← hpast]
    exact not_declared_specifiers _ _ _ _
  have hknows : ((Item.function sig body).namedState (stateAfter before)).structs.Knows
      (stepTags (tagsAfter before) past) := by
    rw [hc.named_structs, ← hpast, stepTags_specifiers]
    exact hc.header_knows
  rw [Item.walkBody, checkBody_eq]
  exact (Follows.openClose hnew hwalk hbody _ ⟨hknows, rfl, hc.named_inner ▸ .nil⟩).2

theorem undeclared_check (before : List Item) (item : Item) :
    Event.undeclared (item.check (stateAfter before)).events = Use.errors (item.uses before) := by
  have hc := item.checked_stateAfter before
  have hheader := item.checkHeader_resolves _ _ (knows_stateAfter before)
  have hnamed := item.bindName_named (s := item.headerState (stateAfter before))
    (by rw [hc.header_scopes, inner_stateAfter])
  have hbody : Event.undeclared (item.walkBody (item.namedState (stateAfter before))).events =
      Use.errors (item.uses before) := by
    cases item with
    | function sig body => exact undeclared_function before sig body
    | _ => rfl
  rw [Item.check_eq, Check.bind_apply, Check.bind_apply, Event.undeclared_append,
    Event.undeclared_append, hheader.undeclared, List.nil_append]
  exact (congrArg (· ++ _) hnamed.undeclared).trans hbody

theorem undeclared_checkItems (before items : List Item) :
    Event.undeclared (checkItems items (stateAfter before)).events =
      Use.errors (itemUses before items) := by
  induction items generalizing before with
  | nil => rfl
  | cons item items ih =>
    rw [checkItems, Check.bind_apply, Event.undeclared_append, undeclared_check,
      ← stateAfter_concat, ih, itemUses, Use.errors_append]

theorem undeclared_settled (s : State) (ds : List TypedIdent) :
    Event.undeclared (ds.map s.settled) = [] := by
  induction ds with
  | nil => rfl
  | cons d ds ih =>
    rw [List.map_cons, ← List.singleton_append, Event.undeclared_append, ih, State.settled]
    split
    · rw [Event.undeclared_reported (by decide), List.nil_append]
    · rfl

/-- **Lexical scoping.** The undeclared uses that a run reports are, in the order of the walk and
one for each occurrence, the names in function bodies that are not bound. -/
theorem run_reports_unbound_uses (p : Program) :
    p.run.errors.filter (·.kind = .undeclaredUse) =
      (p.uses.filter (¬ ·.Bound)).map fun u => .atIdent .undeclaredUse u.id := by
  rw [p.errors_run, List.filter_append]
  have hdeferred : p.deferred.filter (·.kind = .undeclaredUse) = [] := by
    rw [Program.deferred, settlePending_apply]
    exact undeclared_settled _ _
  rw [hdeferred, List.append_nil]
  exact undeclared_checkItems [] p.items

end MiniC
