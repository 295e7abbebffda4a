import Mathlib.Data.List.Induction
import MiniC.Proofs.Items

/-!
# Repeated parameters

Parameters with the same name are found in two ways. With a body, they are bound one after the other
in a new scope, and each that finds its name there is reported. Without a body nothing is bound: the
names are compared with each other, up to the first that is reported. `repeats` lists the parameters
that have the name of an earlier one. The first way reports all of them (`Check.bindParams_bound`),
the second the first of them (`firstRepeated?_eq_head?`).
-/

namespace MiniC

/-! ## Names that repeat -/

/-- The identifiers that have the name of an earlier one, in order. -/
def repeats (ids : List Ident) : List Ident :=
  (ids.zipIdx.filter fun x => (ids.take x.2).any (·.name == x.1.name)).map (·.1)

theorem repeats_concat (ids : List Ident) (id : Ident) :
    repeats (ids ++ [id]) =
      repeats ids ++ if id.name ∈ ids.map (·.name) then [id] else [] := by
  have hbefore : (ids.zipIdx.filter fun x =>
        ((ids ++ [id]).take x.2).any (·.name == x.1.name)) =
      ids.zipIdx.filter fun x => (ids.take x.2).any (·.name == x.1.name) := by
    apply List.filter_congr
    intro x hx
    have hlt : x.2 ≤ ids.length := Nat.le_of_lt (List.snd_lt_of_mem_zipIdx hx)
    rw [List.take_append_of_le_length hlt]
  have hlast : (ids.any (·.name == id.name)) = decide (id.name ∈ ids.map (·.name)) := by
    simp [List.any_eq]
  rw [repeats, List.zipIdx_append, List.filter_append, hbefore, List.map_append, ← repeats]
  simp only [List.zipIdx_singleton, Nat.zero_add, List.filter_cons, List.take_left, hlast,
    decide_eq_true_eq, List.filter_nil]
  split <;> rfl

theorem firstRepeated?_concat (seen : List String) (ids : List Ident) (id : Ident) :
    firstRepeated? seen (ids ++ [id]) = (firstRepeated? seen ids).or
      (if id.name ∈ ids.map (·.name) ∨ id.name ∈ seen then some id else none) := by
  induction ids generalizing seen with
  | nil => simp [firstRepeated?]
  | cons first ids ih =>
    rw [List.cons_append, firstRepeated?, firstRepeated?]
    split
    · rfl
    · rw [ih]
      simp [or_left_comm, or_assoc]

/-- Comparing names finds the first that repeats. -/
theorem firstRepeated?_eq_head? (ids : List Ident) :
    firstRepeated? [] ids = (repeats ids).head? := by
  induction ids using List.reverseRecOn with
  | nil => rfl
  | append_singleton ids id ih =>
    rw [firstRepeated?_concat, ih, repeats_concat, List.head?_append]
    simp only [List.not_mem_nil, or_false]
    split <;> rfl

/-! ## Binding parameters -/

/-- The outcome of binding parameters with the names of `ids` from `s`, in a scope that is the
innermost one above `outer`. The scope binds these names, and those that repeat are reported. -/
structure Outcome.Bound (r : Outcome Unit) (s : State) (outer : List Scope) (ids : List Ident) :
    Prop where
  scope : ∃ here, r.state = { s with scopes := ⟨s.scopes.file, here :: outer⟩ } ∧
    ∀ name, (here.get? name).isSome = true ↔ name ∈ ids.map (·.name)
  errors : Event.errors r.events = (repeats ids).map (.atIdent .redefinition)

namespace Check

theorem bindParams_concat (params : List TypedIdent) (p : TypedIdent) :
    bindParams (params ++ [p]) = (do bindParams params; bindVariable p.ident p.ty) := by
  induction params with
  | nil => simp [bindParams]
  | cons first params ih => simp [bindParams, ih]

end Check

open Check (bindVariable bindParams)

/-- One more parameter is reported if the scope has its name, and is bound there otherwise. -/
theorem Outcome.Bound.concat {m : Check Unit} {s : State} {outer : List Scope} {ids : List Ident}
    (h : (m s).Bound s outer ids) (id : Ident) {ty : Ty} (hty : s.structs.isIncomplete ty = false) :
    ((do m; bindVariable id ty) s).Bound s outer (ids ++ [id]) := by
  obtain ⟨⟨here, hstate, hnames⟩, herrors⟩ := h
  have hinner : (m s).state.scopes.inner = here :: outer := by rw [hstate]
  have hty' : (m s).state.structs.isIncomplete ty = false := by rw [hstate]; exact hty
  rw [Check.bind_apply, Check.bindVariable_apply_inner hinner, hty', if_neg Bool.false_ne_true]
  by_cases hrepeats : (here.get? id.name).isSome = true
  · have hmem := (hnames id.name).1 hrepeats
    rw [if_pos hrepeats]
    refine ⟨⟨here, hstate, fun name => ?_⟩, ?_⟩
    · rw [hnames, List.map_append, List.map_singleton, List.mem_append, List.mem_singleton,
        or_iff_left_of_imp]
      rintro rfl
      exact hmem
    · rw [repeats_concat, if_pos hmem, List.map_append, ← herrors, Event.errors_append]
      rfl
  · have hmem : id.name ∉ ids.map (·.name) := fun hmem => hrepeats ((hnames id.name).2 hmem)
    rw [if_neg hrepeats]
    refine ⟨⟨_, by rw [hstate], fun name => ?_⟩, ?_⟩
    · rw [Scope.get?_bind, List.map_append, List.map_singleton, List.mem_append,
        List.mem_singleton, ← hnames]
      by_cases hname : id.name = name
      · simp [Symbol.ofVariable, hname]
      · simp [Symbol.ofVariable, hname, Ne.symm hname]
    · rw [repeats_concat, if_neg hmem, List.append_nil, ← herrors, Event.errors_append]
      exact List.append_nil _

/-- Parameters of complete types in a new scope. -/
theorem Check.bindParams_bound {params : List TypedIdent} {s : State} {outer : List Scope}
    (hin : s.scopes.inner = .empty :: outer)
    (hty : ∀ p ∈ params, s.structs.isIncomplete p.ty = false) :
    (bindParams params s).Bound s outer (params.map (·.ident)) := by
  induction params using List.reverseRecOn with
  | nil =>
    refine ⟨⟨.empty, ?_, by simp [Scope.get?_empty]⟩, rfl⟩
    rw [← hin]
    rfl
  | append_singleton params p ih =>
    rw [bindParams_concat, List.map_append, List.map_singleton]
    rw [List.forall_mem_append, List.forall_mem_singleton] at hty
    exact (ih hty.1).concat p.ident hty.2

/-! ## Functions with and without a body -/

/-- Where a body is missing, the name is bound if it is new, and nothing else is. -/
theorem Check.scopes_bindFunction (id : Ident) (ty : Ty) (s : State) :
    (bindFunction id ty false s).state.scopes =
      if (s.scopes.findFile? id.name).isSome then s.scopes
      else s.scopes.bindFile (.ofFunction id.name ty false id.span) := by
  rw [bindFunction_apply, existing, ScopeChain.findFile?]
  cases s.scopes.file.get? id.name with
  | none => rfl
  | some x =>
    obtain ⟨name, kind, ty, defined, span⟩ := x
    cases kind <;> rfl

/-- Without a body, the first parameter that repeats a name is reported. -/
theorem Check.checkParams_apply (params : List TypedIdent) (s : State) :
    checkParams params s =
      ⟨(), s, ((repeats (params.map (·.ident))).head?.toList.map (.atIdent .redefinition)).map
        .reported⟩ := by
  rw [checkParams, firstRepeated?_eq_head?]
  cases (repeats (params.map (·.ident))).head? <;> rfl

/-- In the scope of a function, the errors of its parameters come before those of its statements. -/
theorem errors_checkBody (params : List TypedIdent) (body : Block) (s : State) :
    Event.errors (checkBody params body s).events =
      Event.errors (bindParams params { s with scopes := s.scopes.push }).events ++
        Event.errors (checkStmts body.stmts
          (bindParams params { s with scopes := s.scopes.push }).state).events := by
  obtain ⟨known, hs⟩ := s.structs.exists_knows
  rw [checkBody_apply params body hs]
  -- opening and closing the scope are no errors
  change Event.errors (_ ++ [.exited s.scopes.depth]) = _
  rw [Event.errors_append, Check.bind_apply, Event.errors_append]
  exact List.append_nil _

namespace Signature

/-- The identifiers of the parameters. -/
def paramIdents (sig : Signature) : List Ident := sig.params.map Decl.core

theorem idents_typed (sig : Signature) :
    (sig.params.map Decl.typed).map (·.ident) = sig.paramIdents := by
  rw [paramIdents, List.map_map]
  rfl

/-- What binding the name of a function comes to after its header. -/
def bindName (sig : Signature) (hasBody : Bool) (s : State) : Outcome Unit :=
  Check.bindFunction sig.name sig.ty hasBody (sig.resolve s).state

/-- The state in which the statements of the body are checked. -/
def inside (sig : Signature) (s : State) : State :=
  (do Check.openScope; bindParams (sig.params.map Decl.typed) : Check Unit)
    (sig.bindName true s).state |>.state

variable (sig : Signature) (s : State)

theorem errors_function (body : Block)
    (hcomplete : ∀ d ∈ sig.params, (sig.resolve s).state.structs.isIncomplete d.ty = false) :
    Event.errors ((Item.function sig body).check s).events =
      Event.errors (sig.resolve s).events ++ (Event.errors (sig.bindName true s).events ++
        ((repeats sig.paramIdents).map (.atIdent .redefinition) ++
          Event.errors (checkStmts body.stmts (sig.inside s)).events)) := by
  -- binding the name of the function leaves the struct tags alone
  have hstructs : (sig.bindName true s).state.structs = (sig.resolve s).state.structs :=
    (Check.bindFunction_named sig.name sig.ty true _).structs
  have hty : ∀ p ∈ sig.params.map Decl.typed,
      (sig.bindName true s).state.structs.isIncomplete p.ty = false := by
    rw [hstructs, List.forall_mem_map]
    exact hcomplete
  have hbound := Check.bindParams_bound
    (s := { (sig.bindName true s).state with scopes := (sig.bindName true s).state.scopes.push })
    rfl hty
  have hbody := errors_checkBody (sig.params.map Decl.typed) body (sig.bindName true s).state
  rw [hbound.errors, sig.idents_typed] at hbody
  rw [Item.check_eq]
  simp only [Item.checkHeader, Item.bindName, Item.walkBody, Check.bind_apply, Check.pure_apply,
    Event.errors_append, List.append_assoc]
  rw [bindName] at hbody
  rw [hbody]
  rfl

theorem errors_prototype :
    Event.errors ((Item.prototype sig).check s).events =
      Event.errors (sig.resolve s).events ++
        ((repeats sig.paramIdents).head?.toList.map (.atIdent .redefinition) ++
          Event.errors (sig.bindName false s).events) := by
  rw [Item.check_eq]
  simp only [Item.checkHeader, Item.bindName, Item.walkBody, Check.bind_apply, Check.pure_apply,
    Check.checkParams_apply, Event.errors_append, Event.errors_map_reported, sig.idents_typed,
    bindName, List.append_assoc]
  exact congrArg _ (congrArg _ (List.append_nil _))

theorem scopes_prototype :
    ((Item.prototype sig).check s).state.scopes =
      if (s.scopes.findFile? sig.name.name).isSome then s.scopes
      else s.scopes.bindFile (.ofFunction sig.name.name sig.ty false sig.name.span) := by
  obtain ⟨known, hs⟩ := s.structs.exists_knows
  rw [← (sig.resolve_resolves known s hs).scopes, ← Check.scopes_bindFunction, Item.check_eq]
  simp only [Item.checkHeader, Item.bindName, Item.walkBody, Check.bind_apply, Check.pure_apply,
    Check.checkParams_apply]

end Signature

/-- **The two checks of parameters agree.** Let no parameter of a header have an incomplete type
once the header is resolved. A function with this header and a body reports the parameters that
repeat a name, all of them in order, after what it reports on its header and its own name and before
what the statements of its body report. Without a body, the first of them is reported and no other,
after what is reported on the header. What has a name at file scope does not matter for this, and
the only name that is bound then is that of the function, if it is new. -/
theorem parameter_checks_agree (sig : Signature) (s : State)
    (hcomplete : ∀ d ∈ sig.params, (sig.resolve s).state.structs.isIncomplete d.ty = false) :
    (∀ body : Block, Event.errors ((Item.function sig body).check s).events =
      Event.errors (sig.resolve s).events ++ (Event.errors (sig.bindName true s).events ++
        ((repeats sig.paramIdents).map (.atIdent .redefinition) ++
          Event.errors (checkStmts body.stmts (sig.inside s)).events))) ∧
    Event.errors ((Item.prototype sig).check s).events =
      Event.errors (sig.resolve s).events ++
        ((repeats sig.paramIdents).head?.toList.map (.atIdent .redefinition) ++
          Event.errors (sig.bindName false s).events) ∧
    ((Item.prototype sig).check s).state.scopes =
      if (s.scopes.findFile? sig.name.name).isSome then s.scopes
      else s.scopes.bindFile (.ofFunction sig.name.name sig.ty false sig.name.span) :=
  ⟨fun body => sig.errors_function s body hcomplete, sig.errors_prototype s,
    sig.scopes_prototype s⟩

/-- `int f(int a, int b, int a, int b, int a)`. -/
def crowdedHeader : Signature :=
  let place (n : Nat) : Span := ⟨n, n + 1, 1, n + 1⟩
  let param (name : String) (n : Nat) : Decl :=
    ⟨.int (place n), .ident ⟨name, place n⟩, place n⟩
  ⟨.int (place 0), ⟨"f", place 1⟩,
    [param "a" 2, param "b" 3, param "a" 4, param "b" 5, param "a" 6], ⟨0, 7, 1, 1⟩⟩

/-- Variables `a` and `f` at file scope. -/
def crowdedFile : State :=
  { State.initial with
    scopes := (ScopeChain.empty.bindFile (.ofVariable "a" .char ⟨0, 0, 1, 1⟩)).bindFile
      (.ofVariable "f" .char ⟨0, 0, 1, 1⟩)
    globals := ["a", "f"] }

theorem crowdedHeader_checks_agree :
    (∀ d ∈ crowdedHeader.params,
      (crowdedHeader.resolve crowdedFile).state.structs.isIncomplete d.ty = false) ∧
    Event.errors ((Item.function crowdedHeader
        ⟨[.expr (.name ⟨"c", ⟨8, 9, 1, 9⟩⟩)], ⟨7, 10, 1, 8⟩⟩).check crowdedFile).events =
      [⟨.redefinition, "f", ⟨1, 2, 1, 2⟩⟩, ⟨.redefinition, "a", ⟨4, 5, 1, 5⟩⟩,
        ⟨.redefinition, "b", ⟨5, 6, 1, 6⟩⟩, ⟨.redefinition, "a", ⟨6, 7, 1, 7⟩⟩,
        ⟨.undeclaredUse, "c", ⟨8, 9, 1, 9⟩⟩] ∧
    Event.errors ((Item.prototype crowdedHeader).check crowdedFile).events =
      [⟨.redefinition, "a", ⟨4, 5, 1, 5⟩⟩, ⟨.redeclaration, "f", ⟨1, 2, 1, 2⟩⟩] := by
  have hcomplete : ∀ d ∈ crowdedHeader.params,
      (crowdedHeader.resolve crowdedFile).state.structs.isIncomplete d.ty = false := by
    unfold crowdedHeader
    simp only [List.forall_mem_cons]
    exact ⟨rfl, rfl, rfl, rfl, rfl, List.forall_mem_nil _⟩
  obtain ⟨hfunction, hprototype, -⟩ :=
    parameter_checks_agree crowdedHeader crowdedFile hcomplete
  exact ⟨hcomplete, (hfunction _).trans (by decide), hprototype.trans (by decide)⟩

end MiniC
