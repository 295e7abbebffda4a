import MiniC.Proofs.Lockstep.Basic

/-!
# Programs in lockstep

The walk over a program keeps runs in lockstep: for each kind of tree, if the identifiers in it are
allowed, then checking the tree under each relabeling leads from related states to related states,
with the same findings (`checkItems_steps`).
-/

namespace MiniC

open Lockstep (Steps)

variable {ι : Type} {L : Lockstep ι} {d : Nat}

/-! ## Declarations -/

theorem Check.arrayOf_steps {l : Label} (hl : L.Allowed l) {elem : Ty} (helem : L.Knows elem)
    (size : Bound) :
    L.Steps d d (fun i => Check.arrayOf (l.relabel (L.label i)).ident (elem.relabel (L.label i))
      (size.relabel (L.label i))) L.IsType := by
  unfold Check.arrayOf
  by_cases h : Bound.number size.text ≤ 0
  · simp only [Bound.relabel, h, ↓reduceIte]
    exact (Steps.report .incompleteType hl).next (.pure ⟨elem, helem, rfl⟩)
  · simp only [Bound.relabel, h, ↓reduceIte]
    exact .pure ⟨.array elem (Bound.number size.text).toNat, helem, rfl⟩

/-- The shape `(*id)` is that of the tree, whatever its labels. -/
theorem Declarator.eq_paren_of_relabel {ρ : Relabeling} {space : Space} {dr : Declarator}
    {id : Ident} {span span' : Span}
    (h : dr.relabel ρ space = .paren (.pointer (.ident id) span) span') :
    ∃ id span span', dr = .paren (.pointer (.ident id) span) span' := by
  rcases dr with _ | _ | _ | ⟨_ | _ | ⟨_ | _ | _ | _, _⟩ | _, _⟩ <;> cases h
  exact ⟨_, _, _, rfl⟩

theorem Declarator.typeOver_steps {l : Label} (hl : L.Allowed l) {base : Ty}
    (hbase : L.Knows base) (space : Space) (dr : Declarator) :
    L.Steps d d (fun i => (dr.relabel (L.label i) space).typeOver (l.relabel (L.label i)).ident
      (base.relabel (L.label i))) L.IsType := by
  fun_induction Declarator.over base dr with
  | case1 => exact .pure ⟨base, hbase, rfl⟩
  | case2 inner _ ih => exact ih
  | case3 elem size _ _ ih =>
    refine ih.bind ?_
    rintro _ ⟨ty, -, rfl⟩
    have hpointer : L.Knows (.pointer ty) := Lockstep.knows_plain rfl
    exact Check.arrayOf_steps hl hpointer size
  | case4 inner span hne ih =>
    have heq : ∀ i, ((pointer inner span).relabel (L.label i) space).typeOver
        (l.relabel (L.label i)).ident (base.relabel (L.label i)) = (do
          return .pointer (← (inner.relabel (L.label i) space).typeOver
            (l.relabel (L.label i)).ident (base.relabel (L.label i)))) := by
      intro i
      rw [relabel, typeOver]
      intro elem size span h
      cases inner with
      | array elem size span => exact hne elem size span rfl
      | _ => cases h
    simp only [heq]
    refine ih.bind ?_
    rintro _ ⟨ty, -, rfl⟩
    exact .pure ⟨.pointer ty, Lockstep.knows_plain rfl, rfl⟩
  | case5 _ _ _ size _ =>
    refine (Check.arrayOf_steps hl hbase size).bind ?_
    rintro _ ⟨ty, -, rfl⟩
    exact .pure ⟨.pointer ty, Lockstep.knows_plain rfl, rfl⟩
  | case6 inner size span hne ih =>
    have heq : ∀ i, ((array inner size span).relabel (L.label i) space).typeOver
        (l.relabel (L.label i)).ident (base.relabel (L.label i)) = (do
          let ty ← (inner.relabel (L.label i) space).typeOver
            (l.relabel (L.label i)).ident (base.relabel (L.label i))
          Check.arrayOf (l.relabel (L.label i)).ident ty (size.relabel (L.label i))) := by
      intro i
      rw [relabel, typeOver]
      intro id span span' h
      obtain ⟨id, span, span', rfl⟩ := eq_paren_of_relabel h
      exact hne id span span' rfl
    simp only [heq]
    refine ih.bind ?_
    rintro _ ⟨ty, hty, rfl⟩
    exact Check.arrayOf_steps hl hty size

theorem Declarator.resolve_steps {role : Role} {dr : Declarator} (hcore : L.Allowed ⟨role, dr.core⟩)
    {base : Ty} (hbase : L.Knows base) :
    L.Steps d d (fun i => (dr.relabel (L.label i) role.space).resolve (base.relabel (L.label i)))
      (L.IsTyped role) := by
  simp only [Declarator.resolve, Declarator.core_relabel]
  refine (dr.typeOver_steps hcore hbase role.space).bind ?_
  rintro _ ⟨ty, hty, rfl⟩
  exact Steps.next (.tell fun _ => rfl) (.pure ⟨⟨dr.core, ty⟩, ⟨hcore, hty⟩, rfl⟩)

mutual

theorem Specifier.resolve_steps : (spec : Specifier) → (∀ l ∈ spec.labels, L.Allowed l) →
    L.Steps d d (fun i => (spec.relabel (L.label i)).resolve) L.IsType
  | .int _, _ => .pure ⟨.int, Lockstep.knows_plain rfl, rfl⟩
  | .char _, _ => .pure ⟨.char, Lockstep.knows_plain rfl, rfl⟩
  | .structRef tag _, h => Check.mentionTag_steps (h _ (by simp [Specifier.labels]))
  | .structDef tag members span, h => by
    rw [Specifier.labels, List.forall_mem_cons] at h
    simp only [Specifier.relabel, Specifier.resolve_structDef]
    refine Check.define_steps h.1 (resolveMembers_steps [] members h.2) fun i s => ?_
    exact (resolveMembers_extends _ [] _ (List.Subset.refl _) s).structs

theorem Decl.resolve_steps (role : Role) : (dl : Decl) → (∀ l ∈ dl.labels role, L.Allowed l) →
    L.Steps d d (fun i => (dl.relabel (L.label i) role.space).resolve) (L.IsTyped role)
  | ⟨specifier, declarator, _⟩, h => by
    rw [Decl.labels, List.forall_mem_append, List.forall_mem_singleton] at h
    simp only [Decl.relabel, Decl.resolve]
    refine (specifier.resolve_steps h.1).bind ?_
    rintro _ ⟨base, hbase, rfl⟩
    exact Declarator.resolve_steps h.2 hbase

theorem resolveMembers_steps (fields : List Field) :
    (members : List Decl) → (∀ l ∈ declLabels .member members, L.Allowed l) →
    L.Steps d d
      (fun i => resolveMembers (fields.map (Field.relabel (L.label i)))
        (relabelDecls (L.label i) .member members))
      fun v => ∃ fields : List Field, v = fun i => fields.map (Field.relabel (L.label i))
  | [], _ => .pure ⟨fields, rfl⟩
  | member :: more, h => by
    rw [declLabels, List.forall_mem_append] at h
    simp only [relabelDecls, resolveMembers]
    refine (member.resolve_steps .member h.1).bind ?_
    rintro _ ⟨md, ⟨hid, hty⟩, rfl⟩
    refine .ite ⟨fields.any (·.name == md.ident.name), fun i => ?_⟩ (fun _ => ?_) fun _ => ?_
    · rw [List.any_map]
      exact congrArg fields.any (funext fun f => (L.label i).name_beq .member _ _)
    · exact (Steps.report .redefinition hid).next (resolveMembers_steps fields more h.2)
    · have hmore := resolveMembers_steps (fields ++ [⟨md.ident.name, md.ty⟩]) more h.2
      simp only [List.map_append] at hmore
      refine Steps.state.bind fun s hs => ?_
      refine .ite (L.isIncomplete hs.tables hty) (fun _ => ?_) fun _ => hmore
      exact (Steps.report .incompleteType hid).next hmore

end

/-- The same declared names, in order. -/
def Lockstep.AreTyped (L : Lockstep ι) (role : Role) (v : ι → List TypedIdent) : Prop :=
  ∃ ds : List TypedIdent, (∀ d ∈ ds, L.Declares role d) ∧
    v = fun i => ds.map (TypedIdent.relabel (L.label i) role.space)

theorem resolveDecls_steps (role : Role) (ds : List Decl)
    (h : ∀ l ∈ declLabels role ds, L.Allowed l) :
    L.Steps d d (fun i => resolveDecls (relabelDecls (L.label i) role.space ds))
      (L.AreTyped role) := by
  induction ds with
  | nil => exact .pure ⟨[], by simp, rfl⟩
  | cons dl more ih =>
    rw [declLabels, List.forall_mem_append] at h
    simp only [relabelDecls, resolveDecls]
    refine (dl.resolve_steps role h.1).bind ?_
    rintro _ ⟨first, hfirst, rfl⟩
    refine (ih h.2).bind ?_
    rintro _ ⟨ds, hds, rfl⟩
    exact .pure ⟨first :: ds, List.forall_mem_cons.2 ⟨hfirst, hds⟩, rfl⟩

/-- The same type of a function, and the same parameters. -/
def Lockstep.IsHeader (L : Lockstep ι) (v : ι → Ty × List TypedIdent) : Prop :=
  ∃ (ty : Ty) (params : List TypedIdent), (∀ p ∈ params, L.Declares .inner p) ∧
    v = fun i => (ty.relabel (L.label i), params.map (TypedIdent.relabel (L.label i) .ordinary))

theorem Signature.resolve_steps (sig : Signature) (hret : ∀ l ∈ sig.ret.labels, L.Allowed l)
    (hparams : ∀ l ∈ declLabels .inner sig.params, L.Allowed l) :
    L.Steps d d (fun i => (sig.relabel (L.label i)).resolve) L.IsHeader := by
  simp only [Signature.relabel, Signature.resolve]
  refine (sig.ret.resolve_steps hret).bind ?_
  rintro _ ⟨ret, -, rfl⟩
  refine (resolveDecls_steps .inner sig.params hparams).bind ?_
  rintro _ ⟨params, hps, rfl⟩
  refine .pure ⟨.function ret (params.map (·.ty)), params, hps, ?_⟩
  funext i
  rw [Ty.relabel, relabelTys_eq_map, List.map_map, List.map_map]
  rfl

/-! ## Names -/

theorem Lockstep.Related.existing {s : ι → State} (hs : L.Related d s) {id : Ident}
    (hid : L.Allowed ⟨.file, id⟩) :
    ∃ e, ∀ i, Check.existing (s i) ((L.label i).name .ordinary id.name) = e := by
  obtain ⟨x, hx⟩ := L.get? hs.files hid (.inl rfl)
  refine ⟨x.map fun y => (y.kind, y.defined), fun i => ?_⟩
  rw [Check.existing, hx i, Option.map_map]
  rfl

namespace Check

theorem bindGlobal_steps {id : Ident} (hid : L.Allowed ⟨.file, id⟩) {ty : Ty} (hty : L.Knows ty) :
    L.Goes d d fun i => bindGlobal (id.relabel (L.label i) .ordinary) (ty.relabel (L.label i)) := by
  intro s hs
  obtain ⟨e, he⟩ := hs.existing hid
  obtain ⟨b, hb⟩ := L.isIncomplete hs.tables hty
  have hfiles := (hs.withOrders (L.record hs.orders hid)).withFiles
    (L.bind hs.files hid (x := .ofVariable id.name ty id.span) rfl)
  simp only [bindGlobal_apply, Ident.relabel, he, hb]
  cases Verdict.judge e .var true with
  | clash kind => exact ⟨trivial, hs, .one kind hid⟩
  | fresh | completes =>
    refine ⟨trivial, ?_, .nil⟩
    cases b with
    | true => exact hfiles.withQueues (L.enqueue hs.queues (d := ⟨id, ty⟩) hid)
    | false => exact hfiles

theorem bindFunction_steps {id : Ident} (hid : L.Allowed ⟨.file, id⟩) (ty : Ty) (hasBody : Bool) :
    L.Goes d d fun i =>
      bindFunction (id.relabel (L.label i) .ordinary) (ty.relabel (L.label i)) hasBody := by
  intro s hs
  obtain ⟨e, he⟩ := hs.existing hid
  simp only [bindFunction_apply, Ident.relabel, he]
  cases Verdict.judge e .func hasBody with
  | clash kind => exact ⟨trivial, hs, .one kind hid⟩
  | fresh =>
    refine ⟨trivial, (hs.withOrders (L.record hs.orders hid)).withFiles ?_, .nil⟩
    exact L.bind hs.files hid (x := .ofFunction id.name ty hasBody id.span) rfl
  | completes => exact ⟨trivial, hs.withFiles (L.define hs.files hid ty), .nil⟩

/-- A variable at file scope. -/
theorem bindVariable_steps_file {id : Ident} (hid : L.Allowed ⟨.file, id⟩) {ty : Ty}
    (hty : L.Knows ty) :
    L.Goes 0 0 fun i =>
      bindVariable (id.relabel (L.label i) .ordinary) (ty.relabel (L.label i)) := by
  intro s hs
  obtain ⟨inner, hlength, hinner⟩ := hs.inner
  obtain rfl := List.length_eq_zero_iff.1 hlength
  obtain ⟨b, hb⟩ := L.isIncomplete hs.tables hty
  have heq := fun i =>
    bindVariable_apply_file (hinner i) (id.relabel (L.label i) .ordinary) (ty.relabel (L.label i))
  simp only [heq, hb, Ty.isArray_relabel]
  cases b && ty.isArray with
  | true => exact ⟨trivial, hs, .one .incompleteType hid⟩
  | false => exact bindGlobal_steps hid hty s hs

/-- A variable of a function. -/
theorem bindVariable_steps_inner {id : Ident} (hid : L.Allowed ⟨.inner, id⟩) {ty : Ty}
    (hty : L.Knows ty) :
    L.Goes (d + 1) (d + 1) fun i =>
      bindVariable (id.relabel (L.label i) .ordinary) (ty.relabel (L.label i)) := by
  intro s hs
  obtain ⟨inner, hlength, hinner⟩ := hs.inner
  obtain ⟨here, outer, rfl⟩ := List.exists_cons_of_length_eq_add_one hlength
  obtain ⟨b, hb⟩ := L.isIncomplete hs.tables hty
  have hhere := fun i => here.get?_relabel (L.label i) id.name
  have heq := fun i =>
    bindVariable_apply_inner (hinner i) (id.relabel (L.label i) .ordinary) (ty.relabel (L.label i))
  simp only [heq]
  simp only [hb, Ident.relabel, hhere, Option.isSome_map]
  cases b with
  | true => exact ⟨trivial, hs, .one .incompleteType hid⟩
  | false =>
    cases (here.get? id.name).isSome with
    | true => exact ⟨trivial, hs, .one .redefinition hid⟩
    | false =>
      have h := hs.withInner (here.bind (.ofVariable id.name ty id.span) :: outer)
      simp only [List.map_cons, ← Scope.bind_relabel] at h
      rw [List.length_cons, ← List.length_cons (a := here), hlength] at h
      exact ⟨trivial, h, .nil⟩

theorem bindParams_steps (params : List TypedIdent) (h : ∀ p ∈ params, L.Declares .inner p) :
    L.Goes (d + 1) (d + 1) fun i =>
      bindParams (params.map (TypedIdent.relabel (L.label i) .ordinary)) := by
  induction params with
  | nil => exact .pure trivial
  | cons p params ih =>
    rw [List.forall_mem_cons] at h
    exact (bindVariable_steps_inner h.1.1 h.1.2).next (ih h.2)

end Check

theorem firstRepeated?_relabel (ρ : Relabeling) (seen : List String) (ids : List Ident) :
    firstRepeated? (seen.map (ρ.name .ordinary)) (ids.map (Ident.relabel ρ .ordinary)) =
      (firstRepeated? seen ids).map (Ident.relabel ρ .ordinary) := by
  induction ids generalizing seen with
  | nil => rfl
  | cons id more ih =>
    rw [List.map_cons, firstRepeated?, firstRepeated?, Ident.relabel, Relabeling.contains_map]
    split
    · rfl
    · exact ih (id.name :: seen)

theorem Check.checkParams_steps (params : List TypedIdent)
    (h : ∀ p ∈ params, L.Declares .inner p) :
    L.Goes d d fun i =>
      checkParams (params.map (TypedIdent.relabel (L.label i) .ordinary)) := by
  have hids : ∀ i, firstRepeated? []
      ((params.map (TypedIdent.relabel (L.label i) .ordinary)).map (·.ident)) =
        (firstRepeated? [] (params.map (·.ident))).map (Ident.relabel (L.label i) .ordinary) := by
    intro i
    rw [← firstRepeated?_relabel, List.map_map, List.map_map]
    rfl
  simp only [checkParams, hids]
  cases hrep : firstRepeated? [] (params.map (·.ident)) with
  | none => exact .pure trivial
  | some id =>
    obtain ⟨p, hp, rfl⟩ := List.mem_map.1 (firstRepeated?_mem hrep)
    exact .report .redefinition (h p hp).1

/-! ## Expressions -/

/-- A name that the inner scopes bind, or the file scope. -/
theorem ScopeChain.isNone_find? (t : ScopeChain) (name : String) :
    (t.find? name).isNone = (t.inner.all (fun s => (s.get? name).isNone) &&
      (t.file.get? name).isNone) := by
  rw [Bool.eq_iff_iff]
  simp [find?, List.findSome?_eq_none_iff]

theorem Check.checkName_steps {id : Ident} (hid : L.Allowed ⟨.use, id⟩) :
    L.Goes d d fun i => checkName (id.relabel (L.label i) .ordinary) := by
  refine Steps.state.bind fun s hs => ?_
  refine .ite ?_ (fun _ => .report .undeclaredUse hid) fun _ => .pure trivial
  obtain ⟨inner, -, hinner⟩ := hs.inner
  obtain ⟨x, hx⟩ := L.get? hs.files hid (.inr rfl)
  refine ⟨inner.all (fun s => (s.get? id.name).isNone) && x.isNone, fun i => ?_⟩
  rw [ScopeChain.isNone_find?, hinner i, Ident.relabel, hx i, List.all_map, Option.isNone_map]
  simp only [Function.comp_def, Scope.get?_relabel, Option.isNone_map]

mutual

theorem Expr.check_steps : (e : Expr) → (∀ id ∈ e.names, L.Allowed ⟨.use, id⟩) →
    L.Goes d d fun i => (e.relabel (L.label i)).check
  | .literal _ _, _ => .pure trivial
  | .name id, h => Check.checkName_steps (h id (by simp [Expr.names]))
  | .binary _ left right _, h => by
    rw [Expr.names, List.forall_mem_append] at h
    exact (left.check_steps h.1).next (right.check_steps h.2)
  | .unary _ operand _, h => operand.check_steps h
  | .call callee args _, h => by
    rw [Expr.names, List.forall_mem_append] at h
    exact (callee.check_steps h.1).next (checkExprs_steps args h.2)
  | .index base offset _, h => by
    rw [Expr.names, List.forall_mem_append] at h
    exact (base.check_steps h.1).next (offset.check_steps h.2)
  | .member base _ _ _, h => base.check_steps h

theorem checkExprs_steps : (es : List Expr) → (∀ id ∈ exprNames es, L.Allowed ⟨.use, id⟩) →
    L.Goes d d fun i => checkExprs (relabelExprs (L.label i) es)
  | [], _ => .pure trivial
  | e :: more, h => by
    rw [exprNames, List.forall_mem_append] at h
    exact (e.check_steps h.1).next (checkExprs_steps more h.2)

end

theorem checkOption_steps (e : Option Expr) (h : ∀ id ∈ optionNames e, L.Allowed ⟨.use, id⟩) :
    L.Goes d d fun i => checkOption (e.map (Expr.relabel (L.label i))) := by
  cases e with
  | none => exact .pure trivial
  | some e => exact e.check_steps h

/-! ## Statements -/

theorem Check.openScope_steps : L.Goes d (d + 1) fun _ => openScope := by
  intro s hs
  obtain ⟨inner, rfl, hinner⟩ := hs.inner
  have h := hs.withInner (.empty :: inner)
  simp only [List.map_cons, ← hinner] at h
  exact ⟨trivial, h, .nil⟩

theorem Check.closeScope_steps : L.Goes (d + 1) d fun _ => closeScope := by
  intro s hs
  obtain ⟨inner, hlength, hinner⟩ := hs.inner
  obtain ⟨here, outer, rfl⟩ := List.exists_cons_of_length_eq_add_one hlength
  have hclose : ∀ i, closeScope (s i) = ⟨(),
      { s i with scopes := ⟨(s i).scopes.file, outer.map (Scope.relabel (L.label i))⟩ },
      [.exited (outer.map (Scope.relabel (L.label i))).length]⟩ := by
    intro i
    have hpop : (s i).scopes.pop? =
        some ⟨(s i).scopes.file, outer.map (Scope.relabel (L.label i))⟩ := by
      rw [ScopeChain.pop?, hinner i, List.map_cons]
    unfold closeScope
    simp only [bind_apply, Check.state, hpop]
    rfl
  simp only [hclose]
  obtain rfl : outer.length = d := by simpa using hlength
  exact ⟨trivial, hs.withInner outer, .nil⟩

theorem forall_mem_useLabels {ids : List Ident} (h : ∀ l ∈ useLabels ids, L.Allowed l) :
    ∀ id ∈ ids, L.Allowed ⟨.use, id⟩ :=
  fun _ hid => h _ (List.mem_map_of_mem hid)

mutual

theorem Stmt.check_steps (d : Nat) : (stmt : Stmt) → (∀ l ∈ stmt.labels, L.Allowed l) →
    L.Goes (d + 1) (d + 1) fun i => (stmt.relabel (L.label i)).check
  | .block stmts _, h => by
    refine Check.openScope_steps.next ?_
    exact (checkStmts_steps (d + 1) stmts h).next Check.closeScope_steps
  | .varDecl decl init _, h => by
    rw [Stmt.labels, List.forall_mem_append] at h
    simp only [Stmt.relabel, Stmt.check]
    refine (decl.resolve_steps .inner h.1).bind ?_
    rintro _ ⟨declared, ⟨hid, hty⟩, rfl⟩
    refine (Check.bindVariable_steps_inner hid hty).next ?_
    exact checkOption_steps init (forall_mem_useLabels h.2)
  | .expr value, h => value.check_steps (forall_mem_useLabels h)
  | .ret value _, h => checkOption_steps value (forall_mem_useLabels h)
  | .ifThen cond yes _, h => by
    rw [Stmt.labels, List.forall_mem_append] at h
    exact (cond.check_steps (forall_mem_useLabels h.1)).next (yes.check_steps d h.2)
  | .ifElse cond yes no _, h => by
    rw [Stmt.labels, List.forall_mem_append, List.forall_mem_append] at h
    refine (cond.check_steps (forall_mem_useLabels h.1)).next ?_
    exact (yes.check_steps d h.2.1).next (no.check_steps d h.2.2)
  | .loop cond body _, h => by
    rw [Stmt.labels, List.forall_mem_append] at h
    exact (cond.check_steps (forall_mem_useLabels h.1)).next (body.check_steps d h.2)
  | .brk _, _ | .cont _, _ | .empty _, _ => .pure trivial

theorem checkStmts_steps (d : Nat) : (stmts : List Stmt) → (∀ l ∈ stmtLabels stmts, L.Allowed l) →
    L.Goes (d + 1) (d + 1) fun i => checkStmts (relabelStmts (L.label i) stmts)
  | [], _ => .pure trivial
  | stmt :: more, h => by
    rw [stmtLabels, List.forall_mem_append] at h
    exact (stmt.check_steps d h.1).next (checkStmts_steps d more h.2)

end

/-! ## Items -/

theorem Item.check_steps (item : Item) (h : ∀ l ∈ item.labels, L.Allowed l) :
    L.Goes 0 0 fun i => (item.relabel (L.label i)).check := by
  cases item with
  | function sig body =>
    rw [labels, Signature.labels, List.forall_mem_append, List.forall_mem_append,
      List.forall_mem_append, List.forall_mem_singleton] at h
    obtain ⟨⟨hret, hparams, hname⟩, hbody⟩ := h
    simp only [relabel, check]
    refine (sig.resolve_steps hret hparams).bind ?_
    rintro _ ⟨ty, params, hps, rfl⟩
    refine (Check.bindFunction_steps hname ty true).next ?_
    refine Check.openScope_steps.next ?_
    refine (Check.bindParams_steps params hps).next ?_
    exact (checkStmts_steps 0 body.stmts hbody).next Check.closeScope_steps
  | prototype sig =>
    rw [labels, Signature.labels, List.forall_mem_append, List.forall_mem_append,
      List.forall_mem_singleton] at h
    obtain ⟨hret, hparams, hname⟩ := h
    simp only [relabel, check]
    refine (sig.resolve_steps hret hparams).bind ?_
    rintro _ ⟨ty, params, hps, rfl⟩
    exact (Check.checkParams_steps params hps).next (Check.bindFunction_steps hname ty false)
  | global decl =>
    simp only [relabel, check]
    refine (decl.resolve_steps .file h).bind ?_
    rintro _ ⟨declared, ⟨hid, hty⟩, rfl⟩
    exact Check.bindVariable_steps_file hid hty
  | tagOnly specifier =>
    simp only [relabel, check]
    exact (specifier.resolve_steps h).bind fun _ _ => .pure trivial

theorem checkItems_steps (items : List Item) (h : ∀ item ∈ items, ∀ l ∈ item.labels, L.Allowed l) :
    L.Goes 0 0 fun i => checkItems (items.map (Item.relabel (L.label i))) := by
  induction items with
  | nil => exact .pure trivial
  | cons item items ih =>
    rw [List.forall_mem_cons] at h
    exact (item.check_steps h.1).next (ih h.2)

/-! ## Runs of the same tree -/

namespace Lockstep

variable (hlabel : ∀ i, L.label i = .refl)

include hlabel

theorem Findings.errors_eq {errors : ι → List SemanticError} (h : L.Findings errors) (i j : ι) :
    errors i = errors j := by
  obtain ⟨fs, -, heq⟩ := h
  rw [heq i, heq j, hlabel i, hlabel j]

theorem goes_check (item : Item) (h : ∀ l ∈ item.labels, L.Allowed l) :
    L.Goes 0 0 fun _ => item.check := by
  have hsteps := item.check_steps h
  simp only [hlabel, Item.relabel_refl] at hsteps
  exact hsteps

theorem goes_checkItems (items : List Item)
    (h : ∀ item ∈ items, ∀ l ∈ item.labels, L.Allowed l) :
    L.Goes 0 0 fun _ => checkItems items := by
  have hsteps := checkItems_steps items h
  simp only [hlabel, relabelItems_refl] at hsteps
  exact hsteps

end Lockstep

/-! ## Programs in two parts -/

theorem stateAfter_append (before after : List Item) :
    stateAfter (before ++ after) = (checkItems after (stateAfter before)).state := by
  rw [stateAfter, checkItems_append]
  rfl

theorem Program.immediate_append (before after : List Item) :
    immediate ⟨before ++ after⟩ =
      immediate ⟨before⟩ ++ Event.errors (checkItems after (stateAfter before)).events := by
  rw [immediate, checkItems_append]
  exact Event.errors_append _ _

/-! ## The end of a program -/

/-- The waiting globals whose type is still incomplete. -/
def State.overdue (s : State) : List TypedIdent := s.pending.filter (s.structs.isIncomplete ·.ty)

theorem errors_settlePending (s : State) :
    Event.errors (settlePending s).events = s.overdue.map (.atIdent .incompleteType ·.ident) := by
  rw [settlePending_apply, State.overdue, Event.errors, List.filterMap_map]
  generalize s.pending = pending
  induction pending with
  | nil => rfl
  | cons d pending ih =>
    by_cases h : s.structs.isIncomplete d.ty = true
    · simp [State.settled, Event.error?, h, ih]
    · simp [State.settled, Event.error?, h, ih]

theorem Program.deferred_eq_overdue (p : Program) :
    p.deferred = (stateAfter p.items).overdue.map (.atIdent .incompleteType ·.ident) :=
  errors_settlePending _

end MiniC
