import MiniC.Proofs.Framing

/-!
# Stored types are well formed

What a scope or a struct entry stores for a variable or a member is a type that such a thing can
have (`Ty.Storable`): there is no function in it, its arrays have sizes that fit 32 bits, and its
tags have entries. For a function, the result is a type that a specifier can name, and the
parameters are storable (`Ty.Callable`). `State.Sound` says this of everything that a state stores,
in the inner scopes too, and `Check.Stores` that a step keeps it.

A step may rely on types that were found storable before it, and its value may bring others. That
they stay storable rests on one fact: no struct entry is ever dropped (`StructTable.Within`).
-/

namespace MiniC

/-! ## Types that can be stored -/

namespace Ty

/-- A type that a specifier can name. -/
def isBase : Ty → Bool
  | .int | .char | .struct _ => true
  | .array _ _ | .pointer _ | .function _ _ => false

/-- The type of a variable or a member: data only, of sizes from 1 to 2^31 - 1, and all its tags
have entries in the table. -/
def Storable (t : StructTable) : Ty → Prop
  | .int | .char => True
  | .array elem size => 1 ≤ size ∧ size ≤ 2147483647 ∧ elem.Storable t
  | .pointer target => target.Storable t
  | .struct tag => t.mentions tag = true
  | .function _ _ => False

/-- The type of a function that returns what a specifier can name and takes data. -/
def Callable (t : StructTable) : Ty → Prop
  | .function ret params =>
    ret.isBase = true ∧ ret.Storable t ∧ ∀ p ∈ params, p.Storable t
  | _ => False

end Ty

namespace StructTable

/-- Every entry of `t` has one in `u`. -/
def Within (t u : StructTable) : Prop := ∀ tag, t.mentions tag = true → u.mentions tag = true

theorem within_mention (t : StructTable) (tag : String) : t.Within (t.mention tag) := by
  intro n hn
  obtain ⟨d, hd⟩ := Option.isSome_iff_exists.1 hn
  rw [mentions, get?_mention, hd]
  rfl

theorem within_update (t : StructTable) (tag : String) (f : StructDef → StructDef) :
    t.Within (t.update tag f) := by
  intro n hn
  rw [mentions_update]
  exact hn

end StructTable

namespace Ty

variable {t u : StructTable}

theorem Storable.mono (h : t.Within u) : {ty : Ty} → ty.Storable t → ty.Storable u
  | .int, _ | .char, _ => trivial
  | .array _ _, hty => ⟨hty.1, hty.2.1, hty.2.2.mono h⟩
  | .pointer target, hty => by
    have htarget : target.Storable t := hty
    exact htarget.mono h
  | .struct tag, hty => h tag hty

theorem Callable.mono (h : t.Within u) {ty : Ty} (hty : ty.Callable t) : ty.Callable u := by
  cases ty with
  | function ret params =>
    obtain ⟨hbase, hret, hparams⟩ := hty
    exact ⟨hbase, hret.mono h, fun p hp => (hparams p hp).mono h⟩
  | _ => exact hty

end Ty

theorem Bound.number_le (text : String) : Bound.number text ≤ 2147483647 := by
  unfold Bound.number
  split
  split
  · decide
  · dsimp only
    split
    · rename_i h
      exact h.2
    · decide

theorem Bound.over_storable {t : StructTable} {elem : Ty} (h : elem.Storable t) (size : Bound) :
    (size.over elem).Storable t := by
  have hle := Bound.number_le size.text
  unfold Bound.over
  split
  · exact h
  · refine ⟨?_, ?_, h⟩ <;> omega

theorem Declarator.over_storable {t : StructTable} {base : Ty} (h : base.Storable t)
    (d : Declarator) : (d.over base).Storable t := by
  apply d.over_of_base h
  · intro ty hty
    exact hty
  · intro ty size hty
    exact Bound.over_storable hty size

theorem Specifier.isBase_base (spec : Specifier) : spec.base.isBase = true := by
  cases spec <;> rfl

/-! ## Sound states -/

/-- The symbol has a type of its kind. -/
def Symbol.Sound (t : StructTable) (x : Symbol) : Prop :=
  match x.kind with
  | .var => x.ty.Storable t
  | .func => x.ty.Callable t

theorem Symbol.Sound.mono {t u : StructTable} (h : t.Within u) {x : Symbol} (hx : x.Sound t) :
    x.Sound u := by
  unfold Symbol.Sound at hx ⊢
  split at hx
  · exact Ty.Storable.mono h hx
  · exact Ty.Callable.mono h hx

/-- All members in the entries of the table are storable. -/
def StructTable.Sound (t : StructTable) : Prop :=
  ∀ tag d, t.get? tag = some d → ∀ f ∈ d.fields, f.ty.Storable t

/-- All symbols that the scope binds are sound. -/
def Scope.Sound (t : StructTable) (s : Scope) : Prop := ∀ name x, s.get? name = some x → x.Sound t

/-- Everything that is stored has a type of its kind. -/
structure State.Sound (s : State) : Prop where
  symbols : ∀ frame ∈ s.scopes.frames, frame.Sound s.structs
  fields : s.structs.Sound

namespace Scope.Sound

variable {t : StructTable} {s : Scope}

theorem empty : Scope.empty.Sound t := by
  intro name x hx
  cases hx

theorem bind (h : s.Sound t) {x : Symbol} (hx : x.Sound t) : (s.bind x).Sound t := by
  intro name y hy
  rw [get?_bind] at hy
  split at hy
  · cases hy
    exact hx
  · exact h name y hy

/-- The symbol of a name may be changed if it is sound then. -/
theorem update (h : s.Sound t) {name : String} {x : Symbol} (hget : s.get? name = some x)
    {f : Symbol → Symbol} (hx : (f x).Sound t) : (s.update name f).Sound t := by
  intro n y hy
  rw [get?_update] at hy
  split at hy
  · next hn =>
    rw [← hn, hget] at hy
    cases hy
    exact hx
  · exact h n y hy

end Scope.Sound

namespace StructTable.Sound

variable {t : StructTable}

theorem mention (h : t.Sound) (tag : String) : (t.mention tag).Sound := by
  intro n d hd f hf
  rw [get?_mention, Option.or_eq_some_iff] at hd
  rcases hd with hd | ⟨-, hd⟩
  · exact (h n d hd f hf).mono (t.within_mention tag)
  · -- the new entry has no members
    split at hd
    · cases hd
      cases hf
    · cases hd

/-- An entry may be changed if it then has storable members. -/
theorem update (h : t.Sound) (tag : String) {g : StructDef → StructDef}
    (hfields : ∀ d, ∀ f ∈ (g d).fields, f.ty.Storable t) : (t.update tag g).Sound := by
  intro n d hd f hf
  apply Ty.Storable.mono (t.within_update tag g)
  rw [get?_update] at hd
  split at hd
  · obtain ⟨e, -, rfl⟩ := Option.map_eq_some_iff.1 hd
    exact hfields e f hf
  · exact h n d hd f hf

end StructTable.Sound

namespace State.Sound

variable {s : State}

theorem initial : State.initial.Sound := by
  constructor
  · intro frame hframe
    rw [List.mem_singleton.1 hframe]
    exact .empty
  · intro tag d hd
    cases hd

theorem withStructs (h : s.Sound) {u : StructTable} (hwithin : s.structs.Within u) (hu : u.Sound) :
    ({ s with structs := u } : State).Sound :=
  ⟨fun frame hframe name x hx => (h.symbols frame hframe name x hx).mono hwithin, hu⟩

theorem push (h : s.Sound) : ({ s with scopes := s.scopes.push } : State).Sound :=
  ⟨List.forall_mem_cons.2 ⟨.empty, h.symbols⟩, h.fields⟩

theorem pop? (h : s.Sound) {scopes : ScopeChain} (hpop : s.scopes.pop? = some scopes) :
    ({ s with scopes := scopes } : State).Sound := by
  rcases hin : s.scopes.inner with _ | ⟨here, outer⟩
  · rw [ScopeChain.pop?, hin] at hpop
    cases hpop
  · rw [ScopeChain.pop?, hin] at hpop
    cases hpop
    refine ⟨?_, h.fields⟩
    intro frame hframe
    apply h.symbols frame
    simp only [ScopeChain.frames, hin, List.cons_append]
    exact List.mem_cons_of_mem here hframe

theorem file (h : s.Sound) : s.scopes.file.Sound s.structs :=
  h.symbols _ (List.mem_append_right _ (List.mem_singleton_self _))

/-- The file scope may be another sound one. -/
theorem withFile (h : s.Sound) {file : Scope} (hfile : file.Sound s.structs) :
    ({ s with scopes := ⟨file, s.scopes.inner⟩ } : State).Sound := by
  refine ⟨?_, h.fields⟩
  intro frame hframe
  rcases List.mem_append.1 hframe with hframe | hframe
  · exact h.symbols frame (List.mem_append_left _ hframe)
  · rw [List.mem_singleton.1 hframe]
    exact hfile

/-- A symbol of its kind may be bound in the innermost scope. -/
theorem bindInner (h : s.Sound) {here : Scope} {outer : List Scope}
    (hin : s.scopes.inner = here :: outer) {x : Symbol} (hx : x.Sound s.structs) :
    ({ s with scopes := ⟨s.scopes.file, here.bind x :: outer⟩ } : State).Sound := by
  have hsymbols := h.symbols
  rw [ScopeChain.frames, hin, List.cons_append, List.forall_mem_cons] at hsymbols
  exact ⟨List.forall_mem_cons.2 ⟨hsymbols.1.bind hx, hsymbols.2⟩, h.fields⟩

end State.Sound

/-! ## Steps that store -/

/-- The outcome of a step from `s` to a sound state, in which the types `gives` are storable. -/
structure Outcome.Stored (r : Outcome α) (s : State) (gives : α → List Ty) : Prop where
  sound : r.state.Sound
  within : s.structs.Within r.state.structs
  storable : ∀ ty ∈ gives r.value, ty.Storable r.state.structs

namespace Check

/-- The outcome from every sound state in which the types `given` are storable. -/
def Stores (given : List Ty) (m : Check α) (gives : α → List Ty) : Prop :=
  ∀ s : State, s.Sound → (∀ ty ∈ given, ty.Storable s.structs) → (m s).Stored s gives

namespace Stores

variable {m : Check α} {f : α → Check β} {given more : List Ty} {gives : α → List Ty}
  {after : β → List Ty}

protected theorem pure {a : α} (h : gives a ⊆ given) : Stores given (pure a) gives :=
  fun _ hs hgiven => ⟨hs, fun _ htag => htag, fun ty hty => hgiven ty (h hty)⟩

/-- A step that changes nothing. -/
theorem of_state (hm : ∀ s, (m s).state = s) : Stores given m (fun _ => []) := by
  intro s hs _
  refine ⟨?_, ?_, by simp⟩
  · rw [hm]
    exact hs
  · rw [hm]
    exact fun _ h => h

theorem weaken (h : Stores given m gives) (hsub : given ⊆ more) : Stores more m gives :=
  fun s hs hgiven => h s hs fun ty hty => hgiven ty (hsub hty)

/-- What was storable at the start is so at the end. -/
theorem keep (h : Stores given m gives) : Stores given m (fun a => gives a ++ given) := by
  intro s hs hgiven
  have hr := h s hs hgiven
  refine ⟨hr.sound, hr.within, ?_⟩
  intro ty hty
  rcases List.mem_append.1 hty with hty | hty
  · exact hr.storable ty hty
  · exact (hgiven ty hty).mono hr.within

protected theorem bind (hm : Stores given m gives)
    (hf : ∀ a, Stores (gives a ++ given) (f a) after) : Stores given (m >>= f) after := by
  intro s hs hgiven
  have h := hm.keep s hs hgiven
  have h' := hf (m s).value (m s).state h.sound h.storable
  exact ⟨h'.sound, fun tag htag => h'.within tag (h.within tag htag), h'.storable⟩

/-- One step and then another that has no use for its value. -/
theorem andThen {n : Check β} (hm : Stores given m (fun _ => [])) (hn : Stores given n after) :
    Stores given (do let _ ← m; n) after := hm.bind fun _ => hn

theorem report (kind : SemanticError.Kind) (id : Ident) :
    Stores given (report kind id) (fun _ => []) := of_state fun _ => rfl

theorem of_looked {n : Check Unit} {ids : List Ident} (h : ∀ s, n s = s.looked ids) :
    Stores given n (fun _ => []) := of_state fun s => by rw [h s]; rfl

end Stores

/-! ## Resolving -/

theorem mentionTag_stores (tag : String) :
    Stores [] (mentionTag tag) (fun _ => [.struct tag]) := by
  intro s hs _
  rw [mentionTag_apply]
  split
  · rename_i hmentions
    refine ⟨hs, fun _ h => h, ?_⟩
    intro ty hty
    rw [List.mem_singleton.1 hty]
    exact hmentions
  · have hwithin := s.structs.within_mention tag
    refine ⟨hs.withStructs hwithin (hs.fields.mention tag), hwithin, ?_⟩
    intro ty hty
    rw [List.mem_singleton.1 hty]
    exact s.structs.mentions_mention tag

theorem defineTag_stores (tag : String) : Stores [] (defineTag tag) (fun _ => []) := by
  intro s hs _
  rw [defineTag_apply]
  split
  · rename_i u hdefine
    unfold StructTable.define? at hdefine
    split at hdefine
    · cases hdefine
    · cases hdefine
      have hwithin : s.structs.Within ((s.structs.mention tag).update tag
          fun d => { d with fields := [], complete := true }) := by
        intro n hn
        exact StructTable.within_update _ tag _ n (s.structs.within_mention tag n hn)
      refine ⟨hs.withStructs hwithin ?_, hwithin, by simp⟩
      exact (hs.fields.mention tag).update tag (by simp)
  · exact ⟨hs, fun _ h => h, by simp⟩

theorem giveFields_stores (tag : String) (fields : List Field) :
    Stores (fields.map (·.ty)) (giveFields tag fields) (fun _ => []) := by
  intro s hs hgiven
  have hwithin : s.structs.Within (s.structs.giveFields tag fields) :=
    s.structs.within_update tag _
  refine ⟨hs.withStructs hwithin ?_, hwithin, by simp⟩
  exact hs.fields.update tag fun _ f hf => hgiven f.ty (List.mem_map_of_mem hf)

theorem state_arrayOf (id : Ident) (elem : Ty) (size : Bound) (s : State) :
    (arrayOf id elem size s).state = s := by
  unfold arrayOf
  by_cases h : Bound.number size.text ≤ 0
  · simp only [h, ↓reduceIte]
    rfl
  · simp only [h, ↓reduceIte]
    rfl

end Check

open Check (Stores)

theorem Declarator.state_typeOver (id : Ident) (base : Ty) (d : Declarator) (s : State) :
    (d.typeOver id base s).state = s := by
  fun_induction Declarator.typeOver id base d generalizing s with
  | case1 => rfl
  | case2 inner _ ih => exact ih s
  | case3 elem size _ _ ih => rw [Check.bind_apply, Check.state_arrayOf, ih]
  | case4 inner _ _ ih => exact ih s
  | case5 _ _ _ size _ => exact Check.state_arrayOf id base size s
  | case6 inner size _ _ ih => rw [Check.bind_apply, Check.state_arrayOf, ih]

theorem Declarator.resolve_stores (base : Ty) (d : Declarator) :
    Stores [base] (d.resolve base) (fun _ => [d.over base]) := by
  have hstate : ∀ s, (d.resolve base s).state = s := fun s => d.state_typeOver d.core base s
  intro s hs hgiven
  refine ⟨by rw [hstate]; exact hs, by rw [hstate]; exact fun _ h => h, ?_⟩
  intro ty hty
  rw [List.mem_singleton.1 hty, hstate]
  exact d.over_storable (hgiven base (List.mem_singleton_self _))

mutual

theorem Specifier.resolve_stores :
    (spec : Specifier) → Stores [] spec.resolve (fun _ => [spec.base])
  | .int _ | .char _ => by
    intro s hs _
    refine ⟨hs, fun _ h => h, ?_⟩
    intro ty hty
    rw [List.mem_singleton.1 hty]
    trivial
  | .structRef tag _ => Check.mentionTag_stores tag.name
  | .structDef tag members _ => by
    rw [Specifier.resolve]
    apply (Check.mentionTag_stores tag.name).bind
    intro ty
    apply Stores.bind ((Check.defineTag_stores tag.name).weaken (List.nil_subset _))
    intro new
    split
    · apply Stores.bind ((resolveMembers_stores [] members).weaken (List.nil_subset _))
      intro fields
      apply Stores.andThen ((Check.giveFields_stores tag.name fields).weaken ?_)
      · exact .pure (by simp [Specifier.base])
      · exact List.subset_append_left _ _
    · apply Stores.andThen (.report _ tag)
      exact .pure (by simp [Specifier.base])

theorem Decl.resolve_stores : (d : Decl) → Stores [] d.resolve (fun _ => [d.ty])
  | ⟨specifier, declarator, _⟩ => by
    rw [Decl.resolve, Check.bind_eq_of_value (Check.Resolves.value_eq specifier.resolve_resolves)]
    exact specifier.resolve_stores.bind fun _ => declarator.resolve_stores specifier.base

theorem resolveMembers_stores (fields : List Field) :
    (members : List Decl) →
      Stores (fields.map (·.ty)) (resolveMembers fields members) (fun fs => fs.map (·.ty))
  | [] => .pure (List.Subset.refl _)
  | member :: more => by
    rw [resolveMembers, Check.bind_eq_of_value (Check.Resolves.value_eq member.resolve_resolves)]
    apply Stores.bind (member.resolve_stores.weaken (List.nil_subset _))
    intro _
    split
    · apply Stores.andThen (.report _ _)
      exact (resolveMembers_stores fields more).weaken (List.subset_append_right _ _)
    · have hadded : (fields ++ [Field.mk member.core.name member.ty]).map (·.ty) ⊆
          [member.ty] ++ fields.map (·.ty) := by
        intro ty hty
        simpa [or_comm] using hty
      apply Stores.bind (.of_state fun _ => rfl)
      intro s
      split
      · apply Stores.andThen (.report _ _)
        exact (resolveMembers_stores _ more).weaken hadded
      · exact (resolveMembers_stores _ more).weaken hadded

end

theorem resolveDecls_stores (ds : List Decl) :
    Stores [] (resolveDecls ds) (fun _ => ds.map Decl.ty) := by
  induction ds with
  | nil => exact .pure (List.Subset.refl _)
  | cons d ds ih =>
    apply d.resolve_stores.bind
    intro _
    apply Stores.bind (ih.weaken (List.nil_subset _))
    intro _
    apply Stores.pure
    intro ty hty
    simpa [or_comm] using hty

/-- The types in the header of a function, the result first. -/
def Signature.types (sig : Signature) : List Ty := sig.ret.base :: sig.params.map Decl.ty

theorem Signature.resolve_stores (sig : Signature) :
    Stores [] sig.resolve (fun _ => sig.types) := by
  apply sig.ret.resolve_stores.bind
  intro _
  apply Stores.bind ((resolveDecls_stores sig.params).weaken (List.nil_subset _))
  intro _
  apply Stores.pure
  intro ty hty
  simpa [Signature.types, or_comm] using hty

/-! ## Binding -/

namespace Check

theorem bindVariable_stores (id : Ident) (ty : Ty) :
    Stores [ty] (bindVariable id ty) (fun _ => []) := by
  intro s hs hgiven
  have hsame : ∀ events, (⟨(), s, events⟩ : Outcome Unit).Stored s (fun _ => []) :=
    fun _ => ⟨hs, fun _ h => h, by simp⟩
  have hx : (Symbol.ofVariable id.name ty id.span).Sound s.structs :=
    hgiven ty (List.mem_singleton_self _)
  rcases hin : s.scopes.inner with _ | ⟨here, outer⟩
  · rw [bindVariable_apply_file hin]
    split
    · exact hsame _
    · cases hget : s.scopes.file.get? id.name with
      | none =>
        rw [bindGlobal_of_none hget]
        have hbound := hs.withFile (hs.file.bind hx)
        exact ⟨⟨hbound.symbols, hbound.fields⟩, fun _ h => h, by simp⟩
      | some x =>
        obtain ⟨kind, hclash⟩ := bindGlobal_of_some hget ty
        rw [hclash]
        exact hsame _
  · rw [bindVariable_apply_inner hin]
    split
    · exact hsame _
    · split
      · exact hsame _
      · exact ⟨hs.bindInner hin hx, fun _ h => h, by simp⟩

theorem bindParams_stores (params : List TypedIdent) :
    Stores (params.map (·.ty)) (bindParams params) (fun _ => []) := by
  induction params with
  | nil => exact .pure (List.nil_subset _)
  | cons p params ih =>
    apply Stores.andThen
    · exact (bindVariable_stores p.ident p.ty).weaken (by simp)
    · exact ih.weaken (List.subset_cons_self _ _)

/-- A function takes the type of its header, also where it was declared with another. -/
theorem bindFunction_stores (sig : Signature) (hasBody : Bool) :
    Stores sig.types (bindFunction sig.name sig.ty hasBody) (fun _ => []) := by
  intro s hs hgiven
  have hty : sig.ty.Callable s.structs := by
    refine ⟨sig.ret.isBase_base, hgiven _ List.mem_cons_self, ?_⟩
    intro p hp
    exact hgiven p (List.mem_cons_of_mem _ hp)
  rw [bindFunction_apply]
  split
  · have hx : (Symbol.ofFunction sig.name.name sig.ty hasBody sig.name.span).Sound s.structs := hty
    have hbound := hs.withFile (hs.file.bind hx)
    exact ⟨⟨hbound.symbols, hbound.fields⟩, fun _ h => h, by simp⟩
  · rename_i hcompletes
    -- what is completed is a function, so the type it takes is one of its kind
    obtain ⟨x, hget, hkind⟩ := Option.map_eq_some_iff.1 (Verdict.existing_of_judge hcompletes)
    rw [Prod.mk.injEq] at hkind
    refine ⟨hs.withFile (hs.file.update hget ?_), fun _ h => h, by simp⟩
    simp only [Symbol.Sound, hkind.1]
    exact hty
  · exact ⟨hs, fun _ h => h, by simp⟩

theorem checkParams_stores {given : List Ty} (params : List TypedIdent) :
    Stores given (checkParams params) (fun _ => []) := by
  unfold checkParams
  split
  · exact .report _ _
  · exact .pure (List.nil_subset _)

theorem scoped_stores {m : Check Unit} {given : List Ty} (h : Stores given m (fun _ => [])) :
    Stores given (do openScope; m; closeScope) (fun _ => []) := by
  intro s hs hgiven
  have hm := h { s with scopes := s.scopes.push } hs.push hgiven
  have hclose : ∀ s' : State, s'.Sound → (closeScope s').Stored s' (fun _ => []) := by
    intro s' hs'
    unfold closeScope
    rw [state_bind_apply]
    cases hpop : s'.scopes.pop? with
    | none => exact ⟨hs', fun _ h => h, by simp⟩
    | some scopes => exact ⟨hs'.pop? hpop, fun _ h => h, by simp⟩
  have hend := hclose _ hm.sound
  exact ⟨hend.sound, fun tag htag => hend.within tag (hm.within tag htag), by simp⟩

end Check

/-! ## Walking -/

mutual

theorem Stmt.check_stores : (stmt : Stmt) → Stores [] stmt.check (fun _ => [])
  | .block stmts _ => Check.scoped_stores (checkStmts_stores stmts)
  | .varDecl decl init _ => by
    rw [Stmt.check, Check.bind_eq_of_value (Check.Resolves.value_eq decl.resolve_resolves)]
    apply decl.resolve_stores.bind
    intro _
    exact (Check.bindVariable_stores _ _).andThen (.of_looked fun s => checkOption_apply s init)
  | .expr value => .of_looked fun s => value.check_apply s
  | .ret value _ => .of_looked fun s => checkOption_apply s value
  | .ifThen cond yes _ => (Stores.of_looked fun s => cond.check_apply s).andThen yes.check_stores
  | .ifElse cond yes no _ =>
    (Stores.of_looked fun s => cond.check_apply s).andThen
      (yes.check_stores.andThen no.check_stores)
  | .loop cond body _ => (Stores.of_looked fun s => cond.check_apply s).andThen body.check_stores
  | .brk _ | .cont _ | .empty _ => .pure (List.nil_subset _)

theorem checkStmts_stores : (stmts : List Stmt) → Stores [] (checkStmts stmts) (fun _ => [])
  | [] => .pure (List.nil_subset _)
  | stmt :: more => stmt.check_stores.andThen (checkStmts_stores more)

end

namespace Item

/-- The types in the header of an item. -/
def types : Item → List Ty
  | .function sig _ | .prototype sig => sig.types
  | .global decl => [decl.ty]
  | .tagOnly _ => []

theorem checkHeader_stores (item : Item) :
    Stores [] item.checkHeader (fun _ => item.types) := by
  cases item with
  | function sig _ =>
    exact sig.resolve_stores.bind fun _ => .pure (by simp [types])
  | prototype sig =>
    apply sig.resolve_stores.bind
    intro _
    rw [List.append_nil]
    exact (Check.checkParams_stores _).keep
  | global decl =>
    exact decl.resolve_stores.bind fun _ => .pure (by simp [types])
  | tagOnly specifier =>
    exact specifier.resolve_stores.bind fun _ => .pure (by simp [types])

theorem bindName_stores (item : Item) : Stores item.types item.bindName (fun _ => []) := by
  cases item with
  | function sig _ => exact Check.bindFunction_stores sig true
  | prototype sig => exact Check.bindFunction_stores sig false
  | global decl => exact Check.bindVariable_stores decl.core decl.ty
  | tagOnly _ => exact .pure (List.nil_subset _)

theorem walkBody_stores (item : Item) : Stores item.types item.walkBody (fun _ => []) := by
  cases item with
  | function sig body =>
    have hparams := Check.bindParams_stores (sig.params.map Decl.typed)
    have hbody := hparams.andThen ((checkStmts_stores body.stmts).weaken (List.nil_subset _))
    rw [walkBody, checkBody_eq]
    apply (Check.scoped_stores hbody).weaken
    rw [List.map_map]
    exact List.subset_cons_self _ _
  | prototype _ | global _ | tagOnly _ => exact .pure (List.nil_subset _)

/-- An item keeps a state sound. -/
theorem check_stores (item : Item) : Stores [] item.check (fun _ => []) := by
  rw [check_eq]
  apply item.checkHeader_stores.bind
  intro _
  rw [List.append_nil]
  exact item.bindName_stores.andThen item.walkBody_stores

end Item

theorem checkItems_stores (items : List Item) : Stores [] (checkItems items) (fun _ => []) := by
  induction items with
  | nil => exact .pure (List.nil_subset _)
  | cons item items ih => exact item.check_stores.andThen ih

theorem sound_stateAfter (items : List Item) : (stateAfter items).Sound :=
  (checkItems_stores items .initial .initial (by simp)).sound

/-- **Stored types are well formed.** After the analysis of a program, the type of every variable
and of every struct member is storable: it has no function in it, its arrays have sizes from 1 to
2^31 - 1, and its tags have entries. The type of every function is that of a function with storable
parameters that returns `int`, `char` or a struct that has an entry. -/
theorem run_stores_wellFormed_types (p : Program) :
    (∀ x ∈ p.run.result.symbols, x.kind = .var → x.ty.Storable p.run.result.structs) ∧
    (∀ x ∈ p.run.result.symbols, x.kind = .func → x.ty.Callable p.run.result.structs) ∧
    ∀ d ∈ p.run.result.structs.defs, ∀ f ∈ d.fields, f.ty.Storable p.run.result.structs := by
  have hsound := sound_stateAfter p.items
  have hdefs : ∀ d ∈ p.run.result.structs.defs, ∃ tag, p.run.result.structs.get? tag = some d :=
    fun d hd => (p.inStep_run.mem_defs_iff d).1 hd
  rw [p.symbols_run]
  rw [p.structs_run] at hdefs ⊢
  have hsymbols : ∀ x ∈ (stateAfter p.items).symbols, x.Sound (stateAfter p.items).structs := by
    intro x hx
    obtain ⟨name, -, hname⟩ := List.mem_filterMap.1 hx
    exact hsound.file name x hname
  refine ⟨?_, ?_, ?_⟩
  · intro x hx hkind
    have hs := hsymbols x hx
    rw [Symbol.Sound, hkind] at hs
    exact hs
  · intro x hx hkind
    have hs := hsymbols x hx
    rw [Symbol.Sound, hkind] at hs
    exact hs
  · intro d hd
    obtain ⟨tag, htag⟩ := hdefs d hd
    exact hsound.fields tag d htag

/-- An array of a struct that points to itself, and a function that is declared with one type and
then defined with another. -/
def linkedNodes : Program :=
  let place (n : Nat) : Span := ⟨n, n + 1, 1, n + 1⟩
  let node : Specifier := .structRef ⟨"N", place 2⟩ (place 1)
  let next : Decl := ⟨node, .pointer (.ident ⟨"next", place 4⟩) (place 3), place 1⟩
  let nodes : Specifier := .structDef ⟨"N", place 0⟩ [next] (place 0)
  let param : Decl := ⟨node, .pointer (.ident ⟨"n", place 9⟩) (place 8), place 7⟩
  ⟨[.global ⟨nodes, .array (.ident ⟨"a", place 5⟩) ⟨"8", place 6⟩ (place 5), place 0⟩,
    .prototype ⟨.int (place 7), ⟨"f", place 8⟩, [], place 7⟩,
    .function ⟨.int (place 7), ⟨"f", place 8⟩, [param], place 7⟩ ⟨[], place 10⟩]⟩

theorem linkedNodes_stores :
    (⟨"a", .var, .array (.struct "N") 8, true, ⟨5, 6, 1, 6⟩⟩ ∈ linkedNodes.run.result.symbols ∧
      (Ty.array (.struct "N") 8).Storable linkedNodes.run.result.structs) ∧
    (⟨"f", .func, .function .int [.pointer (.struct "N")], true, ⟨8, 9, 1, 9⟩⟩ ∈
        linkedNodes.run.result.symbols ∧
      (Ty.function .int [.pointer (.struct "N")]).Callable linkedNodes.run.result.structs) ∧
    ⟨"N", [⟨"next", .pointer (.struct "N")⟩], true⟩ ∈ linkedNodes.run.result.structs.defs ∧
      (Ty.pointer (.struct "N")).Storable linkedNodes.run.result.structs := by
  obtain ⟨hvars, hfuncs, hfields⟩ := run_stores_wellFormed_types linkedNodes
  have ha : ⟨"a", .var, .array (.struct "N") 8, true, ⟨5, 6, 1, 6⟩⟩ ∈
      linkedNodes.run.result.symbols := by decide
  have hf : ⟨"f", .func, .function .int [.pointer (.struct "N")], true, ⟨8, 9, 1, 9⟩⟩ ∈
      linkedNodes.run.result.symbols := by decide
  have hN : ⟨"N", [⟨"next", .pointer (.struct "N")⟩], true⟩ ∈
      linkedNodes.run.result.structs.defs := by decide
  exact ⟨⟨ha, hvars _ ha rfl⟩, ⟨hf, hfuncs _ hf rfl⟩, hN, hfields _ hN _ List.mem_cons_self⟩

end MiniC
