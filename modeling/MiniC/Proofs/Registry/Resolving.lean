import MiniC.Proofs.Registry.Basic

/-!
# Resolving struct definitions

Resolving keeps the table of struct tags in the form that the walked specifiers determine, and
reports what it has to report on them: each definition that comes too late and each member that
repeats a name is a redefinition, and a member that is kept although its type is incomplete is
reported, unless another definition completes the type later. An `Account` collects these duties,
and `Check.Registers` says that a step fulfils them. Names that are bound to variables and functions
can be redefined too, so an account has a place for them.
-/

namespace MiniC

/-! ## Accounts -/

/-- Collects what `f` gives for each mention after the ones before it. -/
def gather (f : List Mention → Mention → List α) (before : List Mention) : List Mention → List α
  | [] => []
  | w :: more => f before w ++ gather f (before ++ [w]) more

theorem gather_append (f : List Mention → Mention → List α) (before ws more : List Mention) :
    gather f before (ws ++ more) = gather f before ws ++ gather f (before ++ ws) more := by
  induction ws generalizing before with
  | nil => simp [gather]
  | cons w ws ih => simp [gather, ih]

namespace Mention

/-- The identifiers that a specifier redefines: its tag if it comes after a definition of that tag,
else the members of its list that repeat a name. -/
def redefined (before : List Mention) (w : Mention) : List Ident :=
  match w.members with
  | none => []
  | some members =>
    if (firstDefinition? before w.tag.name).isSome then [w.tag]
    else (repeatedMembers [] members).map Decl.core

/-- The members that a specifier adds to the registry. -/
def kept (before : List Mention) (w : Mention) : List Decl :=
  match w.members with
  | none => []
  | some members =>
    if (firstDefinition? before w.tag.name).isSome then [] else keptMembers [] members

end Mention

/-- What is reported on struct specifiers: redefinitions, and members of incomplete type. The names
of `bound` may be reported as redefinitions too. -/
structure Account where
  redefined : List Ident
  bound : List Ident
  kept : List Decl

namespace Account

/-- Nothing to report. -/
def empty : Account := ⟨[], [], []⟩

instance : Append Account where
  append a b := ⟨a.redefined ++ b.redefined, a.bound ++ b.bound, a.kept ++ b.kept⟩

theorem append_def (a b : Account) :
    a ++ b = ⟨a.redefined ++ b.redefined, a.bound ++ b.bound, a.kept ++ b.kept⟩ := rfl

theorem append_empty (a : Account) : a ++ empty = a := by
  simp [append_def, empty]

theorem append_assoc (a b c : Account) : a ++ b ++ c = a ++ (b ++ c) := by
  simp [append_def]

/-- The account of the specifiers `new`, walked after the ones `before`. -/
def ofMentions (before new : List Mention) (bound : List Ident) : Account :=
  ⟨gather Mention.redefined before new, bound, gather Mention.kept before new⟩

theorem ofMentions_append (before new more : List Mention) (bound names : List Ident) :
    ofMentions before (new ++ more) (bound ++ names) =
      ofMentions before new bound ++ ofMentions (before ++ new) more names := by
  simp only [ofMentions, append_def, gather_append]

/-- The errors are those of the account when the table at the end is `t`. -/
structure Met (a : Account) (t : StructTable) (errors : List SemanticError) : Prop where
  redefinitions : ∃ clashes : List Ident, clashes.Sublist a.bound ∧
    (errors.filter (·.kind = .redefinition)).Perm
      ((a.redefined ++ clashes).map (.atIdent .redefinition))
  incomplete : ∀ d ∈ a.kept, t.isIncomplete d.ty = true →
    .atIdent .incompleteType d.core ∈ errors

theorem Met.append {a b : Account} {t u : StructTable} {es fs : List SemanticError}
    (ha : a.Met t es) (hb : b.Met u fs)
    (hmono : ∀ ty, u.isIncomplete ty = true → t.isIncomplete ty = true) :
    (a ++ b).Met u (es ++ fs) := by
  obtain ⟨cs, hcs, hes⟩ := ha.redefinitions
  obtain ⟨ds, hds, hfs⟩ := hb.redefinitions
  refine ⟨⟨cs ++ ds, hcs.append hds, ?_⟩, fun d hd hty => ?_⟩
  · have hswap : (a.redefined ++ cs ++ (b.redefined ++ ds)).Perm
        ((a ++ b).redefined ++ (cs ++ ds)) := by
      simp only [append_def, List.append_assoc]
      exact (List.perm_append_comm_assoc _ _ _).append_left _
    have herrors := hes.append hfs
    rw [← List.filter_append, ← List.map_append] at herrors
    exact herrors.trans (hswap.map _)
  · rcases List.mem_append.1 hd with hd | hd
    · exact List.mem_append_left _ (ha.incomplete d hd (hmono _ hty))
    · exact List.mem_append_right _ (hb.incomplete d hd hty)

/-- The order of the redefinitions does not matter, and less may be asked of the members. -/
theorem Met.weaken {a b : Account} {t : StructTable} {es : List SemanticError} (h : a.Met t es)
    (hredefined : a.redefined.Perm b.redefined) (hbound : a.bound.Sublist b.bound)
    (hkept : b.kept ⊆ a.kept) : b.Met t es := by
  obtain ⟨cs, hcs, hes⟩ := h.redefinitions
  refine ⟨⟨cs, hcs.trans hbound, ?_⟩, fun d hd => h.incomplete d (hkept hd)⟩
  exact hes.trans ((hredefined.append_right cs).map _)

end Account

/-! ## Steps that keep accounts -/

/-- The outcome of a step that walks from the specifiers `before` to the specifiers `after`. -/
structure Outcome.Registered (r : Outcome α) (opens : List String) (before after : List Mention)
    (a : Account) : Prop where
  grows : before <+: after
  table : r.state.structs.Holds opens after
  met : a.Met r.state.structs (Event.errors r.events)

namespace Check

/-- The outcome from every state whose table holds the specifiers `before`. -/
def Registers (m : Check α) (opens : List String) (before after : List Mention) (a : Account) :
    Prop :=
  ∀ s : State, s.structs.Holds opens before → (m s).Registered opens before after a

namespace Registers

variable {m : Check α} {f : α → Check β} {opens : List String} {before mid after : List Mention}
  {a b : Account}

theorem weaken (h : Registers m opens before after a) (hredefined : a.redefined.Perm b.redefined)
    (hbound : a.bound.Sublist b.bound) (hkept : b.kept ⊆ a.kept) :
    Registers m opens before after b := by
  intro s hs
  have hr := h s hs
  exact ⟨hr.grows, hr.table, hr.met.weaken hredefined hbound hkept⟩

theorem swap {c : Account} (h : Registers m opens before after (a ++ (b ++ c)))
    (ha : a.bound = []) : Registers m opens before after (b ++ (a ++ c)) := by
  refine h.weaken (List.perm_append_comm_assoc _ _ _) ?_
    (List.perm_append_comm_assoc _ _ _).symm.subset
  simp [Account.append_def, ha]

/-- A step that leaves the table alone and reports redefinitions of some names at most. -/
theorem of_structs {names : List Ident} (hstructs : ∀ s, (m s).state.structs = s.structs)
    (herrors : ∀ s, ∃ clashes : List Ident, clashes.Sublist names ∧
      (Event.errors (m s).events).filter (·.kind = .redefinition) =
        clashes.map (.atIdent .redefinition)) :
    Registers m opens before before ⟨[], names, []⟩ := by
  intro s hs
  obtain ⟨clashes, hclashes, hes⟩ := herrors s
  refine ⟨List.prefix_refl _, by rwa [hstructs s], ⟨clashes, hclashes, ?_⟩, by simp⟩
  rw [hes, List.nil_append]

protected theorem pure {x : α} : Registers (pure x) opens before before .empty :=
  of_structs (fun _ => rfl) fun _ => ⟨[], .slnil, rfl⟩

theorem state : Registers state opens before before .empty :=
  of_structs (fun _ => rfl) fun _ => ⟨[], .slnil, rfl⟩

theorem tell {e : Event} (h : e.error? = none) :
    Registers (tell e) opens before before .empty := by
  refine of_structs (fun _ => rfl) fun _ => ⟨[], .slnil, ?_⟩
  simp [Check.tell, Event.errors, h]

/-- A change of the scopes and of what waits. -/
theorem update {g : State → State} (hg : ∀ s, (g s).structs = s.structs) :
    Registers (update g) opens before before .empty :=
  of_structs hg fun _ => ⟨[], .slnil, rfl⟩

theorem report_redefinition (id : Ident) :
    Registers (report .redefinition id) opens before before ⟨[id], [], []⟩ :=
  fun _ hs => ⟨List.prefix_refl _, hs, ⟨[], .slnil, .refl _⟩, by simp⟩

protected theorem bind (hm : Registers m opens before mid a)
    (hf : ∀ x, Registers (f x) opens mid after b) :
    Registers (m >>= f) opens before after (a ++ b) := by
  intro s hs
  have h := hm s hs
  have h' := hf (m s).value (m s).state h.table
  refine ⟨h.grows.trans h'.grows, h'.table, ?_⟩
  rw [bind_apply, Event.errors_append]
  exact h.met.append h'.met (h.table.isIncomplete_mono h'.table h'.grows)

theorem of_looked {m : Check Unit} {ids : List Ident} (h : ∀ s, m s = s.looked ids) :
    Registers m opens before before .empty := by
  refine of_structs (fun s => by rw [h s]; rfl) fun s => ⟨[], .slnil, ?_⟩
  rw [h s, State.looked, Event.errors_map_reported, State.unbound, List.filter_map]
  simp [Function.comp_def, SemanticError.atIdent]

end Registers

/-! ## Resolving -/

theorem arrayOf_registers (id : Ident) (elem : Ty) (size : Bound) (opens : List String)
    (before : List Mention) : Registers (arrayOf id elem size) opens before before .empty := by
  refine .of_structs (fun s => ?_) fun s => ⟨[], .slnil, ?_⟩
  · unfold arrayOf
    split <;> rfl
  · unfold arrayOf
    split <;> rfl

/-- Mentioning a tag reports nothing, and is seen in the table only. -/
theorem mentionTag_eq (tag : String) (s : State) :
    ∃ events, Event.errors events = [] ∧
      mentionTag tag s = ⟨.struct tag, { s with structs := s.structs.mention tag }, events⟩ := by
  rw [mentionTag_apply]
  split
  · rename_i h
    refine ⟨[], rfl, ?_⟩
    rw [StructTable.mention, if_pos h]
  · exact ⟨_, rfl, rfl⟩

theorem mentionTag_registers (tag : Ident) (opens : List String) (before : List Mention) :
    Registers (mentionTag tag.name) opens before (before ++ [⟨tag, none⟩]) .empty := by
  intro s hs
  obtain ⟨events, hevents, heq⟩ := mentionTag_eq tag.name s
  rw [heq]
  refine ⟨List.prefix_append _ _, hs.mention (.inl rfl), ⟨[], .slnil, ?_⟩, by simp [Account.empty]⟩
  rw [hevents]
  rfl

end Check

open Check (Registers)

theorem Declarator.typeOver_registers (id : Ident) (base : Ty) (d : Declarator)
    (opens : List String) (before : List Mention) :
    Registers (d.typeOver id base) opens before before .empty := by
  fun_induction Declarator.typeOver id base d with
  | case1 => exact .pure
  | case2 inner _ ih => exact ih
  | case3 elem size _ _ ih => exact ih.bind fun ty => Check.arrayOf_registers id _ size _ _
  | case4 inner _ _ ih => exact ih.bind fun ty => .pure
  | case5 _ _ _ size _ => exact (Check.arrayOf_registers id _ size _ _).bind fun _ => .pure
  | case6 inner size _ _ ih => exact ih.bind fun ty => Check.arrayOf_registers id _ size _ _

theorem Declarator.resolve_registers (base : Ty) (d : Declarator) (opens : List String)
    (before : List Mention) : Registers (d.resolve base) opens before before .empty :=
  (d.typeOver_registers d.core base opens before).bind fun _ =>
    (Registers.tell rfl).bind fun _ => .pure

theorem Decl.value_resolve (d : Decl) (s : State) : (d.resolve s).value = d.typed :=
  Check.Resolves.value_eq d.resolve_resolves s

/-! ## Members -/

/-- Reports a declared name whose type is incomplete. -/
def Check.watch (d : TypedIdent) : Check Unit := do
  if (← Check.state).structs.isIncomplete d.ty then Check.report .incompleteType d.ident

theorem Check.watch_registers (d : Decl) (opens : List String) (before : List Mention) :
    Registers (Check.watch d.typed) opens before before ⟨[], [], [d]⟩ := by
  intro s hs
  rw [watch, state_bind_apply, ite_apply]
  split
  · refine ⟨List.prefix_refl _, hs, ⟨[], .slnil, .refl _⟩, fun d' hd _ => ?_⟩
    rw [List.mem_singleton.1 hd]
    exact List.mem_singleton_self _
  · rename_i hno
    refine ⟨List.prefix_refl _, hs, ⟨[], .slnil, .refl _⟩, fun d' hd hty => ?_⟩
    rw [List.mem_singleton.1 hd] at hty
    exact absurd hty hno

section

variable {fields : List Field} {member : Decl} {more : List Decl}

theorem resolveMembers_repeated (h : fields.any (·.name == member.core.name) = true) :
    resolveMembers fields (member :: more) = (do
      let _ ← member.resolve
      Check.report .redefinition member.core
      resolveMembers fields more) := by
  have hyes : fields.any (·.name == member.typed.ident.name) = true := h
  rw [resolveMembers, Check.bind_eq_of_value member.value_resolve, if_pos hyes]
  rfl

theorem resolveMembers_fresh (h : ¬ fields.any (·.name == member.core.name) = true) :
    resolveMembers fields (member :: more) = (do
      let _ ← member.resolve
      Check.watch member.typed
      resolveMembers (fields ++ [member.field]) more) := by
  have hno : ¬ fields.any (·.name == member.typed.ident.name) = true := h
  rw [resolveMembers, Check.bind_eq_of_value member.value_resolve, if_neg hno]
  apply congrArg
  funext _ s
  rw [Check.watch, bind_assoc, Check.state_bind_apply, Check.state_bind_apply]
  split <;> rfl

end

section

variable {fields : List Field} {earlier : List String}
  (hearlier : ∀ n, n ∈ fields.map (·.name) ↔ n ∈ earlier)

include hearlier

theorem any_name_iff (name : String) :
    fields.any (·.name == name) = true ↔ name ∈ earlier := by
  rw [← hearlier]
  simp

theorem names_repeated {name : String} (hmem : name ∈ earlier) (n : String) :
    n ∈ fields.map (·.name) ↔ n ∈ name :: earlier := by
  rw [hearlier, List.mem_cons, or_iff_right_of_imp]
  rintro rfl
  exact hmem

theorem names_fresh (d : Decl) (n : String) :
    n ∈ (fields ++ [d.field]).map (·.name) ↔ n ∈ d.core.name :: earlier := by
  rw [List.map_append, List.mem_append, hearlier, List.mem_cons, or_comm]
  simp [Decl.field]

/-- The members that are given to the entry of a tag. -/
theorem value_resolveMembers (members : List Decl) (s : State) :
    (resolveMembers fields members s).value =
      fields ++ (keptMembers earlier members).map Decl.field := by
  induction members generalizing fields earlier s with
  | nil => simp [resolveMembers, keptMembers, Check.pure_apply]
  | cons member more ih =>
    rw [keptMembers]
    by_cases hmem : member.core.name ∈ earlier
    · rw [resolveMembers_repeated ((any_name_iff hearlier _).2 hmem), if_pos hmem]
      exact ih (names_repeated hearlier hmem) _
    · rw [resolveMembers_fresh (mt (any_name_iff hearlier _).1 hmem), if_neg hmem]
      refine (ih (names_fresh hearlier member) _).trans ?_
      rw [List.map_append, List.append_assoc]
      rfl

end

/-! ## Definitions -/

namespace Check

/-- Defines a tag, whose member list is resolved by `m` if it is the first definition. -/
def define (tag : Ident) (m : Check (List Field)) : Check Ty := do
  let ty ← mentionTag tag.name
  if ← defineTag tag.name then
    let fields ← m
    giveFields tag.name fields
  else report .redefinition tag
  return ty

variable {tag : Ident} {members : List Decl} {m : Check (List Field)} {opens : List String}
  {before nested : List Mention} {a : Account}

/-- A later definition is reported, and only mentions its tag. -/
theorem define_registers_later (hold : (firstDefinition? before tag.name).isSome = true) :
    Registers (define tag m) opens before (before ++ [⟨tag, some members⟩]) ⟨[tag], [], []⟩ := by
  intro s hs
  obtain ⟨events, hevents, hmention⟩ := mentionTag_eq tag.name s
  have htable : (s.structs.mention tag.name).Holds opens (before ++ [⟨tag, some members⟩]) :=
    hs.mention (.inr hold)
  have hnone : (s.structs.mention tag.name).define? tag.name = none := by
    rw [StructTable.define?, if_pos]
    rw [StructTable.isDefined_mention, hs.isDefined_eq, hold]
  have hrun : define tag m s = ⟨.struct tag.name, { s with structs := s.structs.mention tag.name },
      events ++ [.reported (.atIdent .redefinition tag)]⟩ := by
    simp only [define, bind_apply, hmention, defineTag_apply, hnone]
    rfl
  rw [hrun]
  refine ⟨List.prefix_append _ _, htable, ⟨[], .slnil, ?_⟩, by simp⟩
  rw [Event.errors_append, hevents]
  exact .refl _

/-- The first definition of a tag is open while its member list is resolved. -/
theorem define_registers_first (hnew : firstDefinition? before tag.name = none)
    (hvalue : ∀ s, (m s).value = (keptMembers [] members).map Decl.field)
    (hm : Registers m (tag.name :: opens) (before ++ [⟨tag, some members⟩])
      (before ++ [⟨tag, some members⟩] ++ nested) a) :
    Registers (define tag m) opens before (before ++ [⟨tag, some members⟩] ++ nested) a := by
  intro s hs
  obtain ⟨events, hevents, hmention⟩ := mentionTag_eq tag.name s
  obtain ⟨u, hu, hopen⟩ := hs.define members hnew
  have hfirst : firstDefinition? (before ++ [⟨tag, some members⟩] ++ nested) tag.name =
      some members := by
    apply firstDefinition?_of_some
    rw [firstDefinition?_define _ hnew rfl, if_pos rfl]
  -- the member list is resolved from the table `u`, in which the tag is open
  have h := hm { s with structs := u } hopen
  have hfields := hvalue { s with structs := u }
  generalize hr : m { s with structs := u } = r at h hfields
  have hrun : define tag m s = ⟨.struct tag.name,
      { r.state with structs := r.state.structs.giveFields tag.name r.value },
      events ++ (.tagDefined tag.name :: r.events)⟩ := by
    simp only [define, bind_apply, hmention, defineTag_apply, hu, ↓reduceIte, hr, giveFields,
      update, pure_apply, List.append_nil]
    rfl
  have htable := h.table.giveFields (hs.not_open hnew) hfirst
  rw [hrun, hfields]
  refine ⟨?_, htable, ?_⟩
  · rw [List.append_assoc]
    exact List.prefix_append _ _
  · rw [Event.errors_append, hevents, List.nil_append]
    -- giving the members completes nothing
    exact ⟨h.met.redefinitions, fun d hd hty => h.met.incomplete d hd
      (h.table.isIncomplete_mono htable (List.prefix_refl _) _ hty)⟩

end Check

/-- What is reported on a member list itself, apart from the specifiers in it. -/
def Account.ofMembers (earlier : List String) (members : List Decl) : Account :=
  ⟨(repeatedMembers earlier members).map Decl.core, [], keptMembers earlier members⟩

theorem Account.ofMentions_first {before : List Mention} {tag : Ident}
    (hnew : firstDefinition? before tag.name = none) (members : List Decl)
    (nested : List Mention) :
    Account.ofMentions before (⟨tag, some members⟩ :: nested) [] =
      .ofMembers [] members ++ .ofMentions (before ++ [⟨tag, some members⟩]) nested [] := by
  simp [ofMentions, gather, Mention.redefined, Mention.kept, hnew, ofMembers, append_def]

theorem Specifier.resolve_structDef (tag : Ident) (members : List Decl) (span : Span) :
    (Specifier.structDef tag members span).resolve =
      Check.define tag (resolveMembers [] members) := rfl

mutual

theorem Specifier.resolve_registers (opens : List String) (before : List Mention) :
    (spec : Specifier) →
      Registers spec.resolve opens before (before ++ spec.walked before)
        (.ofMentions before (spec.walked before) [])
  | .int _ | .char _ => by
    rw [Specifier.walked, List.append_nil]
    exact .pure
  | .structRef tag _ => Check.mentionTag_registers tag opens before
  | .structDef tag members span => by
    rw [Specifier.walked, Specifier.resolve_structDef]
    by_cases hold : (firstDefinition? before tag.name).isSome = true
    · have haccount : Account.ofMentions before [⟨tag, some members⟩] [] = ⟨[tag], [], []⟩ := by
        simp [Account.ofMentions, gather, Mention.redefined, Mention.kept, hold]
      rw [if_pos hold, haccount]
      exact Check.define_registers_later hold
    · have hnew : firstDefinition? before tag.name = none := by simpa using hold
      rw [if_neg hold, Account.ofMentions_first hnew, List.append_cons]
      exact Check.define_registers_first hnew (value_resolveMembers (by simp) members)
        (resolveMembers_registers _ _ [] [] (by simp) members)

theorem Decl.resolve_registers (opens : List String) (before : List Mention) :
    (d : Decl) →
      Registers d.resolve opens before (before ++ d.walked before)
        (.ofMentions before (d.walked before) [])
  | ⟨specifier, declarator, _⟩ => by
    have h := (specifier.resolve_registers opens before).bind fun base =>
      declarator.resolve_registers base opens _
    rwa [Account.append_empty] at h

theorem resolveMembers_registers (opens : List String) (before : List Mention)
    (fields : List Field) (earlier : List String)
    (hearlier : ∀ n, n ∈ fields.map (·.name) ↔ n ∈ earlier) :
    (members : List Decl) →
      Registers (resolveMembers fields members) opens before
        (before ++ membersWalked before members)
        (.ofMembers earlier members ++ .ofMentions before (membersWalked before members) [])
  | [] => by
    rw [membersWalked, List.append_nil]
    exact .pure
  | member :: more => by
    have hsplit : Account.ofMentions before (membersWalked before (member :: more)) [] =
        .ofMentions before (member.walked before) [] ++
          .ofMentions (before ++ member.walked before)
            (membersWalked (before ++ member.walked before) more) [] :=
      Account.ofMentions_append _ _ _ [] []
    rw [hsplit, membersWalked, ← List.append_assoc]
    -- the specifier of a member is resolved before its name is compared, so the account of the list
    -- itself, which comes first, has to be moved behind it
    by_cases hmem : member.core.name ∈ earlier
    · have hown : Account.ofMembers earlier (member :: more) =
          ⟨[member.core], [], []⟩ ++ .ofMembers (member.core.name :: earlier) more := by
        simp [Account.ofMembers, repeatedMembers, keptMembers, hmem, Account.append_def]
      rw [hown, resolveMembers_repeated ((any_name_iff hearlier _).2 hmem)]
      apply Registers.swap _ rfl
      rw [Account.append_assoc]
      refine (member.resolve_registers opens before).bind fun _ => ?_
      refine (Registers.report_redefinition member.core).bind fun _ => ?_
      exact resolveMembers_registers opens _ fields _ (names_repeated hearlier hmem) more
    · have hown : Account.ofMembers earlier (member :: more) =
          ⟨[], [], [member]⟩ ++ .ofMembers (member.core.name :: earlier) more := by
        simp [Account.ofMembers, repeatedMembers, keptMembers, hmem, Account.append_def]
      rw [hown, resolveMembers_fresh (mt (any_name_iff hearlier _).1 hmem)]
      apply Registers.swap _ rfl
      rw [Account.append_assoc]
      refine (member.resolve_registers opens before).bind fun _ => ?_
      refine (Check.watch_registers member opens _).bind fun _ => ?_
      exact resolveMembers_registers opens _ _ _ (names_fresh hearlier member) more

end

end MiniC
