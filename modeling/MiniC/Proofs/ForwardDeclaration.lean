import MiniC.Proofs.Lockstep.Walk

/-!
# Forward declarations

`struct T;` mentions a tag and nothing more. A program with such an item put in anywhere reports the
same errors and binds the same symbols as the program without it. Its struct tags are the same too,
except that `T` has an entry, and may have it earlier (`forward_declaration_is_inert`).

The two runs are in lockstep from the declaration on: the table of the one is that of the other with
`T` mentioned, and a tag that is only mentioned is treated as one that is unknown.
-/

namespace MiniC

namespace StructTable

/-- The tags of a table, in the order of first mention. -/
def tags (t : StructTable) : List String := t.defs.map (·.tag)

theorem mentions_of_isDefined {t : StructTable} {tag : String} (h : t.isDefined tag = true) :
    t.mentions tag = true := by
  obtain ⟨d, hd, -⟩ := (Option.any_eq_true _ _).1 h
  rw [mentions, hd, Option.isSome_some]

/-- The tags `first` and `more`, with `tag` mentioned between the two. -/
def mentionedAfter (tag : String) (first more : List String) : List String :=
  if tag ∈ first then first ++ more else first ++ tag :: more.filter (· ≠ tag)

theorem mem_mentionedAfter {tag n : String} {first more : List String} :
    n ∈ mentionedAfter tag first more ↔ n = tag ∨ n ∈ first ++ more := by
  unfold mentionedAfter
  by_cases hn : n = tag
  · by_cases h : tag ∈ first <;> simp [h, hn]
  · by_cases h : tag ∈ first <;> simp [h, hn]

/-- One more tag comes last, unless it is `tag` itself. -/
theorem mentionedAfter_concat {tag n : String} {first more : List String}
    (hn : n ∉ first ++ more) :
    mentionedAfter tag first (more ++ [n]) =
      if n ∈ mentionedAfter tag first more then mentionedAfter tag first more
      else mentionedAfter tag first more ++ [n] := by
  have hfirst : n ∉ first := fun h => hn (List.mem_append_left more h)
  simp only [mem_mentionedAfter, hn, or_false]
  unfold mentionedAfter
  by_cases heq : n = tag
  · simp [← heq, hfirst]
  · by_cases h : tag ∈ first <;> simp [h, heq]

/-- The table `u` is `t` with `tag` mentioned when the tags were `first`. -/
structure Forwarded (tag : String) (first : List String) (t u : StructTable) : Prop where
  inStep : t.InStep
  get? : ∀ n, u.get? n = (t.mention tag).get? n
  order : ∃ more, t.order = first ++ more ∧ u.order = mentionedAfter tag first more

namespace Forwarded

variable {tag : String} {first : List String} {t u : StructTable}

/-- Right after the declaration. -/
theorem declared (tag : String) {t : StructTable} (ht : t.InStep) :
    Forwarded tag t.order t (t.mention tag) := by
  refine ⟨ht, fun _ => rfl, [], by simp, ?_⟩
  rw [order_mention, mentionedAfter, List.filter_nil, List.append_nil]
  simp only [ht.mentions_iff]

theorem isDefined (h : Forwarded tag first t u) (n : String) : u.isDefined n = t.isDefined n := by
  rw [← isDefined_mention t tag n, StructTable.isDefined, h.get?]
  rfl

theorem isIncomplete (h : Forwarded tag first t u) (ty : Ty) :
    u.isIncomplete ty = t.isIncomplete ty := by
  simp only [isIncomplete_eq, h.isDefined]

theorem mentions_iff (h : Forwarded tag first t u) (n : String) :
    u.mentions n = true ↔ n = tag ∨ n ∈ t.order := by
  rw [← h.inStep.mentions_iff, ← mentions_mention_iff, StructTable.mentions, h.get?]
  rfl

theorem mention (h : Forwarded tag first t u) (n : String) :
    Forwarded tag first (t.mention n) (u.mention n) := by
  refine ⟨h.inStep.mention n, fun m => ?_, ?_⟩
  · rw [get?_mention, h.get?, get?_mention, get?_mention, get?_mention]
    cases t.get? m with
    | some d => rfl
    | none => by_cases htag : tag = m <;> by_cases hn : n = m <;> simp [htag, hn]
  · obtain ⟨more, ht, hu⟩ := h.order
    rw [order_mention, order_mention]
    simp only [h.inStep.mentions_iff, h.mentions_iff, ht, hu, ← mem_mentionedAfter]
    by_cases hn : n ∈ first ++ more
    · exact ⟨more, if_pos hn, if_pos (mem_mentionedAfter.2 (.inr hn))⟩
    · refine ⟨more ++ [n], ?_, (mentionedAfter_concat hn).symm⟩
      rw [if_neg hn, List.append_assoc]

/-- An entry that both have is changed in both. -/
theorem update (h : Forwarded tag first t u) {n : String} (hn : t.mentions n = true)
    {f : StructDef → StructDef} (hf : ∀ d, (f d).tag = d.tag) :
    Forwarded tag first (t.update n f) (u.update n f) := by
  refine ⟨h.inStep.update n hf, fun m => ?_, h.order⟩
  rw [get?_update, h.get?, get?_mention, get?_mention, get?_update]
  split
  · -- The entry of `n` is not the one that only `u` has.
    next hm =>
    subst hm
    obtain ⟨d, hd⟩ := Option.isSome_iff_exists.1 hn
    rw [hd, Option.some_or, Option.map_some, Option.some_or]
  · rfl

end Forwarded

end StructTable

/-- Runs without and with a forward declaration, from the declaration on. -/
def Lockstep.forward (tag : String) (first : List String) : Lockstep Bool where
  label _ := .refl
  Allowed _ := True
  Tables t := StructTable.Forwarded tag first (t false) (t true)
  Files f := f true = f false
  Orders g := g true = g false
  Queues q := q true = q false
  isDefined := by
    intro t ht n _
    exact ⟨(t false).isDefined n.name, Bool.rec rfl (ht.isDefined n.name)⟩
  mention := by
    intro t ht n _
    exact ht.mention n.name
  begin := by
    intro t ht n _ _
    exact (ht.mention n.name).update ((t false).mentions_mention n.name) fun _ => rfl
  giveFields := by
    intro t ht n _ hyes fields
    exact ht.update (StructTable.mentions_of_isDefined (hyes false)) fun _ => rfl
  get? := by
    intro f hf l _ _
    refine ⟨(f false).get? l.ident.name, fun i => ?_⟩
    rw [Symbol.relabel_refl, Option.map_id_apply]
    cases i with
    | false => rfl
    | true => exact congrArg (Scope.get? · l.ident.name) hf
  bind := by
    intro f hf id _ x _
    exact congrArg (Scope.bind · _) hf
  define := by
    intro f hf id _ ty
    exact congrArg (Scope.update · _ _) hf
  record := by
    intro g hg id _
    exact congrArg (recordName · _) hg
  enqueue := by
    intro q hq d _
    exact congrArg (· ++ _) hq

/-- The state with a tag mentioned. -/
def State.withTag (s : State) (tag : String) : State := { s with structs := s.structs.mention tag }

/-- A forward declaration mentions its tag and reports nothing. -/
theorem Item.forward_apply (tag : Ident) (span : Span) (s : State) :
    ((Item.tagOnly (.structRef tag span)).check s).state = s.withTag tag.name ∧
      Event.errors ((Item.tagOnly (.structRef tag span)).check s).events = [] := by
  obtain ⟨events, hevents, heq⟩ := Check.mentionTag_eq tag.name s
  rw [check, Specifier.resolve, Check.bind_apply, heq]
  exact ⟨rfl, by rw [Event.errors_append, hevents]; rfl⟩

/-- The states `s` and `t` differ in that `tag` was mentioned in `t` when the tags were `first`. -/
structure State.Forwarded (tag : String) (first : List String) (s t : State) : Prop where
  structs : s.structs.Forwarded tag first t.structs
  file : t.scopes.file = s.scopes.file
  globals : t.globals = s.globals
  pending : t.pending = s.pending

theorem State.Forwarded.symbols {tag : String} {first : List String} {s t : State}
    (h : s.Forwarded tag first t) : t.symbols = s.symbols := by
  have hfind : t.scopes.findFile? = s.scopes.findFile? := by
    funext n
    rw [ScopeChain.findFile?, h.file, ScopeChain.findFile?]
  rw [State.symbols, State.symbols, h.globals, hfind]

theorem State.Forwarded.overdue {tag : String} {first : List String} {s t : State}
    (h : s.Forwarded tag first t) : t.overdue = s.overdue := by
  rw [State.overdue, State.overdue, h.pending]
  simp only [h.structs.isIncomplete]

/-- What items come to after a forward declaration and without it. -/
theorem checkItems_withTag (items : List Item) (tag : String) {s : State}
    (hin : s.scopes.inner = []) (hstep : s.structs.InStep) :
    State.Forwarded tag s.structs.order (checkItems items s).state
        (checkItems items (s.withTag tag)).state ∧
      Event.errors (checkItems items (s.withTag tag)).events =
        Event.errors (checkItems items s).events := by
  let start : Bool → State := fun declared => if declared then s.withTag tag else s
  have hstart : (Lockstep.forward tag s.structs.order).Related 0 start := by
    refine ⟨.declared tag hstep, rfl, rfl, rfl, [], rfl, fun declared => ?_⟩
    cases declared <;> exact hin
  have h := Lockstep.goes_checkItems (fun _ => rfl) items (fun _ _ _ _ => trivial) start hstart
  exact ⟨⟨h.state.tables, h.state.files, h.state.orders, h.state.queues⟩,
    h.findings.errors_eq (fun _ => rfl) true false⟩

/-- **A forward declaration is inert.** Put in anywhere, `struct tag;` changes neither the errors of
a run, those on the way and those after the last item, nor the symbols. Every tag keeps its
definition, and `tag` has an incomplete entry without members if it had none; the order of the tags
changes only in that `tag` comes right after those mentioned before the declaration, unless it is
one of them. -/
theorem forward_declaration_is_inert (before after : List Item) (tag : Ident) (span : Span) :
    let p : Program := ⟨before ++ after⟩
    let q : Program := ⟨before ++ .tagOnly (.structRef tag span) :: after⟩
    q.run.errors = p.run.errors ∧ q.immediate = p.immediate ∧ q.deferred = p.deferred ∧
      q.run.result.symbols = p.run.result.symbols ∧
      (∀ n, q.run.result.structs.get? n = (p.run.result.structs.get? n).or
        (if tag.name = n then some ⟨tag.name, [], false⟩ else none)) ∧
      ∃ first more, first = (Program.run ⟨before⟩).result.structs.tags ∧
        p.run.result.structs.tags = first ++ more ∧
        q.run.result.structs.tags =
          if tag.name ∈ first then first ++ more
          else first ++ tag.name :: more.filter (· ≠ tag.name) := by
  intro p q
  obtain ⟨hstate, hsilent⟩ := Item.forward_apply tag span (stateAfter before)
  have hstep : (stateAfter before).structs.InStep := by
    rw [← Program.structs_run ⟨before⟩]
    exact Program.inStep_run _
  obtain ⟨hafter, herrors⟩ := checkItems_withTag after tag.name (inner_stateAfter before) hstep
  have hq : stateAfter q.items =
      (checkItems after ((stateAfter before).withTag tag.name)).state := by
    rw [stateAfter_append, checkItems, Check.bind_apply, hstate]
  rw [← stateAfter_append, ← hq] at hafter
  have himmediate : q.immediate = p.immediate := by
    rw [Program.immediate_append, Program.immediate_append, checkItems, Check.bind_apply,
      Event.errors_append, hsilent, hstate, herrors, List.nil_append]
  have hdeferred : q.deferred = p.deferred := by
    rw [q.deferred_eq_overdue, p.deferred_eq_overdue, hafter.overdue]
  rw [q.errors_run, p.errors_run, q.symbols_run, p.symbols_run, himmediate, hdeferred]
  refine ⟨rfl, rfl, rfl, hafter.symbols, fun n => ?_, ?_⟩
  · rw [q.structs_run, p.structs_run, hafter.structs.get?, StructTable.get?_mention]
    rfl
  · obtain ⟨more, hold, hnew⟩ := hafter.structs.order
    refine ⟨_, more, rfl, ?_⟩
    rw [StructTable.tags, StructTable.tags, StructTable.tags, (Program.inStep_run _).tags_defs,
      (Program.inStep_run _).tags_defs, (Program.inStep_run _).tags_defs, Program.structs_run,
      Program.structs_run, Program.structs_run]
    exact ⟨hold, hnew⟩

end MiniC
