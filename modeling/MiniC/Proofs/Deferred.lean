import MiniC.Proofs.FileScope

/-!
# Global variables of incomplete type

A global variable whose struct has no definition yet is bound all the same and waits. `Waiting`
relates the queue to the file scope at every point between two items: the entries of the queue that
are still incomplete are the variables of the file scope that are, in the same order. It survives
because tags that are complete stay so (`subset_completed`), and because a variable that could not
wait, an array of an incomplete struct, is never bound.
-/

namespace MiniC

/-! ## Full definitions -/

mutual

/-- The tags of the full definitions in a specifier, outer ones before those in their member lists,
if the tags of `known` are complete before it. A definition of a tag that is complete already is
rejected, and those inside its member list are not counted. -/
def Specifier.definitions (known : List String) : Specifier → List Ident
  | .int _ | .char _ | .structRef _ _ => []
  | .structDef tag members _ =>
    tag :: if tag.name ∈ known then [] else memberDefinitions (tag.name :: known) members

def Decl.definitions (known : List String) : Decl → List Ident
  | ⟨specifier, _, _⟩ => specifier.definitions known

def memberDefinitions (known : List String) : List Decl → List Ident
  | [] => []
  | member :: more => member.definitions known ++ memberDefinitions (member.completes known) more

end

/-- The full definitions in some specifiers in order. -/
def definitionsFrom (known : List String) : List Specifier → List Ident
  | [] => []
  | spec :: more => spec.definitions known ++ definitionsFrom (spec.completes known) more

/-- The full definitions of a program, wherever they stand, those in the member list of a rejected
one apart. -/
def Program.definitions (p : Program) : List Ident :=
  definitionsFrom [] (p.items.flatMap Item.specifiers)

mutual

/-- A tag is complete if it was before or has a full definition. -/
theorem Specifier.mem_completes_iff (known : List String) (tag : String) :
    (spec : Specifier) → (tag ∈ spec.completes known ↔
      tag ∈ known ∨ tag ∈ (spec.definitions known).map (·.name))
  | .int _ | .char _ | .structRef _ _ => by simp [Specifier.completes, Specifier.definitions]
  | .structDef id members _ => by
    rw [Specifier.completes, Specifier.definitions]
    by_cases h : id.name ∈ known
    · rw [if_pos h, if_pos h, List.map_singleton, List.mem_singleton, or_iff_left_of_imp]
      rintro rfl
      exact h
    · rw [if_neg h, if_neg h, mem_memberCompletes_iff (id.name :: known) tag members, List.map_cons,
        List.mem_cons, List.mem_cons, or_assoc, or_left_comm]

theorem Decl.mem_completes_iff (known : List String) (tag : String) :
    (d : Decl) → (tag ∈ d.completes known ↔
      tag ∈ known ∨ tag ∈ (d.definitions known).map (·.name))
  | ⟨specifier, _, _⟩ => specifier.mem_completes_iff known tag

theorem mem_memberCompletes_iff (known : List String) (tag : String) :
    (members : List Decl) → (tag ∈ memberCompletes known members ↔
      tag ∈ known ∨ tag ∈ (memberDefinitions known members).map (·.name))
  | [] => by simp [memberCompletes, memberDefinitions]
  | member :: more => by
    rw [memberCompletes, memberDefinitions, mem_memberCompletes_iff _ tag more,
      member.mem_completes_iff known tag, List.map_append, List.mem_append, or_assoc]

end

theorem mem_completed_iff (known : List String) (tag : String) (specs : List Specifier) :
    tag ∈ completed known specs ↔
      tag ∈ known ∨ tag ∈ (definitionsFrom known specs).map (·.name) := by
  induction specs generalizing known with
  | nil => simp [completed, definitionsFrom]
  | cons spec specs ih =>
    rw [completed, List.foldl_cons, ← completed, ih, spec.mem_completes_iff, definitionsFrom,
      List.map_append, List.mem_append, or_assoc]

theorem subset_completed (known : List String) (specs : List Specifier) :
    known ⊆ completed known specs :=
  fun tag h => (mem_completed_iff known tag specs).2 (.inl h)

/-! ## The queue -/

theorem Ty.complete_mono {known after : List String} (hsub : known ⊆ after) :
    (ty : Ty) → ty.Complete known → ty.Complete after
  | .struct _, h => hsub h
  | .array elem _, h => complete_mono hsub elem h
  | .int, _ | .char, _ | .pointer _, _ | .function _ _, _ => trivial

/-- What waits of an incomplete type that is no array is a struct without definition. -/
theorem Ty.eq_struct_of_not_complete {known : List String} {ty : Ty} (harray : ty.isArray = false)
    (h : ¬ ty.Complete known) : ∃ tag, ty = .struct tag := by
  cases ty with
  | struct tag => exact ⟨tag, rfl⟩
  | array _ _ => cases harray
  | _ => exact absurd trivial h

/-- The variable that a symbol stands for, as it is queued. -/
def Symbol.typed (x : Symbol) : TypedIdent := ⟨⟨x.name, x.span⟩, x.ty⟩

/-- A variable whose type is incomplete when the tags of `known` are complete. -/
def Symbol.Waits (known : List String) (x : Symbol) : Prop :=
  x.kind = .var ∧ ¬ x.ty.Complete known

instance (known : List String) : DecidablePred (Symbol.Waits known) :=
  fun x => inferInstanceAs (Decidable (x.kind = .var ∧ ¬ x.ty.Complete known))

/-- The waiting symbols are what is left of the queue, and their types are structs. -/
structure Waiting (known : List String) (xs : List Symbol) (pending : List TypedIdent) : Prop where
  queue : (xs.filter (·.Waits known)).map Symbol.typed = pending.filter (¬ ·.ty.Complete known)
  direct : ∀ x ∈ xs, x.Waits known → ∃ tag, x.ty = .struct tag

private theorem filter_of_imp {p q : α → Bool} {xs : List α}
    (h : ∀ x ∈ xs, p x = true → q x = true) :
    (xs.filter q).filter p = xs.filter p := by
  rw [List.filter_filter]
  refine List.filter_congr fun x hx => ?_
  cases hp : p x with
  | false => rfl
  | true => simp [h x hx hp]

namespace Waiting

variable {known after : List String} {xs : List Symbol} {pending : List TypedIdent}

theorem empty : Waiting known [] [] := ⟨rfl, fun _ hx => by cases hx⟩

/-- With more complete tags, less of the queue is left, and the same is gone from the symbols. -/
theorem mono (h : Waiting known xs pending) (hsub : known ⊆ after) : Waiting after xs pending := by
  have himp : ∀ ty : Ty, ¬ ty.Complete after → ¬ ty.Complete known :=
    fun ty hty hk => hty (ty.complete_mono hsub hk)
  have hxs : (xs.filter (·.Waits known)).filter (·.Waits after) = xs.filter (·.Waits after) :=
    filter_of_imp fun x _ hx => by
      have hw : x.Waits after := of_decide_eq_true hx
      exact decide_eq_true ⟨hw.1, himp _ hw.2⟩
  have hpending : (pending.filter (¬ ·.ty.Complete known)).filter (¬ ·.ty.Complete after) =
      pending.filter (¬ ·.ty.Complete after) :=
    filter_of_imp fun d _ hd => decide_eq_true (himp _ (of_decide_eq_true hd))
  refine ⟨?_, fun x hx hw => h.direct x hx ⟨hw.1, himp _ hw.2⟩⟩
  rw [← hxs, ← hpending, ← h.queue, List.filter_map]
  refine congrArg (List.map Symbol.typed) (List.filter_congr fun x hx => ?_)
  have hw : x.Waits known := of_decide_eq_true (List.mem_filter.1 hx).2
  exact decide_eq_decide.2 (and_iff_right hw.1)

/-- A new symbol waits if it is queued. -/
theorem insert (h : Waiting known xs pending) {x : Symbol}
    (hx : x.Waits known → ∃ tag, x.ty = .struct tag) :
    Waiting known (xs ++ [x]) (if x.Waits known then pending ++ [x.typed] else pending) := by
  constructor
  · by_cases hw : x.Waits known
    · have hty : ¬ x.typed.ty.Complete known := hw.2
      rw [if_pos hw, List.filter_append, List.filter_append, List.map_append, h.queue]
      simp [hw, hty]
    · rw [if_neg hw, List.filter_append, List.map_append, h.queue]
      simp [hw]
  · intro y hy hyw
    rcases List.mem_append.1 hy with hy | hy
    · exact h.direct y hy hyw
    · rw [List.mem_singleton.1 hy] at hyw ⊢
      exact hx hyw

/-- A change of functions only. -/
theorem change (h : Waiting known xs pending) {f : Symbol → Symbol}
    (hfunc : ∀ x ∈ xs, x.kind = .func → (f x).kind = .func)
    (hvar : ∀ x ∈ xs, x.kind = .var → f x = x) : Waiting known (xs.map f) pending := by
  have hsame : ∀ x ∈ xs, (f x).Waits known ↔ x.Waits known := by
    intro x hx
    cases hk : x.kind with
    | var => rw [hvar x hx hk]
    | func => simp [Symbol.Waits, hk, hfunc x hx hk]
  have hfilter : (xs.filter fun x => decide ((f x).Waits known)) = xs.filter (·.Waits known) :=
    List.filter_congr fun x hx => by simp [hsame x hx]
  constructor
  · rw [List.filter_map, ← h.queue]
    simp only [Function.comp_def, hfilter, List.map_map]
    refine List.map_congr_left fun x hx => ?_
    have hw : x.Waits known := of_decide_eq_true (List.mem_filter.1 hx).2
    rw [hvar x (List.mem_filter.1 hx).1 hw.1]
  · intro y hy hyw
    obtain ⟨x, hx, rfl⟩ := List.mem_map.1 hy
    have hw := (hsame x hx).1 hyw
    rw [hvar x hx hw.1]
    exact h.direct x hx hw

end Waiting

/-! ## One occurrence -/

namespace Occurrence

section

variable {os : List Occurrence} {s : State} {known : List String}
  (hr : Records os s) (hw : Waiting known s.symbols s.pending) (o : Occurrence)

include hr hw in
theorem bind_waiting_of_fresh (hs : s.structs.Knows known)
    (harray : o.form = .var → o.ty.isArray = true → o.ty.Complete known)
    (hnew : named os o.id.name = []) :
    Waiting known (o.bind s).state.symbols (o.bind s).state.pending := by
  have hv : o.verdict (named os o.id.name) = .fresh := by simp [verdict, hnew, clash?]
  rw [symbols_bind_of_fresh hr o hnew]
  by_cases hform : o.form = .var
  · let x : Symbol := .ofVariable o.id.name o.ty o.id.span
    have hx : symbol? [o] = some x := by simp [symbol?, hform, x, Symbol.ofVariable]
    have hinc : s.structs.isIncomplete o.ty = true ↔ x.Waits known := by
      have hty := hs.isIncomplete_eq_false_iff o.ty
      rw [← Bool.not_eq_false, hty]
      exact (and_iff_right rfl).symm
    rw [bind_variable_apply hr o hform, hv, hx]
    simp only [hinc]
    refine hw.insert fun hwaits => o.ty.eq_struct_of_not_complete ?_ hwaits.2
    exact Bool.eq_false_iff.2 fun h => hwaits.2 (harray hform h)
  · rw [bind_function_apply hr o hform, hv]
    have hfunc : ∀ x ∈ symbol? [o], ¬ x.Waits known := by
      intro x hx
      simp only [symbol?, Option.mem_def, Option.some.injEq] at hx
      rw [← hx]
      simp [Symbol.Waits, hform]
    cases hx : symbol? [o] with
    | none => simpa using hw
    | some x =>
      have hnot := hfunc x hx
      have := hw.insert (fun h => absurd h hnot)
      rwa [if_neg hnot] at this

include hr hw in
theorem bind_waiting_of_completes (hold : named os o.id.name ≠ [])
    (hc : o.clash? (named os o.id.name) = none) :
    Waiting known (o.bind s).state.symbols (o.bind s).state.pending := by
  have hv : o.verdict (named os o.id.name) = .completes := by simp [verdict, hc, hold]
  obtain ⟨first, more, hcons⟩ := List.exists_cons_of_ne_nil hold
  have hforms : o.form ≠ .var ∧ first.form ≠ .var := by
    rw [hcons] at hc
    cases hf : o.form <;> simp [clash?, hf] at hc ⊢
    exact hc.1
  rw [symbols_bind_of_completes hr o hold hc, bind_function_apply hr o hforms.1, hv]
  -- the symbol that is completed is that of a function, so no variable is touched
  have hkind : ∀ y ∈ s.symbols, y.name = o.id.name → y.kind = .func := by
    intro y hy hname
    have hmem : y ∈ s.symbols.filter (·.name = o.id.name) :=
      List.mem_filter.2 ⟨hy, decide_eq_true hname⟩
    rw [hr.symbols_eq, filter_symbolsOf, hcons, symbol?, Option.toList_some,
      List.mem_singleton] at hmem
    rw [hmem]
    exact if_neg hforms.2
  refine hw.change (fun y _ hy => ?_) (fun y hmem hy => ?_)
  · split
    · exact hy
    · exact hy
  · refine if_neg fun hname => ?_
    rw [hkind y hmem (eq_of_beq hname)] at hy
    cases hy

include hr hw in
/-- Binding an occurrence keeps the queue in step with the file scope. -/
theorem bind_waiting (hs : s.structs.Knows known)
    (harray : o.form = .var → o.ty.isArray = true → o.ty.Complete known) :
    Waiting known (o.bind s).state.symbols (o.bind s).state.pending := by
  by_cases hnew : named os o.id.name = []
  · exact bind_waiting_of_fresh hr hw o hs harray hnew
  · cases hc : o.clash? (named os o.id.name) with
    | none => exact bind_waiting_of_completes hr hw o hnew hc
    | some kind =>
      rw [bind_of_clash hr o hc]
      exact hw

end

end Occurrence

/-! ## Whole programs -/

/-- A variable that makes an occurrence is no array of an incomplete struct. -/
theorem Item.complete_of_occurrence {known : List String} {item : Item} {o : Occurrence}
    (ho : item.occurrence? known = some o) (hform : o.form = .var) (harray : o.ty.isArray = true) :
    o.ty.Complete (completed known item.headerSpecifiers) := by
  cases item with
  | function sig _ => cases ho; cases hform
  | prototype sig => cases ho; cases hform
  | global decl =>
    rw [headerSpecifiers, completed_decl]
    rw [occurrence?] at ho
    split at ho
    · cases ho
    · rename_i hkeep
      cases ho
      exact Classical.byContradiction fun h => hkeep ⟨harray, h⟩
  | tagOnly _ => cases ho

/-- Between two items, the queue is in step with the file scope. -/
theorem waiting_stateAfter (items : List Item) :
    Waiting (tagsAfter items) (stateAfter items).symbols (stateAfter items).pending := by
  induction items using List.reverseRecOn with
  | nil => exact .empty
  | append_singleton before item ih =>
    have hc := item.checked_stateAfter before
    have hin : (item.headerState (stateAfter before)).scopes.inner = [] := by
      rw [hc.header_scopes, inner_stateAfter]
    have hr := (records_stateAfter before).congr hc.header_globals hc.header_scopes
    have hw := ih.mono (subset_completed _ item.headerSpecifiers)
    rw [← hc.header_symbols, ← hc.header_pending] at hw
    rw [stateAfter_concat, tagsAfter_concat, Item.specifiers, completed_append, hc.symbols,
      hc.pending, Item.namedState]
    refine Waiting.mono ?_ (subset_completed _ item.bodySpecifiers)
    cases ho : item.occurrence? (tagsAfter before) with
    | none =>
      rw [Item.bindName_of_none hin hc.header_knows ho]
      exact hw
    | some o =>
      rw [Item.bindName_of_some hin hc.header_knows ho]
      exact o.bind_waiting hr hw hc.header_knows (Item.complete_of_occurrence ho)

theorem Program.deferred_eq (p : Program) :
    p.deferred =
      ((stateAfter p.items).pending.filter (¬ ·.ty.Complete (tagsAfter p.items))).map fun d =>
        .atIdent .incompleteType d.ident := by
  have hs := knows_stateAfter p.items
  rw [deferred, settlePending_apply, Event.errors, List.filterMap_map]
  generalize (stateAfter p.items).pending = pending
  induction pending with
  | nil => rfl
  | cons d pending ih =>
    have hty := hs.isIncomplete_eq_false_iff d.ty
    by_cases h : d.ty.Complete (tagsAfter p.items)
    · simp [State.settled, Event.error?, h, hty.2 h, ih]
    · have hinc : (stateAfter p.items).structs.isIncomplete d.ty = true := by simpa [h] using hty
      simp [State.settled, Event.error?, h, hinc, ih]

/-- The globals of a run whose type was never completed are the symbols that still wait. -/
theorem Program.incomplete_globals_eq (p : Program) :
    (p.run.result.globals.filter fun x => p.run.result.structs.isIncomplete x.ty) =
      (stateAfter p.items).symbols.filter (·.Waits (tagsAfter p.items)) := by
  rw [Analysis.globals, p.symbols_run, p.structs_run, List.filter_filter]
  refine List.filter_congr fun x _ => ?_
  have hty := (knows_stateAfter p.items).isIncomplete_eq_false_iff x.ty
  rw [Bool.eq_iff_iff]
  simp only [Symbol.Waits, Bool.and_eq_true, beq_iff_eq, decide_eq_true_eq, ← hty,
    Bool.not_eq_false]
  exact and_comm

/-- **The deferred check is exact.** After the errors of the walk, a run reports one error for each
global variable whose type is incomplete in the end, in the order of the symbols. The type of such
a variable is a struct that the program defines nowhere. -/
theorem run_defers_incomplete_globals (p : Program) :
    p.run.errors =
        p.immediate ++
          (p.run.result.globals.filter fun x => p.run.result.structs.isIncomplete x.ty).map
            (fun x => ⟨.incompleteType, x.name, x.span⟩) ∧
      ∀ x ∈ p.run.result.globals, p.run.result.structs.isIncomplete x.ty = true →
        ∃ tag, x.ty = .struct tag ∧ tag ∉ p.definitions.map (·.name) := by
  have hw := waiting_stateAfter p.items
  constructor
  · rw [p.errors_run, p.deferred_eq, p.incomplete_globals_eq, ← hw.queue, List.map_map]
    rfl
  · intro x hx hinc
    have hmem : x ∈ (stateAfter p.items).symbols.filter (·.Waits (tagsAfter p.items)) := by
      rw [← p.incomplete_globals_eq]
      exact List.mem_filter.2 ⟨hx, hinc⟩
    have hwaits : x.Waits (tagsAfter p.items) := of_decide_eq_true (List.mem_filter.1 hmem).2
    obtain ⟨tag, htag⟩ := hw.direct x (List.mem_filter.1 hmem).1 hwaits
    refine ⟨tag, htag, fun hdef => hwaits.2 ?_⟩
    rw [htag]
    exact (mem_completed_iff [] tag _).2 (.inr hdef)

end MiniC
