import Mathlib.Data.List.Induction
import Mathlib.Data.List.Nodup
import MiniC.Proofs.Items

/-!
# Names at file scope

The items of a program are read as a list of occurrences of names (`occurrences`): variables,
functions declared and functions defined. What becomes of an occurrence depends only on the earlier
occurrences of its name, accepted or not (`Occurrence.clash?`), and so does the symbol that the
name ends up with (`symbol?`). The invariant that carries this through a program is `Records`: the
file scope binds the names of the occurrences so far to their symbols, and the list of names beside
it has the same names, in the order of first occurrence. So no name is lost when the symbols are
listed at the end (`Records.symbols_eq`).
-/

namespace MiniC

/-! ## Occurrences -/

/-- What an item says of the name it declares. -/
inductive Form where
  | var
  | declared
  | defined
  deriving DecidableEq

/-- A name at file scope, with its type. -/
structure Occurrence where
  id : Ident
  form : Form
  ty : Ty

/-- The occurrence that an item makes if the tags of `known` are complete before it. A variable is
left out if its type is an array of a struct that is incomplete there. -/
def Item.occurrence? (known : List String) : Item → Option Occurrence
  | .function sig _ => some ⟨sig.name, .defined, sig.ty⟩
  | .prototype sig => some ⟨sig.name, .declared, sig.ty⟩
  | .global decl =>
    if decl.ty.isArray ∧ ¬ decl.ty.Complete (decl.completes known) then none
    else some ⟨decl.core, .var, decl.ty⟩
  | .tagOnly _ => none

def occurrencesFrom (known : List String) : List Item → List Occurrence
  | [] => []
  | item :: more =>
    (item.occurrence? known).toList ++ occurrencesFrom (completed known item.specifiers) more

/-- The occurrences that the items of a program make, in order. -/
def occurrences (items : List Item) : List Occurrence := occurrencesFrom [] items

theorem occurrences_concat (before : List Item) (item : Item) :
    occurrences (before ++ [item]) =
      occurrences before ++ (item.occurrence? (tagsAfter before)).toList := by
  suffices h : ∀ known, occurrencesFrom known (before ++ [item]) =
      occurrencesFrom known before ++
        (item.occurrence? (completed known (before.flatMap Item.specifiers))).toList from h []
  induction before with
  | nil => intro known; simp [occurrencesFrom, completed]
  | cons first before ih =>
    intro known
    rw [List.cons_append, occurrencesFrom, occurrencesFrom, ih, List.append_assoc,
      List.flatMap_cons, completed_append]

/-- The occurrences of one name. -/
def named (os : List Occurrence) (x : String) : List Occurrence := os.filter (·.id.name = x)

theorem named_concat (os : List Occurrence) (o : Occurrence) (x : String) :
    named (os ++ [o]) x = if o.id.name = x then named os x ++ [o] else named os x := by
  by_cases h : o.id.name = x <;> simp [named, h]

/-! ## The law -/

/-- What an occurrence is reported as after the `earlier` ones of the same name; nothing if it is
accepted. The first is always accepted. -/
def Occurrence.clash? (earlier : List Occurrence) (o : Occurrence) : Option SemanticError.Kind :=
  match earlier with
  | [] => none
  | first :: _ =>
    match o.form with
    | .var => some (if first.form = .var then .redefinition else .redeclaration)
    | .declared => some .redeclaration
    | .defined =>
      if first.form = .var ∨ ∃ e ∈ earlier, e.form = .defined then some .redefinition
      else none

/-- The symbol of a name by all its occurrences. Kind and span are those of the first. A function
takes the type of its first definition, if there is one. -/
def symbol? : List Occurrence → Option Symbol
  | [] => none
  | first :: more =>
    let definition? := (first :: more).find? (·.form = .defined)
    some {
      name := first.id.name
      kind := if first.form = .var then .var else .func
      ty := if first.form = .var then first.ty else (definition?.getD first).ty
      defined := first.form = .var || definition?.isSome
      span := first.id.span }

/-- The symbols of some occurrences, in the order in which their names first occur. -/
def symbolsOf (os : List Occurrence) : List Symbol :=
  (os.map (·.id.name)).eraseDups.filterMap fun x => symbol? (named os x)

/-- The file scope binds the names of the occurrences to their symbols, and the names are recorded
in the order in which they first occur. -/
structure Records (os : List Occurrence) (s : State) : Prop where
  globals : s.globals = (os.map (·.id.name)).eraseDups
  file : ∀ x, s.scopes.file.get? x = symbol? (named os x)

/-! ## Names without repetition -/

theorem eraseDups_concat (xs : List String) (x : String) :
    (xs ++ [x]).eraseDups = if x ∈ xs then xs.eraseDups else xs.eraseDups ++ [x] := by
  rw [List.eraseDups_append]
  by_cases h : x ∈ xs <;> simp [List.removeAll, List.eraseDups_cons, h]

theorem nodup_eraseDups (xs : List String) : xs.eraseDups.Nodup := by
  induction xs using List.reverseRecOn with
  | nil => exact List.nodup_nil
  | append_singleton xs x ih =>
    rw [eraseDups_concat]
    split
    · exact ih
    · next hx =>
      rw [← List.concat_eq_append]
      exact ih.concat fun hmem => hx (List.mem_eraseDups.1 hmem)

theorem recordName_of_mem {names : List String} {name : String} (h : name ∈ names) :
    recordName names name = names := if_pos (by simpa using h)

theorem recordName_of_not_mem {names : List String} {name : String} (h : name ∉ names) :
    recordName names name = names ++ [name] := if_neg (by simpa using h)

/-- Recording a name keeps the names in the order in which they came first. -/
theorem recordName_eraseDups (xs : List String) (x : String) :
    recordName xs.eraseDups x = (xs ++ [x]).eraseDups := by
  rw [eraseDups_concat]
  split
  · next h => exact recordName_of_mem (List.mem_eraseDups.2 h)
  · next h => exact recordName_of_not_mem fun hmem => h (List.mem_eraseDups.1 hmem)

/-- Of names without repetition at most one is `x`. -/
theorem filterMap_eq_toList {xs : List String} (h : xs.Nodup) (x : String) (y : Option α) :
    xs.filterMap (fun n => if n = x then y else none) = if x ∈ xs then y.toList else [] := by
  induction xs with
  | nil => rfl
  | cons n xs ih =>
    obtain ⟨hn, hxs⟩ := List.nodup_cons.1 h
    rw [List.filterMap_cons, ih hxs]
    by_cases hx : n = x
    · subst hx
      cases y <;> simp [hn]
    · simp [hx, Ne.symm hx]

/-! ## The symbols of occurrences -/

/-- A name occurs if there are occurrences of it. -/
theorem mem_names_iff (os : List Occurrence) (x : String) :
    x ∈ os.map (·.id.name) ↔ named os x ≠ [] := by
  simp only [named, ne_eq, List.filter_eq_nil_iff, List.mem_map, decide_eq_true_eq, not_forall,
    not_not, exists_prop]

theorem name_of_symbol? {os : List Occurrence} {x : String} {y : Symbol}
    (h : symbol? (named os x) = some y) : y.name = x := by
  cases hos : named os x with
  | nil => simp [hos, symbol?] at h
  | cons first more =>
    have hfirst : first ∈ named os x := by simp [hos]
    simp only [hos, symbol?, Option.some.injEq] at h
    rw [← h]
    simpa using (List.mem_filter.1 hfirst).2

theorem isSome_symbol?_iff (os : List Occurrence) (x : String) :
    (symbol? (named os x)).isSome = true ↔ x ∈ os.map (·.id.name) := by
  rw [mem_names_iff]
  cases named os x <;> simp [symbol?]

theorem names_symbolsOf (os : List Occurrence) :
    (symbolsOf os).map (·.name) = (os.map (·.id.name)).eraseDups := by
  have hname : ∀ x ∈ (os.map (·.id.name)).eraseDups,
      (symbol? (named os x)).map (·.name) = some x := by
    intro x hx
    obtain ⟨y, hy⟩ := Option.isSome_iff_exists.1
      ((isSome_symbol?_iff os x).2 (List.mem_eraseDups.1 hx))
    rw [hy, Option.map_some, name_of_symbol? hy]
  rw [symbolsOf, List.map_filterMap, List.filterMap_congr hname, List.filterMap_some]

/-- A name has one symbol, if it occurs. -/
theorem filter_symbolsOf (os : List Occurrence) (x : String) :
    (symbolsOf os).filter (·.name = x) = (symbol? (named os x)).toList := by
  have hone : ∀ n ∈ (os.map (·.id.name)).eraseDups,
      (symbol? (named os n)).filter (fun y => decide (y.name = x)) =
        if n = x then symbol? (named os x) else none := by
    intro n _
    cases hy : symbol? (named os n) with
    | none =>
      split
      · next h => rw [← h, hy, Option.filter_none]
      · rfl
    | some y =>
      have hname := name_of_symbol? hy
      by_cases hn : n = x
      · rw [if_pos hn, ← hn, hy]
        simp [hname]
      · simp [hn, hname]
  rw [symbolsOf, List.filter_filterMap, List.filterMap_congr hone,
    filterMap_eq_toList (nodup_eraseDups _)]
  split
  · rfl
  · next h =>
    rw [List.mem_eraseDups, ← isSome_symbol?_iff, Option.not_isSome_iff_eq_none] at h
    rw [h, Option.toList_none]

section

variable {os : List Occurrence} {o : Occurrence}

/-- The first occurrence of a name adds a symbol at the end. -/
theorem symbolsOf_concat_of_new (hnew : named os o.id.name = []) :
    symbolsOf (os ++ [o]) = symbolsOf os ++ (symbol? [o]).toList := by
  have hmem : o.id.name ∉ os.map (·.id.name) := fun h => (mem_names_iff os _).1 h hnew
  have hold : ∀ x ∈ (os.map (·.id.name)).eraseDups,
      symbol? (named (os ++ [o]) x) = symbol? (named os x) := by
    intro x hx
    have hne : o.id.name ≠ x := fun h => hmem (h ▸ List.mem_eraseDups.1 hx)
    rw [named_concat, if_neg hne]
  have hlast : symbol? (named (os ++ [o]) o.id.name) = symbol? [o] := by
    rw [named_concat, if_pos rfl, hnew, List.nil_append]
  rw [symbolsOf, List.map_append, List.map_singleton, eraseDups_concat, if_neg hmem,
    List.filterMap_append, List.filterMap_congr hold, List.filterMap_cons, hlast]
  rfl

/-- A later occurrence changes the symbol of its name by some `f`, and no other. -/
theorem symbolsOf_concat_of_old (hold : named os o.id.name ≠ []) {f : Symbol → Symbol}
    (hf : symbol? (named os o.id.name ++ [o]) = (symbol? (named os o.id.name)).map f) :
    symbolsOf (os ++ [o]) =
      (symbolsOf os).map fun y => if y.name == o.id.name then f y else y := by
  rw [symbolsOf, List.map_append, List.map_singleton, eraseDups_concat,
    if_pos ((mem_names_iff os _).2 hold), symbolsOf, List.map_filterMap]
  refine List.filterMap_congr fun x _ => ?_
  rw [named_concat]
  by_cases hx : o.id.name = x
  · rw [if_pos hx, ← hx, hf]
    cases hy : symbol? (named os o.id.name) with
    | none => rfl
    | some y => simp [name_of_symbol? hy]
  · rw [if_neg hx]
    cases hy : symbol? (named os x) with
    | none => rfl
    | some y => simp [name_of_symbol? hy, Ne.symm hx]

end

namespace Records

variable {os : List Occurrence} {s : State}

theorem initial : Records [] .initial := ⟨rfl, fun _ => rfl⟩

theorem isSome_get?_iff (h : Records os s) (x : String) :
    (s.scopes.file.get? x).isSome = true ↔ x ∈ os.map (·.id.name) := by
  rw [h.file, isSome_symbol?_iff]

/-- A name is recorded iff the file scope binds it. -/
theorem mem_globals_iff (h : Records os s) (x : String) :
    x ∈ s.globals ↔ (s.scopes.file.get? x).isSome = true := by
  rw [h.globals, List.mem_eraseDups, h.isSome_get?_iff]

theorem symbols_eq (h : Records os s) : s.symbols = symbolsOf os := by
  rw [State.symbols, h.globals, symbolsOf]
  exact List.filterMap_congr fun x _ => h.file x

/-- What is listed under a name is what the file scope binds to it. -/
theorem find?_symbols (h : Records os s) (x : String) :
    s.symbols.find? (·.name == x) = s.scopes.file.get? x := by
  have hfilter := filter_symbolsOf os x
  rw [h.symbols_eq, h.file, ← List.head?_filter]
  simp only [beq_eq_decide, hfilter]
  cases symbol? (named os x) <;> rfl

theorem congr (h : Records os s) {t : State} (hglobals : t.globals = s.globals)
    (hscopes : t.scopes = s.scopes) : Records os t := by
  refine ⟨hglobals.trans h.globals, fun x => ?_⟩
  rw [hscopes, h.file]

/-- One more occurrence, whose name is recorded and gets its symbol. -/
theorem concat (h : Records os s) {o : Occurrence} {t : State}
    (hglobals : t.globals = recordName s.globals o.id.name)
    (hfile : ∀ x, t.scopes.file.get? x =
      if o.id.name = x then symbol? (named os x ++ [o]) else s.scopes.file.get? x) :
    Records (os ++ [o]) t := by
  refine ⟨?_, fun x => ?_⟩
  · rw [hglobals, h.globals, recordName_eraseDups, List.map_append, List.map_singleton]
  · rw [hfile, h.file, named_concat]
    split <;> rfl

end Records

/-! ## One occurrence -/

namespace Occurrence

def kind (o : Occurrence) : SymbolKind := if o.form = .var then .var else .func

/-- Everything but a function without body defines its name. -/
def defining (o : Occurrence) : Bool := o.form ≠ .declared

/-- Binds the name of an occurrence at file scope. -/
def bind (o : Occurrence) : Check Unit :=
  if o.form = .var then Check.bindGlobal o.id o.ty
  else Check.bindFunction o.id o.ty o.defining

/-- What the law makes of an occurrence as a verdict. -/
def verdict (earlier : List Occurrence) (o : Occurrence) : Verdict :=
  match o.clash? earlier with
  | some kind => .clash kind
  | none => if earlier = [] then .fresh else .completes

/-- Judging an occurrence against the symbol of the earlier ones follows the law. -/
theorem judge_eq (earlier : List Occurrence) (o : Occurrence) :
    Verdict.judge ((symbol? earlier).map fun x => (x.kind, x.defined)) o.kind o.defining =
      o.verdict earlier := by
  cases earlier with
  | nil => rfl
  | cons first more =>
    have hdef : ((first :: more).find? (·.form = .defined)).isSome = true ↔
        ∃ e ∈ first :: more, e.form = .defined := by
      simp [List.find?_isSome]
    simp only [symbol?, Option.map_some, verdict, clash?, kind, defining, ← hdef]
    generalize ((first :: more).find? (·.form = .defined)).isSome = isDefined
    cases first.form <;> cases o.form <;> cases isDefined <;> rfl

/-- What a function becomes by its first definition. -/
def define (o : Occurrence) (y : Symbol) : Symbol := { y with ty := o.ty, defined := true }

/-- A later occurrence changes the symbol of its name only if it is accepted. -/
theorem symbol?_concat {earlier : List Occurrence} (hne : earlier ≠ []) (o : Occurrence) :
    symbol? (earlier ++ [o]) =
      if o.clash? earlier = none then (symbol? earlier).map o.define else symbol? earlier := by
  obtain ⟨first, more, rfl⟩ := List.exists_cons_of_ne_nil hne
  have hdef : (∃ e ∈ first :: more, e.form = .defined) ↔
      ((first :: more).find? (·.form = .defined)).isSome = true := by
    simp [List.find?_isSome]
  rw [List.cons_append]
  simp only [symbol?, clash?, hdef, ← List.cons_append, List.find?_append]
  -- only the first definition after a declaration is accepted, and it was looked for in vain before
  generalize (first :: more).find? (·.form = .defined) = d
  cases hfirst : first.form <;> cases ho : o.form <;> cases d <;> simp [ho, define]

/-- A variable never completes anything. -/
theorem form_ne_of_completes {earlier : List Occurrence} {o : Occurrence} (hne : earlier ≠ [])
    (hc : o.clash? earlier = none) : o.form ≠ .var := by
  intro hform
  obtain ⟨first, more, rfl⟩ := List.exists_cons_of_ne_nil hne
  simp [clash?, hform] at hc

section

variable {os : List Occurrence} {s : State} (h : Records os s) (o : Occurrence)

include h in
theorem judge_existing :
    Verdict.judge (Check.existing s o.id.name) o.kind o.defining =
      o.verdict (named os o.id.name) := by
  rw [Check.existing, h.file, judge_eq]

include h in
theorem bind_variable_apply (hform : o.form = .var) :
    o.bind s =
      match o.verdict (named os o.id.name) with
      | .clash kind => ⟨(), s, [.reported (.atIdent kind o.id)]⟩
      | _ => ⟨(),
          { s with
            pending :=
              if s.structs.isIncomplete o.ty then s.pending ++ [⟨o.id, o.ty⟩] else s.pending
            scopes := s.scopes.bindFile (.ofVariable o.id.name o.ty o.id.span)
            globals := recordName s.globals o.id.name },
          [.globalBound o.id.name o.ty]⟩ := by
  have hkind : o.kind = .var := if_pos hform
  have hdef : o.defining = true := by simp [defining, hform]
  have hjudge := judge_existing h o
  rw [hkind, hdef] at hjudge
  have hglobal := Check.bindGlobal_apply o.id o.ty s
  rw [hjudge] at hglobal
  rw [bind, if_pos hform]
  exact hglobal

include h in
theorem bind_function_apply (hform : o.form ≠ .var) :
    o.bind s =
      match o.verdict (named os o.id.name) with
      | .fresh => ⟨(),
          { s with
            scopes := s.scopes.bindFile (.ofFunction o.id.name o.ty o.defining o.id.span)
            globals := recordName s.globals o.id.name },
          [.functionBound o.id.name o.ty o.defining]⟩
      | .completes => ⟨(), { s with scopes := s.scopes.updateFile o.id.name o.define },
          [.functionDefined o.id.name o.ty]⟩
      | .clash kind => ⟨(), s, [.reported (.atIdent kind o.id)]⟩ := by
  have hkind : o.kind = .func := if_neg hform
  have hjudge := judge_existing h o
  rw [hkind] at hjudge
  have hfunction := Check.bindFunction_apply o.id o.ty o.defining s
  rw [hjudge] at hfunction
  rw [bind, if_neg hform]
  exact hfunction

include h in
theorem bind_of_clash {kind : SemanticError.Kind}
    (hc : o.clash? (named os o.id.name) = some kind) :
    o.bind s = ⟨(), s, [.reported (.atIdent kind o.id)]⟩ := by
  have hv : o.verdict (named os o.id.name) = .clash kind := by simp [verdict, hc]
  by_cases hform : o.form = .var
  · rw [bind_variable_apply h o hform, hv]
  · rw [bind_function_apply h o hform, hv]

include h in
theorem bind_of_fresh (hnew : named os o.id.name = []) :
    Records (os ++ [o]) (o.bind s).state ∧ Event.errors (o.bind s).events = [] := by
  have hv : o.verdict (named os o.id.name) = .fresh := by simp [verdict, hnew, clash?]
  -- the name is bound to the symbol of this one occurrence
  have hbind : ∀ y : Symbol, y.name = o.id.name → symbol? [o] = some y → ∀ x,
      (s.scopes.file.bind y).get? x =
        if o.id.name = x then symbol? (named os x ++ [o]) else s.scopes.file.get? x := by
    intro y hname hy x
    rw [Scope.get?_bind, hname]
    split
    · next hx => rw [← hx, hnew, List.nil_append, hy]
    · rfl
  by_cases hform : o.form = .var
  · rw [bind_variable_apply h o hform, hv]
    refine ⟨h.concat rfl (hbind _ rfl ?_), rfl⟩
    simp [symbol?, hform, Symbol.ofVariable]
  · rw [bind_function_apply h o hform, hv]
    refine ⟨h.concat rfl (hbind _ rfl ?_), rfl⟩
    cases hf : o.form with
    | var => exact absurd hf hform
    | _ => simp [symbol?, defining, hf, Symbol.ofFunction]

include h in
/-- A name that occurred before is recorded. -/
theorem recordName_of_old (hold : named os o.id.name ≠ []) :
    recordName s.globals o.id.name = s.globals := by
  refine recordName_of_mem ?_
  rw [h.globals, List.mem_eraseDups]
  exact (mem_names_iff os _).2 hold

include h in
theorem bind_of_completes (hold : named os o.id.name ≠ [])
    (hc : o.clash? (named os o.id.name) = none) :
    Records (os ++ [o]) (o.bind s).state ∧ Event.errors (o.bind s).events = [] := by
  have hv : o.verdict (named os o.id.name) = .completes := by simp [verdict, hc, hold]
  have hsymbol := symbol?_concat hold o
  rw [if_pos hc] at hsymbol
  rw [bind_function_apply h o (form_ne_of_completes hold hc), hv]
  refine ⟨h.concat (recordName_of_old h o hold).symm fun x => ?_, rfl⟩
  refine (Scope.get?_update _ _ _ _).trans ?_
  split
  · next hx => rw [← hx, hsymbol, h.file]
  · rfl

include h in
/-- Binding an occurrence follows the law: what is reported and which symbols there are. -/
theorem bind_records :
    Records (os ++ [o]) (o.bind s).state ∧
      Event.errors (o.bind s).events =
        (o.clash? (named os o.id.name)).toList.map (SemanticError.atIdent · o.id) := by
  by_cases hnew : named os o.id.name = []
  · obtain ⟨hrecords, herr⟩ := bind_of_fresh h o hnew
    rw [herr, hnew]
    exact ⟨hrecords, rfl⟩
  · cases hc : o.clash? (named os o.id.name) with
    | none =>
      obtain ⟨hrecords, herr⟩ := bind_of_completes h o hnew hc
      rw [herr]
      exact ⟨hrecords, rfl⟩
    | some kind =>
      have hsymbol := symbol?_concat hnew o
      rw [if_neg (by simp [hc])] at hsymbol
      rw [bind_of_clash h o hc]
      refine ⟨h.concat (recordName_of_old h o hnew).symm fun x => ?_, rfl⟩
      split
      · next hx => rw [← hx, hsymbol, h.file]
      · rfl

include h in
theorem symbols_bind_of_fresh (hnew : named os o.id.name = []) :
    (o.bind s).state.symbols = s.symbols ++ (symbol? [o]).toList := by
  rw [(bind_records h o).1.symbols_eq, symbolsOf_concat_of_new hnew, h.symbols_eq]

include h in
theorem symbols_bind_of_completes (hold : named os o.id.name ≠ [])
    (hc : o.clash? (named os o.id.name) = none) :
    (o.bind s).state.symbols =
      s.symbols.map fun y => if y.name == o.id.name then o.define y else y := by
  have hsymbol := symbol?_concat hold o
  rw [if_pos hc] at hsymbol
  rw [(bind_records h o).1.symbols_eq, symbolsOf_concat_of_old hold hsymbol, h.symbols_eq]

end

end Occurrence

/-! ## Whole programs -/

namespace Item

/-- The error about a global variable that makes no occurrence. -/
def dropped : Item → List SemanticError
  | .global decl => [.atIdent .incompleteType decl.core]
  | .function _ _ | .prototype _ | .tagOnly _ => []

variable {item : Item} {s : State} {known : List String}

theorem bindName_of_some (hin : s.scopes.inner = [])
    (hs : s.structs.Knows (completed known item.headerSpecifiers)) {o : Occurrence}
    (ho : item.occurrence? known = some o) : item.bindName s = o.bind s := by
  cases item with
  | function sig _ =>
    cases ho
    rfl
  | prototype sig =>
    cases ho
    rfl
  | global decl =>
    rw [headerSpecifiers, completed_decl] at hs
    have hty := hs.isIncomplete_eq_false_iff decl.ty
    rw [occurrence?] at ho
    split at ho
    · cases ho
    · rename_i hkeep
      cases ho
      rw [bindName, Check.bindVariable_apply_file hin, if_neg]
      · rfl
      · rw [Bool.and_eq_true, and_comm]
        rintro ⟨harray, hinc⟩
        exact hkeep ⟨harray, fun hc => by rw [hty.2 hc] at hinc; cases hinc⟩
  | tagOnly _ => cases ho

theorem bindName_of_none (hin : s.scopes.inner = [])
    (hs : s.structs.Knows (completed known item.headerSpecifiers))
    (ho : item.occurrence? known = none) :
    item.bindName s = ⟨(), s, item.dropped.map .reported⟩ := by
  cases item with
  | function sig _ => cases ho
  | prototype sig => cases ho
  | global decl =>
    rw [headerSpecifiers, completed_decl] at hs
    have hty := hs.isIncomplete_eq_false_iff decl.ty
    rw [occurrence?] at ho
    split at ho
    · rename_i hdrop
      rw [bindName, Check.bindVariable_apply_file hin, if_pos]
      · rfl
      · rw [Bool.and_eq_true]
        exact ⟨by simpa using fun h => hdrop.2 (hty.1 h), hdrop.1⟩
    · cases ho
  | tagOnly _ => rfl

end Item

/-- What is reported when the name of `item` is bound after the items `before`. -/
def nameErrors (before : List Item) (item : Item) : List SemanticError :=
  match item.occurrence? (tagsAfter before) with
  | some o =>
    (o.clash? (named (occurrences before) o.id.name)).toList.map (SemanticError.atIdent · o.id)
  | none => item.dropped

theorem bindName_records {before : List Item} (item : Item)
    (h : Records (occurrences before) (stateAfter before)) :
    Records (occurrences (before ++ [item])) (item.namedState (stateAfter before)) ∧
      Event.errors (item.bindName (item.headerState (stateAfter before))).events =
        nameErrors before item := by
  have hc := item.checked_stateAfter before
  have hin : (item.headerState (stateAfter before)).scopes.inner = [] := by
    rw [hc.header_scopes, inner_stateAfter]
  have hheader := h.congr hc.header_globals hc.header_scopes
  rw [occurrences_concat, Item.namedState, nameErrors]
  cases ho : item.occurrence? (tagsAfter before) with
  | none =>
    rw [Item.bindName_of_none hin hc.header_knows ho, Option.toList_none, List.append_nil]
    exact ⟨hheader, Event.errors_map_reported _⟩
  | some o =>
    rw [Item.bindName_of_some hin hc.header_knows ho]
    exact o.bind_records hheader

/-- After some items the file scope has the symbols of their occurrences. -/
theorem records_stateAfter (items : List Item) :
    Records (occurrences items) (stateAfter items) := by
  induction items using List.reverseRecOn with
  | nil => exact .initial
  | append_singleton before item ih =>
    have hc := item.checked_stateAfter before
    rw [stateAfter_concat]
    exact (bindName_records item ih).1.congr hc.globals hc.scopes

/-- The errors of an item after the items `before`: those of its header, then what the law says of
its name, then those of its body. -/
def itemErrors (before : List Item) (item : Item) : List SemanticError :=
  Event.errors (item.checkHeader (stateAfter before)).events ++ nameErrors before item ++
    Event.errors (item.walkBody (item.namedState (stateAfter before))).events

theorem errors_check (before : List Item) (item : Item) :
    Event.errors (item.check (stateAfter before)).events = itemErrors before item := by
  have hname := (bindName_records item (records_stateAfter before)).2
  rw [Item.check_eq, itemErrors, ← hname]
  simp only [Check.bind_apply, Event.errors_append, List.append_assoc]
  rfl

def errorsFrom (before : List Item) : List Item → List SemanticError
  | [] => []
  | item :: more => itemErrors before item ++ errorsFrom (before ++ [item]) more

theorem errors_checkItems (before items : List Item) :
    Event.errors (checkItems items (stateAfter before)).events = errorsFrom before items := by
  induction items generalizing before with
  | nil => rfl
  | cons item items ih =>
    rw [checkItems, Check.bind_apply, Event.errors_append, errors_check, ← stateAfter_concat, ih,
      errorsFrom]

/-- **Classification at file scope.** The errors of a run are, item by item, those of the header,
the clash of the declared name with its earlier occurrences, and those of the body; deferred errors
come last. The names that are recorded are those that occur, in the order of first occurrence, and
they are the names that the file scope binds. Each of them has one symbol in the result, in this
order, and its symbol is determined by its occurrences. -/
theorem run_classifies_names (p : Program) :
    p.run.errors = errorsFrom [] p.items ++ p.deferred ∧
      ((stateAfter p.items).globals = ((occurrences p.items).map (·.id.name)).eraseDups ∧
        ∀ x, x ∈ (stateAfter p.items).globals ↔
          ((stateAfter p.items).scopes.findFile? x).isSome = true) ∧
      p.run.result.symbols.map (·.name) = ((occurrences p.items).map (·.id.name)).eraseDups ∧
      ∀ x, p.run.result.symbols.filter (·.name = x) =
        (symbol? (named (occurrences p.items) x)).toList := by
  have h := records_stateAfter p.items
  rw [p.errors_run, p.symbols_run, ← errors_checkItems, h.symbols_eq]
  exact ⟨rfl, ⟨h.globals, h.mem_globals_iff⟩, names_symbolsOf _, filter_symbolsOf _⟩

end MiniC
