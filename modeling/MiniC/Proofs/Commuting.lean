import MiniC.Proofs.Lockstep.Walk

/-!
# Independent items

An item looks at the struct tags that it mentions and at the file-scope names that it declares or
uses, and at nothing else; of these it changes the tags and the name it declares. So two items that
have no tag in common, and neither of which declares a name that the other declares or uses, can
change places: each reports what it did before, and all that comes after them is the same
(`run_commutes_independent_items`).

`Item.check_framed` is the frame of a single item, as a law about two runs of it in lockstep.
-/

namespace MiniC

/-! ## Frames -/

section

variable {α β : Type} (get? : α → String → Option β)

/-- A change that is seen at `key` only, and depends at each key on what is there. -/
structure LocalTo (key : String) (g : α → α) : Prop where
  congr : ∀ {s t n}, get? s n = get? t n → get? (g s) n = get? (g t) n
  other : ∀ s {n}, n ≠ key → get? (g s) n = get? s n

/-- Two runs that lead from `s` to `s'` and from `t` to `t'` come to the same at the keys they
read, and leave alone what they do not write. -/
structure Framed (Reads Writes : String → Prop) (s t s' t' : α) : Prop where
  reads : ∀ {n}, Reads n → get? t' n = get? s' n
  left : ∀ {n}, ¬ Writes n → get? s' n = get? s n
  right : ∀ {n}, ¬ Writes n → get? t' n = get? t n

variable {get?} {Reads Writes : String → Prop} {s t s' t' : α}

theorem LocalTo.comp {key : String} {g g' : α → α} (h : LocalTo get? key g)
    (h' : LocalTo get? key g') : LocalTo get? key fun s => g' (g s) := by
  refine ⟨fun hget => h'.congr (h.congr hget), fun s n hn => ?_⟩
  rw [h'.other (g s) hn, h.other s hn]

/-- Before the first step. -/
theorem Framed.start (h : ∀ {n}, Reads n → get? t n = get? s n) :
    Framed get? Reads Writes s t s t :=
  ⟨h, fun _ => rfl, fun _ => rfl⟩

theorem Framed.change (h : Framed get? Reads Writes s t s' t') {key : String} {g : α → α}
    (hg : LocalTo get? key g) (hkey : Writes key) :
    Framed get? Reads Writes s t (g s') (g t') := by
  have hne : ∀ {n}, ¬ Writes n → n ≠ key := by
    rintro n hn rfl
    exact hn hkey
  refine ⟨fun hn => hg.congr (h.reads hn), fun hn => ?_, fun hn => ?_⟩
  · rw [hg.other s' (hne hn), h.left hn]
  · rw [hg.other t' (hne hn), h.right hn]

/-- Runs that start alike come to the same everywhere. -/
theorem Framed.alike (h : Framed get? Reads Writes s t s' t') (hsub : ∀ {n}, Writes n → Reads n)
    (hstart : ∀ n, get? t n = get? s n) (n : String) : get? t' n = get? s' n := by
  by_cases hn : Writes n
  · exact h.reads (hsub hn)
  · rw [h.left hn, h.right hn, hstart n]

/-- Two frames whose runs start one after the other, in either order: `A` leads from `s` to `a` and
from `b` to `ba`, and `B` leads from `s` to `b` and from `a` to `ab`. -/
theorem Framed.commute {ReadsA WritesA ReadsB WritesB : String → Prop} {a b ab ba : α}
    (hA : Framed get? ReadsA WritesA s b a ba) (hB : Framed get? ReadsB WritesB s a b ab)
    (hreadsA : ∀ {n}, WritesA n → ReadsA n) (hreadsB : ∀ {n}, WritesB n → ReadsB n)
    (hdisjoint : ∀ {n}, WritesA n → ¬ WritesB n) (n : String) : get? ba n = get? ab n := by
  by_cases hwA : WritesA n
  · rw [hA.reads (hreadsA hwA), hB.right (hdisjoint hwA)]
  · rw [hA.right hwA]
    by_cases hwB : WritesB n
    · exact (hB.reads (hreadsB hwB)).symm
    · rw [hB.left hwB, hB.right hwB, hA.left hwA]

end

namespace StructTable

theorem localTo_mention (tag : String) : LocalTo get? tag (mention · tag) := by
  refine ⟨fun {s t n} h => ?_, fun t {n} hn => ?_⟩
  · rw [get?_mention, get?_mention, h]
  · rw [get?_mention, if_neg (Ne.symm hn), Option.or_none]

theorem localTo_update (tag : String) (f : StructDef → StructDef) :
    LocalTo get? tag (update · tag f) := by
  refine ⟨fun {s t n} h => ?_, fun t {n} hn => ?_⟩
  · rw [get?_update, get?_update, h]
  · rw [get?_update, if_neg (Ne.symm hn)]

theorem localTo_begin (tag : String) : LocalTo get? tag (begin · tag) :=
  (localTo_mention tag).comp (localTo_update tag StructDef.begin)

theorem localTo_giveFields (tag : String) (fields : List Field) :
    LocalTo get? tag (giveFields · tag fields) :=
  localTo_update tag fun d => { d with fields := fields }

end StructTable

namespace Scope

theorem localTo_bind (x : Symbol) : LocalTo get? x.name (bind · x) := by
  refine ⟨fun {s t n} h => ?_, fun s {n} hn => ?_⟩
  · rw [get?_bind, get?_bind, h]
  · rw [get?_bind, if_neg (Ne.symm hn)]

theorem localTo_update (name : String) (f : Symbol → Symbol) :
    LocalTo get? name (update · name f) := by
  refine ⟨fun {s t n} h => ?_, fun s {n} hn => ?_⟩
  · rw [get?_update, get?_update, h]
  · rw [get?_update, if_neg (Ne.symm hn)]

end Scope

/-! ## The frame of an item -/

namespace Item

/-- The names that identifiers of an item have in a role. -/
def namesAs (item : Item) (role : Role) : List String :=
  (item.labels.filter (·.role = role)).map (·.ident.name)

theorem mem_namesAs {item : Item} {l : Label} (h : l ∈ item.labels) :
    l.ident.name ∈ item.namesAs l.role :=
  List.mem_map_of_mem (List.mem_filter.2 ⟨h, by simp⟩)

/-- The file-scope names that an item looks up. -/
def Looks (item : Item) (n : String) : Prop := n ∈ item.namesAs .file ∨ n ∈ item.namesAs .use

end Item

/-- Two runs of an item, from `s` to `s'` and from `t` to `t'`. -/
structure State.Framed (item : Item) (s t s' t' : State) : Prop where
  structs : MiniC.Framed StructTable.get? (· ∈ item.namesAs .tag) (· ∈ item.namesAs .tag)
    s.structs t.structs s'.structs t'.structs
  file : MiniC.Framed Scope.get? item.Looks (· ∈ item.namesAs .file)
    s.scopes.file t.scopes.file s'.scopes.file t'.scopes.file
  pending : ∃ new : List TypedIdent, (∀ d ∈ new, ⟨.file, d.ident⟩ ∈ item.labels) ∧
    s'.pending = s.pending ++ new ∧ t'.pending = t.pending ++ new

/-- Two runs of an item that start in `s` and in `t`. -/
def Lockstep.framed (item : Item) (s t : State) : Lockstep Bool where
  label _ := .refl
  Allowed l := l ∈ item.labels
  Tables u := Framed StructTable.get? (· ∈ item.namesAs .tag) (· ∈ item.namesAs .tag)
    s.structs t.structs (u false) (u true)
  Files f := Framed Scope.get? item.Looks (· ∈ item.namesAs .file)
    s.scopes.file t.scopes.file (f false) (f true)
  Orders _ := True
  Queues q := ∃ new : List TypedIdent, (∀ d ∈ new, ⟨.file, d.ident⟩ ∈ item.labels) ∧
    q false = s.pending ++ new ∧ q true = t.pending ++ new
  isDefined := by
    intro u hu tag htag
    refine ⟨(u false).isDefined tag.name, Bool.rec rfl ?_⟩
    exact congrArg (Option.any _) (hu.reads (Item.mem_namesAs htag))
  mention := by
    intro u hu tag htag
    exact hu.change (StructTable.localTo_mention tag.name) (Item.mem_namesAs htag)
  begin := by
    intro u hu tag htag _
    exact hu.change (StructTable.localTo_begin tag.name) (Item.mem_namesAs htag)
  giveFields := by
    intro u hu tag htag _ fields
    exact hu.change (StructTable.localTo_giveFields tag.name _) (Item.mem_namesAs htag)
  get? := by
    intro f hf l hl hrole
    have hlooks : item.Looks l.ident.name := by
      have hmem := Item.mem_namesAs hl
      rcases hrole with hrole | hrole <;> rw [hrole] at hmem
      · exact .inl hmem
      · exact .inr hmem
    refine ⟨(f false).get? l.ident.name, fun i => ?_⟩
    rw [Symbol.relabel_refl, Option.map_id_apply]
    cases i with
    | false => rfl
    | true => exact hf.reads hlooks
  bind := by
    intro f hf id hid x hx
    rw [Symbol.relabel_refl]
    exact hf.change (Scope.localTo_bind x) (hx ▸ Item.mem_namesAs hid)
  define := by
    intro f hf id hid ty
    rw [Ty.relabel_refl]
    exact hf.change (Scope.localTo_update id.name (Symbol.define ty))
      (Item.mem_namesAs hid)
  record := by
    intro g hg id _
    trivial
  enqueue := by
    rintro q ⟨new, hnew, hs, ht⟩ d hd
    rw [TypedIdent.relabel_refl]
    refine ⟨new ++ [d], ?_, ?_, ?_⟩
    · rw [List.forall_mem_append, List.forall_mem_singleton]
      exact ⟨hnew, hd⟩
    · exact (congrArg (· ++ [d]) hs).trans (List.append_assoc _ _ _)
    · exact (congrArg (· ++ [d]) ht).trans (List.append_assoc _ _ _)

/-- The states agree in all that an item looks at. -/
structure State.Agree (item : Item) (s t : State) : Prop where
  structs : ∀ {n}, n ∈ item.namesAs .tag → t.structs.get? n = s.structs.get? n
  file : ∀ {n}, item.Looks n → t.scopes.file.get? n = s.scopes.file.get? n

/-- An item reads and writes the entries of its own tags and names only, and reports the same where
these agree. -/
theorem Item.check_framed (item : Item) {s t : State} (hs : s.scopes.inner = [])
    (ht : t.scopes.inner = []) (h : State.Agree item s t) :
    State.Framed item s t (item.check s).state (item.check t).state ∧
      Event.errors (item.check t).events = Event.errors (item.check s).events := by
  let start : Bool → State := fun second => if second then t else s
  have hstart : (Lockstep.framed item s t).Related 0 start := by
    refine ⟨.start h.structs, .start h.file, trivial,
      ⟨[], by simp, by simp [start], by simp [start]⟩, [], rfl, fun second => ?_⟩
    cases second
    · exact hs
    · exact ht
  have hrun := Lockstep.goes_check (fun _ => rfl) item (fun _ hl => hl) start hstart
  exact ⟨⟨hrun.state.tables, hrun.state.files, hrun.state.queues⟩,
    hrun.findings.errors_eq (fun _ => rfl) true false⟩

/-! ## Items that follow -/

/-- The states are at file scope and look the same under every name and tag. -/
structure State.Alike (s t : State) : Prop where
  structs : ∀ n, t.structs.get? n = s.structs.get? n
  file : ∀ n, t.scopes.file.get? n = s.scopes.file.get? n
  inner : s.scopes.inner = [] ∧ t.scopes.inner = []

theorem State.Alike.initial : State.Alike .initial .initial :=
  ⟨fun _ => rfl, fun _ => rfl, rfl, rfl⟩

/-- The errors of each item, from a state on. -/
def blocksFrom (s : State) : List Item → List (List SemanticError)
  | [] => []
  | item :: more => Event.errors (item.check s).events :: blocksFrom (item.check s).state more

theorem length_blocksFrom (s : State) (items : List Item) :
    (blocksFrom s items).length = items.length := by
  induction items generalizing s with
  | nil => rfl
  | cons item items ih => rw [blocksFrom, List.length_cons, ih, List.length_cons]

theorem flatten_blocksFrom (s : State) (items : List Item) :
    (blocksFrom s items).flatten = Event.errors (checkItems items s).events := by
  induction items generalizing s with
  | nil => rfl
  | cons item items ih =>
    rw [blocksFrom, List.flatten_cons, ih, checkItems, Check.bind_apply, Event.errors_append]

theorem blocksFrom_append (s : State) (items more : List Item) :
    blocksFrom s (items ++ more) =
      blocksFrom s items ++ blocksFrom (checkItems items s).state more := by
  induction items generalizing s with
  | nil => rfl
  | cons item items ih =>
    rw [List.cons_append, blocksFrom, blocksFrom, ih, checkItems, Check.bind_apply,
      List.cons_append]

/-- The globals in `new` are declared by some of the items. -/
def DeclaredIn (items : List Item) (new : List TypedIdent) : Prop :=
  ∀ d ∈ new, ∃ item ∈ items, ⟨.file, d.ident⟩ ∈ item.labels

theorem Item.inner_check (item : Item) {s : State} (hs : s.scopes.inner = []) :
    (item.check s).state.scopes.inner = [] := by
  obtain ⟨known, hknown⟩ := s.structs.exists_knows
  have h := item.checked hknown hs
  rw [h.scopes, h.named_inner]

theorem Item.check_alike (item : Item) {s t : State} (h : s.Alike t) :
    (item.check s).state.Alike (item.check t).state ∧
      Event.errors (item.check t).events = Event.errors (item.check s).events ∧
      ∃ new, DeclaredIn [item] new ∧ (item.check s).state.pending = s.pending ++ new ∧
        (item.check t).state.pending = t.pending ++ new := by
  obtain ⟨hs, ht⟩ := h.inner
  obtain ⟨hframe, herrors⟩ := item.check_framed hs ht ⟨fun _ => h.structs _, fun _ => h.file _⟩
  obtain ⟨new, hnew, hpending⟩ := hframe.pending
  refine ⟨⟨?_, ?_, item.inner_check hs, item.inner_check ht⟩, herrors, new, ?_, hpending⟩
  · exact hframe.structs.alike id h.structs
  · exact hframe.file.alike .inl h.file
  · exact fun d hd => ⟨item, List.mem_singleton_self item, hnew d hd⟩

/-- What items come to from states that look the same. -/
theorem checkItems_alike (items : List Item) {s t : State} (h : s.Alike t) :
    (checkItems items s).state.Alike (checkItems items t).state ∧
      blocksFrom t items = blocksFrom s items ∧
      ∃ new, DeclaredIn items new ∧ (checkItems items s).state.pending = s.pending ++ new ∧
        (checkItems items t).state.pending = t.pending ++ new := by
  induction items generalizing s t with
  | nil =>
    exact ⟨h, rfl, [], by simp [DeclaredIn], (List.append_nil _).symm, (List.append_nil _).symm⟩
  | cons item items ih =>
    obtain ⟨hstep, herrors, new, hnew, hs, ht⟩ := item.check_alike h
    obtain ⟨hmore, hblocks, rest, hrest, hs', ht'⟩ := ih hstep
    refine ⟨hmore, ?_, new ++ rest, ?_, ?_, ?_⟩
    · rw [blocksFrom, blocksFrom, herrors, hblocks]
    · intro d hd
      rcases List.mem_append.1 hd with hd | hd
      · obtain ⟨i, hi, hlabel⟩ := hnew d hd
        exact ⟨i, List.mem_singleton.1 hi ▸ List.mem_cons_self, hlabel⟩
      · obtain ⟨i, hi, hlabel⟩ := hrest d hd
        exact ⟨i, List.mem_cons_of_mem item hi, hlabel⟩
    · rw [checkItems, Check.bind_apply, hs', hs, List.append_assoc]
    · rw [checkItems, Check.bind_apply, ht', ht, List.append_assoc]

/-! ## Items that change places -/

namespace Item

/-- The items have no struct tag in common, and the name that one declares at file scope is neither
declared there nor used by the other. -/
structure Independent (a b : Item) : Prop where
  tags : ∀ n ∈ a.namesAs .tag, n ∉ b.namesAs .tag
  files : ∀ n ∈ a.namesAs .file, n ∉ b.namesAs .file
  uses : ∀ n ∈ a.namesAs .file, n ∉ b.namesAs .use
  used : ∀ n ∈ b.namesAs .file, n ∉ a.namesAs .use

variable {a b : Item} {s : State}

theorem Independent.symm (h : a.Independent b) : b.Independent a :=
  ⟨fun n hb ha => h.tags n ha hb, fun n hb ha => h.files n ha hb, h.used, h.uses⟩

/-- What `a` looks at is not changed by `b`. -/
theorem Independent.agree (h : a.Independent b) (hs : s.scopes.inner = []) :
    State.Agree a s (b.check s).state := by
  have hframe := (b.check_framed hs hs ⟨fun _ => rfl, fun _ => rfl⟩).1
  refine ⟨fun {n} hn => hframe.structs.left (h.tags n hn), fun {n} hn => hframe.file.left ?_⟩
  intro hdeclared
  rcases hn with hn | hn
  · exact h.files n hn hdeclared
  · exact h.used n hdeclared hn

/-- What the two items come to in either order. -/
structure Commute (a b : Item) (s : State) : Prop where
  alike : (b.check (a.check s).state).state.Alike (a.check (b.check s).state).state
  first : Event.errors (a.check (b.check s).state).events = Event.errors (a.check s).events
  second : Event.errors (b.check (a.check s).state).events = Event.errors (b.check s).events
  pending : ∃ da db, DeclaredIn [a] da ∧ DeclaredIn [b] db ∧
    (b.check (a.check s).state).state.pending = s.pending ++ (da ++ db) ∧
    (a.check (b.check s).state).state.pending = s.pending ++ (db ++ da)

theorem Independent.commute (h : a.Independent b) (hs : s.scopes.inner = []) : a.Commute b s := by
  obtain ⟨hA, herrorsA⟩ := a.check_framed hs (b.inner_check hs) (h.agree hs)
  obtain ⟨hB, herrorsB⟩ := b.check_framed hs (a.inner_check hs) (h.symm.agree hs)
  obtain ⟨da, hda, ha, hba⟩ := hA.pending
  obtain ⟨db, hdb, hb, hab⟩ := hB.pending
  refine ⟨⟨?_, ?_, ?_, ?_⟩, herrorsA, herrorsB, da, db, ?_, ?_, ?_, ?_⟩
  · exact hA.structs.commute hB.structs id id fun hn => h.tags _ hn
  · exact hA.file.commute hB.file .inl .inl fun hn => h.files _ hn
  · exact b.inner_check (a.inner_check hs)
  · exact a.inner_check (b.inner_check hs)
  · exact fun d hd => ⟨a, List.mem_singleton_self a, hda d hd⟩
  · exact fun d hd => ⟨b, List.mem_singleton_self b, hdb d hd⟩
  · rw [hab, ha, List.append_assoc]
  · rw [hba, hb, List.append_assoc]

end Item

/-- The errors of each item of a program that are reported while it is walked. -/
def Program.blocks (p : Program) : List (List SemanticError) := blocksFrom .initial p.items

theorem Program.errors_run_blocks (p : Program) :
    p.run.errors = p.blocks.flatten ++ p.deferred := by
  rw [p.errors_run, blocks, flatten_blocksFrom]
  rfl

/-- The error is about the incomplete type of a global that one of the items declares. -/
def SemanticError.DeferredBy (items : List Item) (e : SemanticError) : Prop :=
  ∃ item ∈ items, ∃ id, ⟨.file, id⟩ ∈ item.labels ∧ e = .atIdent .incompleteType id

/-- The errors of the globals of `new` whose type is incomplete in the end. -/
def State.late (s : State) (new : List TypedIdent) : List SemanticError :=
  (new.filter (s.structs.isIncomplete ·.ty)).map (.atIdent .incompleteType ·.ident)

theorem Program.deferred_eq_late (p : Program) :
    p.deferred = (stateAfter p.items).late (stateAfter p.items).pending :=
  p.deferred_eq_overdue

theorem State.late_append (s : State) (new more : List TypedIdent) :
    s.late (new ++ more) = s.late new ++ s.late more := by
  rw [late, List.filter_append, List.map_append, late, late]

theorem DeclaredIn.late {items : List Item} {new : List TypedIdent} (h : DeclaredIn items new)
    (s : State) : ∀ e ∈ s.late new, e.DeferredBy items := by
  intro e he
  obtain ⟨d, hd, rfl⟩ := List.mem_map.1 he
  obtain ⟨item, hitem, hlabel⟩ := h d (List.mem_of_mem_filter hd)
  exact ⟨item, hitem, d.ident, hlabel, rfl⟩

theorem State.Alike.late {s t : State} (h : s.Alike t) (new : List TypedIdent) :
    t.late new = s.late new := by
  have hincomplete : ∀ ty, t.structs.isIncomplete ty = s.structs.isIncomplete ty := by
    intro ty
    simp only [StructTable.isIncomplete_eq, StructTable.isDefined, h.structs]
  simp only [State.late, hincomplete]

/-- How the runs of the programs `p` and `q` compare, which have the neighbours `a` and `b` in this
order and in the other one. -/
structure Program.Exchanged (before after : List Item) (a b : Item) (p q : Program) : Prop where
  blocks : ∃ xs ea eb ys, xs.length = before.length ∧ p.blocks = xs ++ ea :: eb :: ys ∧
    q.blocks = xs ++ eb :: ea :: ys
  deferred : ∃ xs da db ys, p.deferred = xs ++ (da ++ db) ++ ys ∧
    q.deferred = xs ++ (db ++ da) ++ ys ∧ (∀ e ∈ xs, e.DeferredBy before) ∧
    (∀ e ∈ da, e.DeferredBy [a]) ∧ (∀ e ∈ db, e.DeferredBy [b]) ∧ ∀ e ∈ ys, e.DeferredBy after
  symbols : ∀ n, q.run.result.symbol? n = p.run.result.symbol? n
  structs : ∀ n, q.run.result.structs.get? n = p.run.result.structs.get? n

/-- **Independent items commute.** The errors of a run are the blocks of its items one after the
other, and then the deferred ones. When two independent neighbours change places, their blocks do
so too and no other block changes. The deferred errors, which stand in the order of the items that
declare the variables, are permuted in the same way. Every name has the same symbol and every tag
the same definition. -/
theorem run_commutes_independent_items (before after : List Item) {a b : Item}
    (h : a.Independent b) :
    (∀ p : Program, p.run.errors = p.blocks.flatten ++ p.deferred) ∧
      Program.Exchanged before after a b ⟨before ++ a :: b :: after⟩
        ⟨before ++ b :: a :: after⟩ := by
  refine ⟨Program.errors_run_blocks, ?_⟩
  let s := stateAfter before
  let u := stateAfter (before ++ a :: b :: after)
  let v := stateAfter (before ++ b :: a :: after)
  have hu : u = (checkItems after (b.check (a.check s).state).state).state :=
    stateAfter_append before (a :: b :: after)
  have hv : v = (checkItems after (a.check (b.check s).state).state).state :=
    stateAfter_append before (b :: a :: after)
  obtain ⟨-, -, xs, hxs, hs, -⟩ := checkItems_alike before State.Alike.initial
  have hpair := h.commute (inner_stateAfter before)
  obtain ⟨da, db, hda, hdb, hab, hba⟩ := hpair.pending
  obtain ⟨hend, hblocks, ys, hys, hp, hq⟩ := checkItems_alike after hpair.alike
  rw [← hu, hab] at hp
  rw [← hv, hba] at hq
  rw [← hu, ← hv] at hend
  have hwait : s.pending = xs := hs
  rw [hwait] at hp hq
  constructor
  case blocks =>
    have hswapped : blocksFrom s (b :: a :: after) =
        Event.errors (b.check (a.check s).state).events :: Event.errors (a.check s).events ::
          blocksFrom (b.check (a.check s).state).state after := by
      rw [blocksFrom, blocksFrom, hblocks, hpair.first, hpair.second]
    refine ⟨_, _, _, _, length_blocksFrom .initial before, blocksFrom_append _ _ _, ?_⟩
    exact (blocksFrom_append _ _ _).trans (congrArg _ hswapped)
  case deferred =>
    refine ⟨u.late xs, u.late da, u.late db, u.late ys, ?_, ?_, hxs.late u, hda.late u, hdb.late u,
      hys.late u⟩
    · rw [Program.deferred_eq_late, hp]
      simp only [State.late_append, u]
    · rw [Program.deferred_eq_late, hend.late, hq]
      simp only [State.late_append, u]
  case symbols =>
    intro n
    rw [Analysis.symbol?, Analysis.symbol?, Program.symbols_run, Program.symbols_run,
      (records_stateAfter _).find?_symbols, (records_stateAfter _).find?_symbols]
    exact hend.file n
  case structs =>
    intro n
    rw [Program.structs_run, Program.structs_run]
    exact hend.structs n

/-- A variable of a struct without definition. -/
def waitingGlobal : Item :=
  let place (n : Nat) : Span := ⟨n, n + 1, 1, n + 1⟩
  .global ⟨.structRef ⟨"S", place 0⟩ (place 0), .ident ⟨"x", place 1⟩, place 0⟩

/-- A function with a parameter `x` of its own and an undeclared name in its body. -/
def strayFunction : Item :=
  let place (n : Nat) : Span := ⟨n, n + 1, 1, n + 1⟩
  .function ⟨.int (place 2), ⟨"f", place 3⟩,
      [⟨.int (place 4), .ident ⟨"x", place 5⟩, place 4⟩], place 2⟩
    ⟨[.ret (some (.name ⟨"y", place 7⟩)) (place 6)], place 6⟩

/-- The parameter `x` is no obstacle: it is neither declared at file scope nor used. -/
theorem strayFunction_commutes :
    waitingGlobal.Independent strayFunction ∧
      Program.Exchanged [] [waitingGlobal] waitingGlobal strayFunction
        ⟨[waitingGlobal, strayFunction, waitingGlobal]⟩
        ⟨[strayFunction, waitingGlobal, waitingGlobal]⟩ := by
  have h : waitingGlobal.Independent strayFunction := by
    constructor <;> decide
  exact ⟨h, (run_commutes_independent_items [] [waitingGlobal] h).2⟩

end MiniC
