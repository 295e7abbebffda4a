import MiniC.Proofs.Relabeling.Tables

/-!
# Runs in lockstep

A `Lockstep` says in what relation a family of runs stands, one for each index: each run sees the
same tree under a relabeling of its own, and the struct tags, the file scopes, the names recorded
there and the waiting globals of all the states stand in relations that the operations on them keep.
Only identifiers that are allowed may be met on the way, so the relations have to say something
about these only. The inner scopes are always the same ones, each under its relabeling. A `Label` is
an identifier of a tree together with its role, which says in particular what space its name belongs
to.

`Lockstep.Steps m V` says that a family of steps leads from related states to related states, with
values that satisfy `V` and with the same findings: errors of the same kinds at the same
identifiers, each under its relabeling. What one step says is put together by `Steps.bind`, and the
laws of the single operations are here.
-/

namespace MiniC

/-! ## Labels -/

/-- What an identifier does where it stands: it names a struct tag or a member, it declares a name
at file scope or further in, or it is used in an expression. -/
inductive Role where
  | tag
  | member
  | file
  | inner
  | use
  deriving DecidableEq

def Role.space : Role → Space
  | .tag => .tag
  | .member => .member
  | .file | .inner | .use => .ordinary

/-- An identifier in its role. -/
structure Label where
  role : Role
  ident : Ident
  deriving DecidableEq

def Label.relabel (ρ : Relabeling) (l : Label) : Label := ⟨l.role, l.ident.relabel ρ l.role.space⟩

mutual

def Specifier.labels : Specifier → List Label
  | .int _ | .char _ => []
  | .structRef tag _ => [⟨.tag, tag⟩]
  | .structDef tag members _ => ⟨.tag, tag⟩ :: declLabels .member members

/-- The labels of a declaration whose name has the role `role`. -/
def Decl.labels (role : Role) : Decl → List Label
  | ⟨specifier, declarator, _⟩ => specifier.labels ++ [⟨role, declarator.core⟩]

def declLabels (role : Role) : List Decl → List Label
  | [] => []
  | d :: more => d.labels role ++ declLabels role more

end

/-- Identifiers that are used. -/
def useLabels (ids : List Ident) : List Label := ids.map (Label.mk .use)

mutual

def Stmt.labels : Stmt → List Label
  | .block stmts _ => stmtLabels stmts
  | .varDecl decl init _ => decl.labels .inner ++ useLabels (optionNames init)
  | .expr value => useLabels value.names
  | .ret value _ => useLabels (optionNames value)
  | .ifThen cond yes _ => useLabels cond.names ++ yes.labels
  | .ifElse cond yes no _ => useLabels cond.names ++ (yes.labels ++ no.labels)
  | .loop cond body _ => useLabels cond.names ++ body.labels
  | .brk _ | .cont _ | .empty _ => []

def stmtLabels : List Stmt → List Label
  | [] => []
  | stmt :: more => stmt.labels ++ stmtLabels more

end

/-- The name of a function stands at file scope, its parameters do not. -/
def Signature.labels (sig : Signature) : List Label :=
  sig.ret.labels ++ (declLabels .inner sig.params ++ [⟨.file, sig.name⟩])

def Item.labels : Item → List Label
  | .function sig body => sig.labels ++ stmtLabels body.stmts
  | .prototype sig => sig.labels
  | .global decl => decl.labels .file
  | .tagOnly specifier => specifier.labels

def Program.labels (p : Program) : List Label := p.items.flatMap Item.labels

/-! ## Lockstep -/

/-- An error of some kind at an identifier in its role. -/
structure Finding where
  kind : SemanticError.Kind
  label : Label

/-- How a finding is reported when the tree is relabeled. -/
def Finding.error (ρ : Relabeling) (f : Finding) : SemanticError :=
  .atIdent f.kind (f.label.relabel ρ).ident

/-- Relations between states, and what keeps them. -/
structure Lockstep (ι : Type) where
  label : ι → Relabeling
  Allowed : Label → Prop
  Tables : (ι → StructTable) → Prop
  Files : (ι → Scope) → Prop
  Orders : (ι → List String) → Prop
  Queues : (ι → List TypedIdent) → Prop
  isDefined {t : ι → StructTable} (ht : Tables t) {tag : Ident} (htag : Allowed ⟨.tag, tag⟩) :
    ∃ b, ∀ i, (t i).isDefined ((label i).name .tag tag.name) = b
  mention {t : ι → StructTable} (ht : Tables t) {tag : Ident} (htag : Allowed ⟨.tag, tag⟩) :
    Tables fun i => (t i).mention ((label i).name .tag tag.name)
  begin {t : ι → StructTable} (ht : Tables t) {tag : Ident} (htag : Allowed ⟨.tag, tag⟩)
    (hno : ∀ i, (t i).isDefined ((label i).name .tag tag.name) = false) :
    Tables fun i => (t i).begin ((label i).name .tag tag.name)
  giveFields {t : ι → StructTable} (ht : Tables t) {tag : Ident} (htag : Allowed ⟨.tag, tag⟩)
    (hyes : ∀ i, (t i).isDefined ((label i).name .tag tag.name) = true) (fields : List Field) :
    Tables fun i =>
      (t i).giveFields ((label i).name .tag tag.name) (fields.map (Field.relabel (label i)))
  get? {f : ι → Scope} (hf : Files f) {l : Label} (hl : Allowed l)
    (hrole : l.role = .file ∨ l.role = .use) :
    ∃ x : Option Symbol, ∀ i,
      (f i).get? ((label i).name .ordinary l.ident.name) = x.map (Symbol.relabel (label i))
  bind {f : ι → Scope} (hf : Files f) {id : Ident} (hid : Allowed ⟨.file, id⟩) {x : Symbol}
    (hx : x.name = id.name) : Files fun i => (f i).bind (x.relabel (label i))
  define {f : ι → Scope} (hf : Files f) {id : Ident} (hid : Allowed ⟨.file, id⟩) (ty : Ty) :
    Files fun i =>
      (f i).update ((label i).name .ordinary id.name) (Symbol.define (ty.relabel (label i)))
  record {g : ι → List String} (hg : Orders g) {id : Ident} (hid : Allowed ⟨.file, id⟩) :
    Orders fun i => recordName (g i) ((label i).name .ordinary id.name)
  enqueue {q : ι → List TypedIdent} (hq : Queues q) {d : TypedIdent}
    (hid : Allowed ⟨.file, d.ident⟩) : Queues fun i => q i ++ [d.relabel (label i) .ordinary]

namespace Lockstep

variable {ι : Type} (L : Lockstep ι)

/-- States at the same depth whose parts are related. -/
structure Related (depth : Nat) (s : ι → State) : Prop where
  tables : L.Tables fun i => (s i).structs
  files : L.Files fun i => (s i).scopes.file
  orders : L.Orders fun i => (s i).globals
  queues : L.Queues fun i => (s i).pending
  inner : ∃ inner : List Scope, inner.length = depth ∧
    ∀ i, (s i).scopes.inner = inner.map (Scope.relabel (L.label i))

/-- The same findings, all of them at allowed identifiers. -/
def Findings (errors : ι → List SemanticError) : Prop :=
  ∃ fs : List Finding, (∀ f ∈ fs, L.Allowed f.label) ∧
    ∀ i, errors i = fs.map (Finding.error (L.label i))

/-- Outcomes with values that satisfy `V`. -/
structure Agree (depth : Nat) (r : ι → Outcome α) (V : (ι → α) → Prop) : Prop where
  value : V fun i => (r i).value
  state : L.Related depth fun i => (r i).state
  findings : L.Findings fun i => Event.errors (r i).events

/-- From related states at depth `d` the steps come to related states at depth `e`. -/
def Steps (d e : Nat) (m : ι → Check α) (V : (ι → α) → Prop) : Prop :=
  ∀ s, L.Related d s → L.Agree e (fun i => m i (s i)) V

/-- Steps whose values say nothing. -/
abbrev Goes (d e : Nat) (m : ι → Check Unit) : Prop := L.Steps d e m fun _ => True

variable {L} {d e f : Nat}

/-! ## Findings -/

theorem Findings.nil : L.Findings fun _ => [] := ⟨[], by simp, fun _ => rfl⟩

theorem Findings.one (kind : SemanticError.Kind) {l : Label} (hl : L.Allowed l) :
    L.Findings fun i => [.atIdent kind (l.relabel (L.label i)).ident] := by
  refine ⟨[⟨kind, l⟩], ?_, fun _ => rfl⟩
  intro f hf
  rw [List.mem_singleton.1 hf]
  exact hl

theorem Findings.append {es es' : ι → List SemanticError} (h : L.Findings es)
    (h' : L.Findings es') : L.Findings fun i => es i ++ es' i := by
  obtain ⟨fs, hfs, heq⟩ := h
  obtain ⟨fs', hfs', heq'⟩ := h'
  refine ⟨fs ++ fs', ?_, fun i => ?_⟩
  · intro f hf
    rcases List.mem_append.1 hf with hf | hf
    · exact hfs f hf
    · exact hfs' f hf
  · simp only [heq, heq', List.map_append]

/-! ## Putting steps together -/

theorem Agree.bind {m : ι → Check α} {k : ι → α → Check β} {V : (ι → α) → Prop}
    {W : (ι → β) → Prop} {s : ι → State} (hm : L.Agree e (fun i => m i (s i)) V)
    (hk : L.Agree f (fun i => k i (m i (s i)).value (m i (s i)).state) W) :
    L.Agree f (fun i => (m i >>= k i) (s i)) W := by
  refine ⟨hk.value, hk.state, ?_⟩
  simp only [Check.bind_apply, Event.errors_append]
  exact hm.findings.append hk.findings

namespace Steps

variable {V : (ι → α) → Prop} {W : (ι → β) → Prop}

protected theorem pure {a : ι → α} (h : V a) : L.Steps d d (fun i => pure (a i)) V :=
  fun _ hs => ⟨h, hs, .nil⟩

protected theorem bind {m : ι → Check α} {k : ι → α → Check β} (hm : L.Steps d e m V)
    (hk : ∀ v, V v → L.Steps e f (fun i => k i (v i)) W) :
    L.Steps d f (fun i => m i >>= k i) W := by
  intro s hs
  have h := hm s hs
  exact h.bind (hk _ h.value _ h.state)

/-- A step and then another, whatever the value of the first. -/
theorem next {m : ι → Check Unit} {n : ι → Check β} (hm : L.Goes d e m) (hn : L.Steps e f n W) :
    L.Steps d f (fun i => do m i; n i) W :=
  hm.bind fun _ _ => hn

theorem state : L.Steps d d (fun _ => Check.state) (L.Related d) := fun _ hs => ⟨hs, hs, .nil⟩

theorem tell {ev : ι → Event} (h : ∀ i, (ev i).error? = none) :
    L.Goes d d fun i => Check.tell (ev i) := by
  intro s hs
  refine ⟨trivial, hs, ?_⟩
  have hnone : (fun i => Event.errors (Check.tell (ev i) (s i)).events) = fun _ => [] := by
    funext i
    simp [Check.tell, Event.errors, h i]
  rw [hnone]
  exact .nil

theorem report (kind : SemanticError.Kind) {l : Label} (hl : L.Allowed l) :
    L.Goes d d fun i => Check.report kind (l.relabel (L.label i)).ident :=
  fun _ hs => ⟨trivial, hs, .one kind hl⟩

/-- A choice that falls out alike. -/
theorem ite {c : ι → Bool} {m n : ι → Check α} (hc : ∃ b, ∀ i, c i = b)
    (hm : (∀ i, c i = true) → L.Steps d e m V) (hn : (∀ i, c i = false) → L.Steps d e n V) :
    L.Steps d e (fun i => if c i then m i else n i) V := by
  obtain ⟨b, hb⟩ := hc
  cases b with
  | true => simpa only [hb, ↓reduceIte] using hm hb
  | false => simpa only [hb, Bool.false_eq_true, ↓reduceIte] using hn hb

end Steps

/-! ## Types -/

/-- Whether the type is complete depends on an allowed tag only. -/
def Knows (L : Lockstep ι) (ty : Ty) : Prop :=
  ∀ tag ∈ ty.tag?, ∃ span, L.Allowed ⟨.tag, ⟨tag, span⟩⟩

/-- A type that needs no tag. -/
theorem knows_plain {ty : Ty} (h : ty.tag? = none) : L.Knows ty := by
  intro tag htag
  rw [h] at htag
  cases htag

/-- The same type, as far as names go. -/
def IsType (L : Lockstep ι) (v : ι → Ty) : Prop :=
  ∃ ty, L.Knows ty ∧ v = fun i => ty.relabel (L.label i)

/-- An allowed name with a type. -/
def Declares (L : Lockstep ι) (role : Role) (d : TypedIdent) : Prop :=
  L.Allowed ⟨role, d.ident⟩ ∧ L.Knows d.ty

/-- The same declared name. -/
def IsTyped (L : Lockstep ι) (role : Role) (v : ι → TypedIdent) : Prop :=
  ∃ d, L.Declares role d ∧ v = fun i => d.relabel (L.label i) role.space

theorem isIncomplete {t : ι → StructTable} (ht : L.Tables t) {ty : Ty} (hty : L.Knows ty) :
    ∃ b, ∀ i, (t i).isIncomplete (ty.relabel (L.label i)) = b := by
  simp only [StructTable.isIncomplete_eq, Ty.tag?_relabel, Option.any_map]
  cases htag : ty.tag? with
  | none => exact ⟨false, fun _ => rfl⟩
  | some tag =>
    obtain ⟨span, hspan⟩ := hty tag htag
    obtain ⟨b, hb⟩ := L.isDefined ht hspan
    refine ⟨!b, fun i => ?_⟩
    rw [Option.any_some]
    exact congrArg _ (hb i)

/-! ## Changes of one part -/

theorem Related.withTables {s : ι → State} (hs : L.Related d s) {t : ι → StructTable}
    (ht : L.Tables t) : L.Related d fun i => { s i with structs := t i } :=
  ⟨ht, hs.files, hs.orders, hs.queues, hs.inner⟩

theorem Related.withFiles {s : ι → State} (hs : L.Related d s) {f : ι → Scope} (hf : L.Files f) :
    L.Related d fun i => { s i with scopes := ⟨f i, (s i).scopes.inner⟩ } :=
  ⟨hs.tables, hf, hs.orders, hs.queues, hs.inner⟩

theorem Related.withOrders {s : ι → State} (hs : L.Related d s) {g : ι → List String}
    (hg : L.Orders g) : L.Related d fun i => { s i with globals := g i } :=
  ⟨hs.tables, hs.files, hg, hs.queues, hs.inner⟩

theorem Related.withQueues {s : ι → State} (hs : L.Related d s) {q : ι → List TypedIdent}
    (hq : L.Queues q) : L.Related d fun i => { s i with pending := q i } :=
  ⟨hs.tables, hs.files, hs.orders, hq, hs.inner⟩

theorem Related.withInner {s : ι → State} (hs : L.Related d s) (inner : List Scope) :
    L.Related inner.length fun i =>
      { s i with scopes := ⟨(s i).scopes.file, inner.map (Scope.relabel (L.label i))⟩ } :=
  ⟨hs.tables, hs.files, hs.orders, hs.queues, inner, rfl, fun _ => rfl⟩

end Lockstep

/-! ## Struct tags -/

open Lockstep (Steps)

variable {ι : Type} {L : Lockstep ι} {d : Nat}

theorem Check.mentionTag_steps {tag : Ident} (htag : L.Allowed ⟨.tag, tag⟩) :
    L.Steps d d (fun i => Check.mentionTag (tag.relabel (L.label i) .tag).name) L.IsType := by
  intro s hs
  choose events herrors heq using fun i =>
    Check.mentionTag_eq (tag.relabel (L.label i) .tag).name (s i)
  simp only [heq]
  refine ⟨⟨.struct tag.name, ?_, rfl⟩, hs.withTables (L.mention hs.tables htag), ?_⟩
  · intro n hn
    exact ⟨tag.span, Option.some.inj hn ▸ htag⟩
  · simp only [herrors]
    exact .nil

/-- A definition, whose members are resolved by `m`. No member list makes a tag incomplete, so the
tag is still defined when it gets its members. -/
theorem Check.define_steps {tag : Ident} (htag : L.Allowed ⟨.tag, tag⟩) {m : ι → Check (List Field)}
    (hm : L.Steps d d m fun v =>
      ∃ fields : List Field, v = fun i => fields.map (Field.relabel (L.label i)))
    (hgrows : ∀ i (s : State), s.structs.Grows (m i s).state.structs) :
    L.Steps d d (fun i => Check.define (tag.relabel (L.label i) .tag) (m i)) L.IsType := by
  refine (mentionTag_steps htag).bind fun ty hty => ?_
  intro s hs
  obtain ⟨b, hb⟩ := L.isDefined hs.tables htag
  cases b with
  | true =>
    have hold : ∀ i, Check.defineTag (tag.relabel (L.label i) .tag).name (s i) =
        ⟨false, s i, []⟩ := fun i => by
      rw [Check.defineTag_apply, StructTable.define?_eq, Ident.relabel, hb i]
      rfl
    have hdefine : L.Agree d
        (fun i => Check.defineTag (tag.relabel (L.label i) .tag).name (s i)) fun _ => True := by
      simp only [hold]
      exact ⟨trivial, hs, .nil⟩
    refine hdefine.bind ?_
    simp only [hold]
    exact ((Steps.report .redefinition htag).next (.pure hty)) s hs
  | false =>
    let t : ι → State := fun i =>
      { s i with structs := (s i).structs.begin ((L.label i).name .tag tag.name) }
    have hnew : ∀ i, Check.defineTag (tag.relabel (L.label i) .tag).name (s i) =
        ⟨true, t i, [.tagDefined (tag.relabel (L.label i) .tag).name]⟩ := fun i => by
      rw [Check.defineTag_apply, StructTable.define?_eq, Ident.relabel, hb i]
      rfl
    have ht : L.Related d t := hs.withTables (L.begin hs.tables htag hb)
    have hdefine : L.Agree d
        (fun i => Check.defineTag (tag.relabel (L.label i) .tag).name (s i)) fun _ => True := by
      simp only [hnew]
      exact ⟨trivial, ht, .nil⟩
    refine hdefine.bind ?_
    simp only [hnew, ↓reduceIte]
    have hmembers := hm t ht
    obtain ⟨fields, hfields⟩ := hmembers.value
    refine hmembers.bind ?_
    simp only [congrFun hfields]
    have hyes : ∀ i,
        (m i (t i)).state.structs.isDefined ((L.label i).name .tag tag.name) = true := by
      intro i
      exact (hgrows i (t i)).isDefined (StructTable.isDefined_begin (hb i))
    have hfilled := L.giveFields hmembers.state.tables htag hyes fields
    exact ⟨hty, hmembers.state.withTables hfilled, .nil⟩

end MiniC
