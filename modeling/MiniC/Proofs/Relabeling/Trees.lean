import Mathlib.Logic.Function.Basic
import MiniC.Syntax.Basic

/-!
# Other names, other places

The names of a program belong to three spaces: variables and functions, struct tags, and members. A
`Relabeling` gives the names of each space other ones, different names different ones, and moves
every span anywhere. Two relabelings matter by themselves: the one that changes nothing, and
`Relabeling.blank`, which takes the spans away and nothing else. The tree that it leaves is called
`erase`: two trees are equal up to spans if they are equal after it.
-/

namespace MiniC

/-! ## Relabelings -/

/-- The spaces that names belong to. -/
inductive Space where
  | ordinary
  | tag
  | member
  deriving DecidableEq

/-- Other names for each space, and other spans. Names that differ stay different. -/
structure Relabeling where
  name : Space → String → String
  span : Span → Span
  injective : ∀ space, Function.Injective (name space)

/-- The span that stands in for all others. -/
def Span.blank : Span := ⟨0, 0, 0, 0⟩

namespace Relabeling

/-- Nothing changes. -/
def refl : Relabeling := ⟨fun _ n => n, fun s => s, fun _ _ _ h => h⟩

/-- All spans are taken away. -/
def blank : Relabeling := ⟨fun _ n => n, fun _ => .blank, fun _ _ _ h => h⟩

variable (ρ : Relabeling) (space : Space)

theorem name_inj {m n : String} : ρ.name space m = ρ.name space n ↔ m = n :=
  (ρ.injective space).eq_iff

@[simp] theorem name_beq (m n : String) : (ρ.name space m == ρ.name space n) = (m == n) := by
  rw [Bool.eq_iff_iff, beq_iff_eq, beq_iff_eq, name_inj]

end Relabeling

/-! ## Trees -/

def Ident.relabel (ρ : Relabeling) (space : Space) (id : Ident) : Ident :=
  ⟨ρ.name space id.name, ρ.span id.span⟩

def Bound.relabel (ρ : Relabeling) (size : Bound) : Bound := ⟨size.text, ρ.span size.span⟩

def Declarator.relabel (ρ : Relabeling) (space : Space) : Declarator → Declarator
  | .ident id => .ident (id.relabel ρ space)
  | .array inner size span => .array (inner.relabel ρ space) (size.relabel ρ) (ρ.span span)
  | .pointer inner span => .pointer (inner.relabel ρ space) (ρ.span span)
  | .paren inner span => .paren (inner.relabel ρ space) (ρ.span span)

theorem Declarator.core_relabel (ρ : Relabeling) (space : Space) (d : Declarator) :
    (d.relabel ρ space).core = d.core.relabel ρ space := by
  induction d with
  | ident id => rfl
  | array _ _ _ ih | pointer _ _ ih | paren _ _ ih => exact ih

mutual

def Specifier.relabel (ρ : Relabeling) : Specifier → Specifier
  | .int span => .int (ρ.span span)
  | .char span => .char (ρ.span span)
  | .structRef tag span => .structRef (tag.relabel ρ .tag) (ρ.span span)
  | .structDef tag members span =>
    .structDef (tag.relabel ρ .tag) (relabelDecls ρ .member members) (ρ.span span)

/-- The declared name belongs to `space`. -/
def Decl.relabel (ρ : Relabeling) (space : Space) : Decl → Decl
  | ⟨specifier, declarator, span⟩ =>
    ⟨specifier.relabel ρ, declarator.relabel ρ space, ρ.span span⟩

def relabelDecls (ρ : Relabeling) (space : Space) : List Decl → List Decl
  | [] => []
  | d :: more => d.relabel ρ space :: relabelDecls ρ space more

end

mutual

def Expr.relabel (ρ : Relabeling) : Expr → Expr
  | .literal value span => .literal value (ρ.span span)
  | .name id => .name (id.relabel ρ .ordinary)
  | .binary op left right span => .binary op (left.relabel ρ) (right.relabel ρ) (ρ.span span)
  | .unary op operand span => .unary op (operand.relabel ρ) (ρ.span span)
  | .call callee args span => .call (callee.relabel ρ) (relabelExprs ρ args) (ρ.span span)
  | .index base offset span => .index (base.relabel ρ) (offset.relabel ρ) (ρ.span span)
  | .member base field arrow span =>
    .member (base.relabel ρ) (field.relabel ρ .member) arrow (ρ.span span)

def relabelExprs (ρ : Relabeling) : List Expr → List Expr
  | [] => []
  | e :: more => e.relabel ρ :: relabelExprs ρ more

end

mutual

def Stmt.relabel (ρ : Relabeling) : Stmt → Stmt
  | .block stmts span => .block (relabelStmts ρ stmts) (ρ.span span)
  | .varDecl decl init span =>
    .varDecl (decl.relabel ρ .ordinary) (init.map (Expr.relabel ρ)) (ρ.span span)
  | .expr value => .expr (value.relabel ρ)
  | .ret value span => .ret (value.map (Expr.relabel ρ)) (ρ.span span)
  | .ifThen cond yes span => .ifThen (cond.relabel ρ) (yes.relabel ρ) (ρ.span span)
  | .ifElse cond yes no span =>
    .ifElse (cond.relabel ρ) (yes.relabel ρ) (no.relabel ρ) (ρ.span span)
  | .loop cond body span => .loop (cond.relabel ρ) (body.relabel ρ) (ρ.span span)
  | .brk span => .brk (ρ.span span)
  | .cont span => .cont (ρ.span span)
  | .empty span => .empty (ρ.span span)

def relabelStmts (ρ : Relabeling) : List Stmt → List Stmt
  | [] => []
  | stmt :: more => stmt.relabel ρ :: relabelStmts ρ more

end

def Block.relabel (ρ : Relabeling) (body : Block) : Block :=
  ⟨relabelStmts ρ body.stmts, ρ.span body.span⟩

def Signature.relabel (ρ : Relabeling) (sig : Signature) : Signature :=
  ⟨sig.ret.relabel ρ, sig.name.relabel ρ .ordinary, relabelDecls ρ .ordinary sig.params,
    ρ.span sig.span⟩

def Item.relabel (ρ : Relabeling) : Item → Item
  | .function sig body => .function (sig.relabel ρ) (body.relabel ρ)
  | .prototype sig => .prototype (sig.relabel ρ)
  | .global decl => .global (decl.relabel ρ .ordinary)
  | .tagOnly specifier => .tagOnly (specifier.relabel ρ)

def Program.relabel (ρ : Relabeling) (p : Program) : Program := ⟨p.items.map (Item.relabel ρ)⟩

/-! ### Nothing changes -/

theorem Declarator.relabel_refl (space : Space) (d : Declarator) : d.relabel .refl space = d := by
  induction d with
  | ident id => rfl
  | array inner size span ih | pointer inner span ih | paren inner span ih =>
    rw [relabel, ih]
    rfl

mutual

theorem Specifier.relabel_refl : (spec : Specifier) → spec.relabel .refl = spec
  | .int _ | .char _ | .structRef _ _ => rfl
  | .structDef tag members span => by
    rw [Specifier.relabel, relabelDecls_refl .member members]
    rfl

theorem Decl.relabel_refl (space : Space) : (d : Decl) → d.relabel .refl space = d
  | ⟨specifier, declarator, span⟩ => by
    rw [Decl.relabel, specifier.relabel_refl, declarator.relabel_refl]
    rfl

theorem relabelDecls_refl (space : Space) : (ds : List Decl) → relabelDecls .refl space ds = ds
  | [] => rfl
  | d :: more => by rw [relabelDecls, d.relabel_refl, relabelDecls_refl space more]

end

mutual

theorem Expr.relabel_refl : (e : Expr) → e.relabel .refl = e
  | .literal _ _ | .name _ => rfl
  | .binary op left right span => by
    rw [Expr.relabel, left.relabel_refl, right.relabel_refl]
    rfl
  | .unary op operand span => by
    rw [Expr.relabel, operand.relabel_refl]
    rfl
  | .call callee args span => by
    rw [Expr.relabel, callee.relabel_refl, relabelExprs_refl args]
    rfl
  | .index base offset span => by
    rw [Expr.relabel, base.relabel_refl, offset.relabel_refl]
    rfl
  | .member base field arrow span => by
    rw [Expr.relabel, base.relabel_refl]
    rfl

theorem relabelExprs_refl : (es : List Expr) → relabelExprs .refl es = es
  | [] => rfl
  | e :: more => by rw [relabelExprs, e.relabel_refl, relabelExprs_refl more]

end

theorem relabelOption_refl (e : Option Expr) : e.map (Expr.relabel .refl) = e := by
  cases e with
  | none => rfl
  | some e => exact congrArg some e.relabel_refl

mutual

theorem Stmt.relabel_refl : (stmt : Stmt) → stmt.relabel .refl = stmt
  | .block stmts span => by
    rw [Stmt.relabel, relabelStmts_refl stmts]
    rfl
  | .varDecl decl init span => by
    rw [Stmt.relabel, decl.relabel_refl, relabelOption_refl]
    rfl
  | .expr value => by rw [Stmt.relabel, value.relabel_refl]
  | .ret value span => by
    rw [Stmt.relabel, relabelOption_refl]
    rfl
  | .ifThen cond yes span => by
    rw [Stmt.relabel, cond.relabel_refl, yes.relabel_refl]
    rfl
  | .ifElse cond yes no span => by
    rw [Stmt.relabel, cond.relabel_refl, yes.relabel_refl, no.relabel_refl]
    rfl
  | .loop cond body span => by
    rw [Stmt.relabel, cond.relabel_refl, body.relabel_refl]
    rfl
  | .brk _ | .cont _ | .empty _ => rfl

theorem relabelStmts_refl : (stmts : List Stmt) → relabelStmts .refl stmts = stmts
  | [] => rfl
  | stmt :: more => by rw [relabelStmts, stmt.relabel_refl, relabelStmts_refl more]

end

theorem Signature.relabel_refl (sig : Signature) : sig.relabel .refl = sig := by
  rw [Signature.relabel, sig.ret.relabel_refl, relabelDecls_refl]
  rfl

theorem Item.relabel_refl (item : Item) : item.relabel .refl = item := by
  cases item with
  | function sig body =>
    rw [Item.relabel, sig.relabel_refl, Block.relabel, relabelStmts_refl]
    rfl
  | prototype sig => rw [Item.relabel, sig.relabel_refl]
  | global decl => rw [Item.relabel, decl.relabel_refl]
  | tagOnly specifier => rw [Item.relabel, specifier.relabel_refl]

theorem relabelItems_refl (items : List Item) : items.map (Item.relabel .refl) = items :=
  (List.map_congr_left fun item _ => item.relabel_refl).trans (List.map_id items)

theorem Program.relabel_refl (p : Program) : p.relabel .refl = p := by
  rw [Program.relabel, relabelItems_refl]

/-! ### The spans are taken away -/

@[simp] theorem Relabeling.span_blank (s : Span) : Relabeling.blank.span s = .blank := rfl

def Ident.erase (id : Ident) : Ident := ⟨id.name, .blank⟩

theorem Ident.erase_eq {id id' : Ident} (h : id'.name = id.name) : id'.erase = id.erase := by
  rw [erase, erase, h]

@[simp] theorem Ident.relabel_blank (space : Space) (id : Ident) :
    id.relabel .blank space = id.erase := rfl

def Bound.erase (size : Bound) : Bound := ⟨size.text, .blank⟩

theorem Bound.erase_eq {size size' : Bound} (h : size'.text = size.text) :
    size'.erase = size.erase := by
  rw [erase, erase, h]

@[simp] theorem Bound.relabel_blank (size : Bound) : size.relabel .blank = size.erase := rfl

abbrev Declarator.erase (d : Declarator) : Declarator := d.relabel .blank .ordinary

abbrev Specifier.erase (spec : Specifier) : Specifier := spec.relabel .blank

abbrev Decl.erase (d : Decl) : Decl := d.relabel .blank .ordinary

abbrev eraseDecls (ds : List Decl) : List Decl := relabelDecls .blank .ordinary ds

abbrev Expr.erase (e : Expr) : Expr := e.relabel .blank

abbrev eraseExprs (es : List Expr) : List Expr := relabelExprs .blank es

abbrev Stmt.erase (stmt : Stmt) : Stmt := stmt.relabel .blank

abbrev eraseStmts (stmts : List Stmt) : List Stmt := relabelStmts .blank stmts

abbrev Block.erase (body : Block) : Block := body.relabel .blank

abbrev Signature.erase (sig : Signature) : Signature := sig.relabel .blank

abbrev Item.erase (item : Item) : Item := item.relabel .blank

/-- The program without its spans. -/
abbrev Program.erase (p : Program) : Program := p.relabel .blank

/-- The space of a name makes no difference where names stay. -/
theorem Declarator.relabel_blank (space : Space) (d : Declarator) :
    d.relabel .blank space = d.erase := by
  induction d with
  | ident id => rfl
  | array inner size span ih | pointer inner span ih | paren inner span ih =>
    rw [relabel, ih]
    rfl

theorem relabelDecls_blank (space : Space) (ds : List Decl) :
    relabelDecls .blank space ds = eraseDecls ds := by
  induction ds with
  | nil => rfl
  | cons d more ih =>
    obtain ⟨specifier, declarator, span⟩ := d
    rw [relabelDecls, ih, Decl.relabel, declarator.relabel_blank]
    rfl

end MiniC
