import MiniC.Proofs.Tiling
import MiniC.Syntax.Basic

/-!
# Outlines of trees

The outline of a tree is what it says about places in the source: a node for each span that it
stores, with the outlines of its parts in order, and its identifiers as leaves. Statements and items
that have no span of their own are seen as their one part. A function is one node with the span of
its header, and its parts are the return type, the name, the parameters and the body.

`Outline.Lies` says that an outline lies between two offsets: the span of each node is a range of
the source, and its parts lie in it one after the other. That parts are contained and do not overlap
(`Outline.Placed`) is read off from it for each node.
-/

namespace MiniC

/-! ## Outlines -/

inductive Outline where
  | name (id : Ident)
  | node (span : Span) (parts : List Outline)

namespace Outline

def span : Outline → Span
  | .name id => id.span
  | .node span _ => span

def parts : Outline → List Outline
  | .name _ => []
  | .node _ parts => parts

mutual

/-- The outline itself and all outlines in it. -/
def nodes : Outline → List Outline
  | .name id => [.name id]
  | .node span parts => .node span parts :: nodesOf parts

def nodesOf : List Outline → List Outline
  | [] => []
  | o :: os => o.nodes ++ nodesOf os

end

end Outline

def Bound.outline (size : Bound) : Outline := .node size.span []

def Declarator.outline : Declarator → Outline
  | .ident id => .name id
  | .array inner size span => .node span [inner.outline, size.outline]
  | .pointer inner span | .paren inner span => .node span [inner.outline]

mutual

def Specifier.outline : Specifier → Outline
  | .int span | .char span => .node span []
  | .structRef tag span => .node span [.name tag]
  | .structDef tag members span => .node span (.name tag :: declOutlines members)

def Decl.outline : Decl → Outline
  | ⟨specifier, declarator, span⟩ => .node span [specifier.outline, declarator.outline]

def declOutlines : List Decl → List Outline
  | [] => []
  | decl :: more => decl.outline :: declOutlines more

end

mutual

def Expr.outline : Expr → Outline
  | .literal _ span => .node span []
  | .name id => .name id
  | .binary _ left right span => .node span [left.outline, right.outline]
  | .unary _ operand span => .node span [operand.outline]
  | .call callee args span => .node span (callee.outline :: exprOutlines args)
  | .index base offset span => .node span [base.outline, offset.outline]
  | .member base field _ span => .node span [base.outline, .name field]

def exprOutlines : List Expr → List Outline
  | [] => []
  | e :: more => e.outline :: exprOutlines more

end

/-- The span of an expression is that of its outline. -/
theorem Expr.span_eq (e : Expr) : e.span = e.outline.span := by
  cases e <;> rfl

/-- An expression that may be left out. -/
def optionOutlines : Option Expr → List Outline
  | some e => [e.outline]
  | none => []

mutual

def Stmt.outline : Stmt → Outline
  | .block stmts span => .node span (stmtOutlines stmts)
  | .varDecl decl init span => .node span (decl.outline :: optionOutlines init)
  | .expr value => value.outline
  | .ret value span => .node span (optionOutlines value)
  | .ifThen cond yes span => .node span [cond.outline, yes.outline]
  | .ifElse cond yes no span => .node span [cond.outline, yes.outline, no.outline]
  | .loop cond body span => .node span [cond.outline, body.outline]
  | .brk span | .cont span | .empty span => .node span []

def stmtOutlines : List Stmt → List Outline
  | [] => []
  | stmt :: more => stmt.outline :: stmtOutlines more

end

def Block.outline (body : Block) : Outline := .node body.span (stmtOutlines body.stmts)

def Item.outline : Item → Outline
  | .function sig body =>
    .node sig.span
      (sig.ret.outline :: .name sig.name :: (declOutlines sig.params ++ [body.outline]))
  | .prototype sig => .node sig.span (sig.ret.outline :: .name sig.name :: declOutlines sig.params)
  | .global decl => decl.outline
  | .tagOnly specifier => specifier.outline

def Program.outlines (p : Program) : List Outline := p.items.map Item.outline

/-! ## Outlines in a source -/

/-- The span is a range of the text that is not empty, and has the coordinates of its start. -/
structure Span.InText (cs : List Char) (s : Span) : Prop where
  start_lt : s.start < s.stop
  stop_le : s.stop ≤ cs.length
  located : s.Located cs

/-- Joining a span with one that neither starts nor ends before it. -/
theorem Span.join_eq {a b : Span} (hstart : a.start ≤ b.start) (hstop : a.stop ≤ b.stop) :
    a.join b = ⟨a.start, b.stop, a.line, a.column⟩ := by
  rw [join_of_le hstart, Nat.max_eq_right hstop]

theorem Span.InText.join {cs : List Char} {a b : Span} (ha : a.InText cs) (hb : b.InText cs)
    (hstart : a.start ≤ b.start) (hstop : a.stop ≤ b.stop) : (a.join b).InText cs := by
  rw [Span.join_eq hstart hstop]
  exact ⟨Nat.lt_of_le_of_lt hstart hb.start_lt, hb.stop_le, ha.located⟩

/-- The identifier stands in the source as a token. -/
def Ident.IsToken (source : String) (id : Ident) : Prop :=
  ⟨.ident id.name, id.span⟩ ∈ Token.ofSource source

namespace Outline

mutual

/-- The outline lies between the offsets `i` and `j` of the source. -/
def Lies (source : String) (i j : Nat) : Outline → Prop
  | .name id =>
    id.IsToken source ∧ id.span.InText source.toList ∧ i ≤ id.span.start ∧ id.span.stop ≤ j
  | .node span parts =>
    InRow source span.start span.stop parts ∧
      span.InText source.toList ∧ i ≤ span.start ∧ span.stop ≤ j

/-- The outlines lie between the offsets, one after the other. -/
def InRow (source : String) (i j : Nat) : List Outline → Prop
  | [] => i ≤ j
  | o :: os => ∃ k, o.Lies source i k ∧ InRow source k j os

end

section

variable {source : String} {i i' j j' k k' : Nat} {o a b : Outline} {os os' : List Outline}

theorem Lies.span (h : o.Lies source i j) :
    o.span.InText source.toList ∧ i ≤ o.span.start ∧ o.span.stop ≤ j := by
  cases o with
  | name id => exact h.2
  | node span parts => exact h.2

/-- Only the span of an outline says between which offsets it lies. -/
theorem Lies.move (h : o.Lies source i j) (hi : i' ≤ o.span.start) (hj : o.span.stop ≤ j') :
    o.Lies source i' j' := by
  cases o with
  | name id => exact ⟨h.1, h.2.1, hi, hj⟩
  | node span parts => exact ⟨h.1, h.2.1, hi, hj⟩

theorem Lies.mono (h : o.Lies source i j) (hi : i' ≤ i) (hj : j ≤ j') : o.Lies source i' j' :=
  h.move (Nat.le_trans hi h.span.2.1) (Nat.le_trans h.span.2.2 hj)

theorem Lies.lt (h : o.Lies source i j) : i < j := by
  obtain ⟨hspan, hstart, hstop⟩ := h.span
  have := hspan.start_lt
  omega

theorem InRow.le (h : InRow source i j os) : i ≤ j := by
  induction os generalizing i with
  | nil => exact h
  | cons o os ih =>
    obtain ⟨k, ho, hos⟩ := h
    exact Nat.le_trans (Nat.le_of_lt ho.lt) (ih hos)

theorem InRow.mono (h : InRow source i j os) (hi : i' ≤ i) (hj : j ≤ j') :
    InRow source i' j' os := by
  induction os generalizing i i' with
  | nil => exact Nat.le_trans hi (Nat.le_trans h hj)
  | cons o os ih =>
    -- the seam stays where it is, only the ends of the row move
    obtain ⟨k, ho, hos⟩ := h
    exact ⟨k, ho.mono hi (Nat.le_refl k), ih hos (Nat.le_refl k)⟩

theorem InRow.cons (ho : o.Lies source i k) (hk : k ≤ k') (hos : InRow source k' j os) :
    InRow source i j (o :: os) :=
  ⟨k, ho, hos.mono hk (Nat.le_refl j)⟩

theorem InRow.one (ho : o.Lies source i j) : InRow source i j [o] := ⟨j, ho, Nat.le_refl j⟩

theorem InRow.two (ha : a.Lies source i k) (hk : k ≤ k') (hb : b.Lies source k' j) :
    InRow source i j [a, b] :=
  .cons ha hk (.one hb)

theorem InRow.append (hos : InRow source i k os) (hk : k ≤ k') (hos' : InRow source k' j os') :
    InRow source i j (os ++ os') := by
  induction os generalizing i with
  | nil => exact hos'.mono (Nat.le_trans hos hk) (Nat.le_refl j)
  | cons o os ih =>
    obtain ⟨m, ho, hos⟩ := hos
    exact ⟨m, ho, ih hos⟩

/-- A node whose span reaches from the start of `a` to the end of `b`. -/
theorem lies_join {a b : Span} (ha : a.InText source.toList) (hb : b.InText source.toList)
    (hstart : a.start ≤ b.start) (hstop : a.stop ≤ b.stop) (hos : InRow source a.start b.stop os) :
    (node (a.join b) os).Lies source a.start b.stop := by
  have hspan := ha.join hb hstart hstop
  rw [Span.join_eq hstart hstop] at hspan ⊢
  exact ⟨hos, hspan, Nat.le_refl _, Nat.le_refl _⟩

/-- A node that goes on from its first part up to the end of `b`. -/
theorem Lies.extend {b : Span} (ho : o.Lies source i k) (hb : b.InText source.toList)
    (hk : k ≤ b.start) (hos : InRow source k b.stop os) :
    (node (o.span.join b) (o :: os)).Lies source i b.stop := by
  obtain ⟨hspan, hi, hstop⟩ := ho.span
  have ho' : o.Lies source o.span.start k := ho.move (Nat.le_refl _) hstop
  have hstart := hspan.start_lt
  have hlt := hb.start_lt
  have hlies := lies_join hspan hb (by omega) (by omega) (.cons ho' (Nat.le_refl k) hos)
  exact hlies.mono hi (Nat.le_refl _)

mutual

/-- All that is in an outline lies somewhere. -/
theorem Lies.of_mem_nodes :
    (o : Outline) → {i j : Nat} → o.Lies source i j → ∀ a ∈ o.nodes, ∃ i j, a.Lies source i j
  | .name id, i, j, h, a, ha => by
    rw [nodes, List.mem_singleton] at ha
    exact ⟨i, j, ha ▸ h⟩
  | .node span parts, i, j, h, a, ha => by
    rw [nodes, List.mem_cons] at ha
    rcases ha with rfl | ha
    · exact ⟨i, j, h⟩
    · exact InRow.of_mem_nodes parts h.1 a ha

theorem InRow.of_mem_nodes :
    (os : List Outline) → {i j : Nat} → InRow source i j os →
      ∀ a ∈ nodesOf os, ∃ i j, a.Lies source i j
  | [], _, _, _, a, ha => by cases ha
  | o :: os, i, j, ⟨k, ho, hos⟩, a, ha => by
    rw [nodesOf, List.mem_append] at ha
    rcases ha with ha | ha
    · exact Lies.of_mem_nodes o ho a ha
    · exact InRow.of_mem_nodes os hos a ha

end

theorem InRow.bounds (h : InRow source i j os) :
    ∀ o ∈ os, i ≤ o.span.start ∧ o.span.stop ≤ j := by
  induction os generalizing i with
  | nil => simp
  | cons o os ih =>
    obtain ⟨k, ho, hos⟩ := h
    obtain ⟨-, hstart, hstop⟩ := ho.span
    have hlt := ho.lt
    have hle := hos.le
    intro a ha
    rcases List.mem_cons.1 ha with rfl | ha
    · omega
    · have := ih hos a ha
      omega

theorem InRow.pairwise (h : InRow source i j os) :
    os.Pairwise (·.span.stop ≤ ·.span.start) := by
  induction os generalizing i with
  | nil => exact .nil
  | cons o os ih =>
    obtain ⟨k, ho, hos⟩ := h
    refine List.pairwise_cons.2 ⟨fun a ha => ?_, ih hos⟩
    exact Nat.le_trans ho.span.2.2 (hos.bounds a ha).1

end

/-- The span of a node is a range of the text, it contains those of the parts, and these are apart
and in order. -/
structure Placed (cs : List Char) (o : Outline) : Prop where
  range : o.span.InText cs
  contains : ∀ part ∈ o.parts, o.span.start ≤ part.span.start ∧ part.span.stop ≤ o.span.stop
  ordered : o.parts.Pairwise (·.span.stop ≤ ·.span.start)

theorem Lies.placed {source : String} {i j : Nat} {o : Outline} (h : o.Lies source i j) :
    o.Placed source.toList := by
  cases o with
  | name id => exact ⟨h.span.1, by simp [parts], .nil⟩
  | node span parts => exact ⟨h.span.1, h.1.bounds, h.1.pairwise⟩

end Outline

end MiniC
