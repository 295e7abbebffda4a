import MiniC.Proofs.Reading.Steps
import MiniC.Proofs.Grammar.Basic

/-!
# Every phrase is read

`Takes m w k` says that the reader `m` reads the tokens `w` when `k` follows them. Each rule of the
grammar is matched by one lemma about readers, given what its parts have been shown to be
(`Accepts`). Three kinds of phrases need more than that their own reader takes them:

* a direct declarator and an expression with trailers go on as long as they can, so what is said
  about them is that reading arrives in the loop that goes on (`Leads`);
* an expression of any level is taken as a chain of operands and operators, since reading does not
  follow the levels (`Chain`, `operators_tail`);
* an `else` belongs to the nearest `if` that can have it, while the grammar leaves the choice open
  (`Guarded`, `Guarded.attach`).
-/

namespace MiniC

open Reader

/-- The reader takes the tokens `w` in front of `k` and is left to do what one of the readers in `F`
does. -/
def Leads (F : Reader α → Prop) (m : Reader α) (w k : List Kind) : Prop :=
  ∀ s : Input, s.kinds = w ++ k → ∃ m' t, F m' ∧ m s = m' t ∧ t.kinds = k

/-- The reader takes the tokens `w` in front of `k`. -/
abbrev Takes (m : Reader α) (w k : List Kind) : Prop := Leads (fun m' => ∃ a, m' = pure a) m w k

theorem Takes.run {m : Reader α} {w k : List Kind} (h : Takes m w k) {s : Input}
    (hs : s.kinds = w ++ k) : ∃ a t, m s = .ok (a, t) ∧ t.kinds = k := by
  obtain ⟨-, t, ⟨a, rfl⟩, hrun, hk⟩ := h s hs
  exact ⟨a, t, hrun, hk⟩

namespace Leads

variable {α β : Type} {F G : Reader β → Prop} {m : Reader α} {f : α → Reader β} {w v k : List Kind}

theorem done {m : Reader β} (h : F m) : Leads F m [] k := fun s hs => ⟨m, s, h, rfl, hs⟩

protected theorem pure (a : α) : Takes (Pure.pure a) [] k := done ⟨a, rfl⟩

theorem trans {m : Reader β} (hm : Leads F m w (v ++ k)) (hF : ∀ m', F m' → Leads G m' v k) :
    Leads G m (w ++ v) k := by
  intro s hs
  obtain ⟨m₁, t, hm₁, hrun, ht⟩ := hm s (by rw [hs, List.append_assoc])
  rw [hrun]
  exact hF m₁ hm₁ t ht

protected theorem bind (hm : Takes m w (v ++ k)) (hf : ∀ a, Leads F (f a) v k) :
    Leads F (m >>= f) (w ++ v) k := by
  intro s hs
  obtain ⟨a, t, hrun, ht⟩ := hm.run (by rw [hs, List.append_assoc])
  rw [bind_ok hrun]
  exact hf a t ht

/-- A last step that takes tokens. -/
theorem last (hm : Takes m w k) (hf : ∀ a, Leads F (f a) [] k) : Leads F (m >>= f) w k := by
  simpa using Leads.bind (v := []) hm hf

/-- A first step that takes one token. -/
theorem token {c : Kind} (hm : ∀ k, Takes m [c] k) (hf : ∀ a, Leads F (f a) w k) :
    Leads F (m >>= f) (c :: w) k :=
  Leads.bind (w := [c]) (hm _) hf

theorem look {φ : Input → α} (hf : ∀ s, s.kinds = w ++ k → Leads F (f (φ s)) w k) :
    Leads F (Reader.look φ >>= f) w k := by
  intro s hs
  rw [bind_ok (m := Reader.look φ) rfl]
  exact hf s hs s hs

section

variable {f : Option α → Reader β} {g : Option Span → Reader β} {i : Option Ident → Reader β}

theorem kind?_some {q : Kind → Option α} {c : Kind} {a : α} (hq : q c = some a)
    (hf : Leads F (f (some a)) w k) : Leads F (kind? q >>= f) (c :: w) k := by
  intro s hs
  obtain ⟨p, hp, rfl, hk⟩ := Input.accept?_of_some hs hq
  rw [bind_ok (Reader.kind?_some hp)]
  exact hf _ hk

theorem kind?_none {q : Kind → Option α} (hq : ∀ c ∈ (w ++ k).head?, q c = none)
    (hf : Leads F (f none) w k) : Leads F (kind? q >>= f) w k := by
  intro s hs
  rw [bind_ok (Reader.kind?_none (Input.accept?_of_none (hs ▸ hq)))]
  exact hf s hs

theorem mark?_some {m : Mark} (hg : ∀ span, Leads F (g (some span)) w k) :
    Leads F (mark? m >>= g) (.mark m :: w) k := by
  intro s hs
  obtain ⟨p, hp, hk⟩ := Input.mark?_of_kinds hs
  rw [bind_ok (Reader.mark?_some hp)]
  exact hg _ _ hk

theorem mark?_none {m : Mark} (hm : (w ++ k).head? ≠ some (.mark m)) (hg : Leads F (g none) w k) :
    Leads F (mark? m >>= g) w k := by
  intro s hs
  rw [bind_ok (Reader.mark?_none (Input.mark?_of_head (hs ▸ hm)))]
  exact hg s hs

theorem keyword?_some {m : Keyword} (hg : ∀ span, Leads F (g (some span)) w k) :
    Leads F (keyword? m >>= g) (.keyword m :: w) k := by
  intro s hs
  obtain ⟨p, hp, hk⟩ := Input.keyword?_of_kinds hs
  rw [bind_ok (Reader.keyword?_some hp)]
  exact hg _ _ hk

theorem keyword?_none {m : Keyword} (hm : (w ++ k).head? ≠ some (.keyword m))
    (hg : Leads F (g none) w k) : Leads F (keyword? m >>= g) w k := by
  intro s hs
  rw [bind_ok (Reader.keyword?_none (Input.keyword?_of_head (hs ▸ hm)))]
  exact hg s hs

theorem ident?_some {name : String} (hi : ∀ id, Leads F (i (some id)) w k) :
    Leads F (ident? >>= i) (.ident name :: w) k := by
  intro s hs
  obtain ⟨p, hp, -, hk⟩ := Input.ident?_of_kinds hs
  rw [bind_ok (Reader.ident?_some hp)]
  exact hi _ _ hk

theorem ident?_none (hm : ∀ name, (w ++ k).head? ≠ some (.ident name))
    (hi : Leads F (i none) w k) : Leads F (ident? >>= i) w k := by
  intro s hs
  rw [bind_ok (Reader.ident?_none (Input.ident?_of_head (hs ▸ hm)))]
  exact hi s hs

end

end Leads

namespace Takes

variable {k : List Kind}

theorem of_gives {n : Nat} {r : Reading α n} {P : α → Prop} (h : Gives r P k) :
    ∃ (m : Reader α) (t : Input), (∃ a, m = pure a) ∧ r.plain = m t ∧ t.kinds = k := by
  obtain ⟨p, rfl, -, hk⟩ := h
  exact ⟨_, p.input, ⟨p.value, rfl⟩, rfl, hk⟩

theorem mark (m : Mark) (k : List Kind) : Takes (mark m) [.mark m] k :=
  fun _ hs => of_gives (Input.readMark_gives hs)

theorem ident (name : String) (k : List Kind) : Takes ident [.ident name] k :=
  fun _ hs => of_gives (Input.readIdent_gives hs)

theorem integer (text : String) (k : List Kind) : Takes integer [.integer text] k :=
  fun _ hs => of_gives (Input.readInteger_gives hs)

end Takes

/-! ## Declarations -/

section

variable {w v k : List Kind} {name : String}

theorem bound_takes (text : String) (k : List Kind) : Takes bound [.integer text] k := by
  rw [bound_eq]
  refine .look fun s hs => .mark?_none (by simp) ?_
  exact .last (.integer text k) fun digits => .look fun _ _ => .pure _

theorem bound_takes_neg (text : String) (k : List Kind) :
    Takes bound [.mark .minus, .integer text] k := by
  rw [bound_eq]
  refine .look fun s hs => .mark?_some fun minus => ?_
  exact .last (.integer text k) fun digits => .look fun _ _ => .pure _

/-- Reading a declarator goes on with the arrays after the tokens `w`. -/
def ReachesArrays (w : List Kind) : Prop :=
  ∀ k, Leads (fun m => ∃ start inner, m = arrays start inner) declarator w k

/-- What follows a declarator is no array. -/
def TakesDeclarator (w : List Kind) : Prop :=
  ∀ k, k.head? ≠ some (.mark .leftBracket) → Takes declarator w k

/-- The tokens start as a declarator does, and not as a function. -/
def StartsVariable (w : List Kind) : Prop :=
  ∃ c r, w = c :: r ∧ (c = .mark .star ∨ c = .mark .leftParen ∨
    (∃ name, c = .ident name) ∧ r.head? ≠ some (.mark .leftParen))

theorem StartsVariable.array (h : StartsVariable w) (v : List Kind) :
    StartsVariable (w ++ brackets v) := by
  obtain ⟨c, r, rfl, hc⟩ := h
  refine ⟨c, r ++ brackets v, rfl, ?_⟩
  rcases hc with hc | hc | ⟨hc, hr⟩
  · exact .inl hc
  · exact .inr (.inl hc)
  · refine .inr (.inr ⟨hc, ?_⟩)
    cases r with
    | nil => simp [enclosed]
    | cons c' r' => exact hr

theorem StartsVariable.head_ne {m : Mark} (h : StartsVariable w) (hstar : m ≠ .star)
    (hparen : m ≠ .leftParen) (v : List Kind) : (w ++ v).head? ≠ some (.mark m) := by
  obtain ⟨c, r, rfl, rfl | rfl | ⟨⟨name, rfl⟩, -⟩⟩ := h
  · simpa using hstar.symm
  · simpa using hparen.symm
  · simp

theorem reachesArrays_ident (name : String) : ReachesArrays [.ident name] := by
  intro k
  rw [declarator_eq]
  exact .mark?_none (by simp) (.ident?_some fun id => .done ⟨_, _, rfl⟩)

protected theorem TakesDeclarator.parens (hd : TakesDeclarator w) : ReachesArrays (parens w) := by
  intro k
  rw [declarator_eq]
  refine .mark?_none (by simp) (.ident?_none (by simp) (.mark?_some fun left => ?_))
  refine .bind (hd _ (by simp)) fun inner => ?_
  exact .token (.mark .rightParen) fun right => .done ⟨_, _, rfl⟩

protected theorem ReachesArrays.array (hd : ReachesArrays w) (hb : ∀ k, Takes bound v k) :
    ReachesArrays (w ++ brackets v) := by
  intro k
  refine .trans (hd _) ?_
  rintro m ⟨start, inner, rfl⟩
  rw [arrays_eq]
  refine .mark?_some fun left => .bind (hb _) fun size => ?_
  exact .token (.mark .rightBracket) fun right => .done ⟨_, _, rfl⟩

protected theorem ReachesArrays.takes (hd : ReachesArrays w) : TakesDeclarator w := by
  intro k hk
  rw [← List.append_nil w]
  refine .trans (hd _) ?_
  rintro m ⟨start, inner, rfl⟩
  rw [arrays_eq]
  exact .mark?_none hk (.pure _)

protected theorem TakesDeclarator.pointer (hd : TakesDeclarator w) :
    TakesDeclarator (.mark .star :: w) := by
  intro k hk
  rw [declarator_eq]
  exact .mark?_some fun star => .last (hd k hk) fun inner => .look fun _ _ => .pure _

/-- What follows a specifier is no member list. -/
def TakesSpecifier (w : List Kind) : Prop :=
  ∀ k, k.head? ≠ some (.mark .leftBrace) → Takes specifier w k

theorem takesSpecifier_int : TakesSpecifier [.keyword .int] := by
  intro k _
  rw [specifier_eq]
  exact .keyword?_some fun span => .pure _

theorem takesSpecifier_char : TakesSpecifier [.keyword .char] := by
  intro k _
  rw [specifier_eq]
  exact .keyword?_none (by simp) (.keyword?_some fun span => .pure _)

theorem takesSpecifier_structRef (name : String) :
    TakesSpecifier [.keyword .struct, .ident name] := by
  intro k hk
  rw [specifier_eq]
  refine .keyword?_none (by simp) (.keyword?_none (by simp) (.keyword?_some fun struct => ?_))
  exact .token (.ident name) fun tag => .mark?_none hk (.pure _)

theorem takesSpecifier_structDef (name : String)
    (hm : ∀ k, Takes members w (.mark .rightBrace :: k)) :
    TakesSpecifier (.keyword .struct :: .ident name :: braces w) := by
  intro k hk
  rw [specifier_eq]
  refine .keyword?_none (by simp) (.keyword?_none (by simp) (.keyword?_some fun struct => ?_))
  refine .token (.ident name) fun tag => .mark?_some fun left => ?_
  exact .bind (hm k) fun fields => .token (.mark .rightBrace) fun right => .pure _

/-- What follows a declaration is no array. -/
def TakesDecl (w : List Kind) : Prop :=
  ∀ k, k.head? ≠ some (.mark .leftBracket) → Takes decl w k

protected theorem TakesSpecifier.decl (hs : TakesSpecifier w) (hd : TakesDeclarator v)
    (hv : StartsVariable v) : TakesDecl (w ++ v) := by
  intro k hk
  rw [decl_eq]
  refine .look fun _ _ => .bind (hs _ (hv.head_ne (by decide) (by decide) k)) fun spec => ?_
  exact .last (hd k hk) fun d => .look fun _ _ => .pure _

theorem members_takes_nil (k : List Kind) : Takes members [] (.mark .rightBrace :: k) := by
  rw [members_eq]
  refine .look fun s hs => ?_
  rw [Input.stopsAt_of_kinds hs]
  exact .pure _

protected theorem TakesDecl.members (hd : TakesDecl w) (hw : Nonterminal.decl.Opens w)
    (hm : ∀ k, Takes members v (.mark .rightBrace :: k)) (k : List Kind) :
    Takes members (w ++ .mark .semicolon :: v) (.mark .rightBrace :: k) := by
  rw [members_eq]
  refine .look fun s hs => ?_
  obtain ⟨c, r, rfl, hc⟩ := hw rfl
  rw [Input.stopsAt_of_begins hs hc]
  refine .bind (hd _ (by simp)) fun d => .token (.mark .semicolon) fun semi => ?_
  exact .last (hm k) fun more => .pure _

end

/-! ## Lists -/

section

variable {element : Reader α} {list : Reader (List α)} {w v k : List Kind}

theorem commaList_takes_nil : Takes (commaList element list) [] (.mark .rightParen :: k) := by
  refine .look fun s hs => ?_
  rw [Input.stopsAt_of_kinds hs]
  exact .pure _

theorem commaList_takes_single
    (hstop : ∀ s : Input, s.kinds = w ++ .mark .rightParen :: k → s.stopsAt .rightParen = false)
    (he : Takes element w (.mark .rightParen :: k)) :
    Takes (commaList element list) w (.mark .rightParen :: k) := by
  refine .look fun s hs => ?_
  rw [hstop s hs]
  exact .last he fun first => .mark?_none (by simp) (.pure _)

theorem commaList_takes_more
    (hstop : ∀ (s : Input) k, s.kinds = w ++ k → s.stopsAt .rightParen = false)
    (he : Takes element w (.mark .comma :: (v ++ .mark .rightParen :: k)))
    (hl : Takes list v (.mark .rightParen :: k)) :
    Takes (commaList element list) (w ++ .mark .comma :: v) (.mark .rightParen :: k) := by
  refine .look fun s hs => ?_
  rw [hstop s _ (by rw [hs, List.append_assoc])]
  refine .bind he fun first => .mark?_some fun comma => ?_
  exact .last hl fun rest => .pure _

end

/-! ## Expressions -/

section

variable {w v k : List Kind} {name : String}

/-- What follows an operand is no trailer. -/
def TakesOperand (w : List Kind) : Prop :=
  ∀ k, (∀ c ∈ k.head?, c.trailer? = none) → Takes operand w k

/-- Reading an operand goes on with the trailers after the tokens `w`. -/
def ReachesTrailers (w : List Kind) : Prop :=
  ∀ k, Leads (fun m => ∃ base, m = trailers base) operand w k

/-- What follows an expression is neither a trailer nor an operator. -/
def TakesExpr (w : List Kind) : Prop := ∀ k, Closes k → Takes (expr 0) w k

theorem primary_takes_name (name : String) (k : List Kind) : Takes primary [.ident name] k := by
  rw [primary_eq]
  exact .kind?_none (by simp [Kind.literal?]) (.ident?_some fun id => .pure _)

theorem primary_takes_literal {c : Kind} {value : Literal} (hc : c.literal? = some value)
    (k : List Kind) : Takes primary [c] k := by
  rw [primary_eq]
  exact .kind?_some hc (.look fun _ _ => .pure _)

protected theorem TakesExpr.parens (he : TakesExpr w) (k : List Kind) :
    Takes primary (parens w) k := by
  rw [primary_eq]
  refine .kind?_none (by simp [Kind.literal?]) (.ident?_none (by simp) (.mark?_some fun left => ?_))
  exact .bind (he _ (closes_cons.2 ⟨rfl, rfl⟩)) fun e => .token (.mark .rightParen) fun _ => .pure _

theorem reachesTrailers_primary (hp : ∀ k, Takes primary w k)
    (hw : Nonterminal.primary.Opens w) : ReachesTrailers w := by
  intro k
  obtain ⟨c, r, rfl, hc⟩ := hw rfl
  rw [operand_eq]
  refine .kind?_none (by simp [(Kind.of_beginsPrimary hc).2]) ?_
  exact .last (hp k) fun base => .done ⟨base, rfl⟩

protected theorem ReachesTrailers.call (hb : ReachesTrailers w)
    (ha : ∀ k, Takes args v (.mark .rightParen :: k)) : ReachesTrailers (w ++ parens v) := by
  intro k
  refine .trans (hb _) ?_
  rintro m ⟨base, rfl⟩
  rw [trailers_eq]
  refine .kind?_some (a := .call) rfl (.bind (ha k) fun values => ?_)
  exact .token (.mark .rightParen) fun right => .done ⟨_, rfl⟩

protected theorem ReachesTrailers.index (hb : ReachesTrailers w) (he : TakesExpr v) :
    ReachesTrailers (w ++ brackets v) := by
  intro k
  refine .trans (hb _) ?_
  rintro m ⟨base, rfl⟩
  rw [trailers_eq]
  refine .kind?_some (a := .index) rfl (.bind (he _ (closes_cons.2 ⟨rfl, rfl⟩)) fun offset => ?_)
  exact .token (.mark .rightBracket) fun right => .done ⟨_, rfl⟩

protected theorem ReachesTrailers.member (hb : ReachesTrailers w) {m : Mark}
    (hm : m = .dot ∨ m = .arrow) (name : String) :
    ReachesTrailers (w ++ [.mark m, .ident name]) := by
  intro k
  have htrailer : ∃ arrow, (Kind.mark m).trailer? = some (.member arrow) := by
    rcases hm with rfl | rfl <;> exact ⟨_, rfl⟩
  obtain ⟨arrow, harrow⟩ := htrailer
  refine .trans (hb _) ?_
  rintro m ⟨base, rfl⟩
  rw [trailers_eq]
  exact .kind?_some harrow (.token (.ident name) fun field => .done ⟨_, rfl⟩)

protected theorem ReachesTrailers.takes (hb : ReachesTrailers w) : TakesOperand w := by
  intro k hk
  rw [← List.append_nil w]
  refine .trans (hb _) ?_
  rintro m ⟨base, rfl⟩
  rw [trailers_eq]
  exact .kind?_none hk (.pure _)

protected theorem TakesOperand.unary (ho : TakesOperand w) {m : Mark} (hm : m ∈ unaryMarks) :
    TakesOperand (.mark m :: w) := by
  intro k hk
  obtain ⟨op, hop, -⟩ := of_mem_unaryMarks hm
  rw [operand_eq]
  exact .kind?_some (q := Kind.unOp?) hop
    (.look fun _ _ => .last (ho k hk) fun e => .pure _)

/-- Operators of a precedence above `n`, each with its right operand. -/
inductive Tail (n : Nat) : List Kind → Prop
  | nil : Tail n []
  | cons {c : Kind} {op : BinOp} {w w' : List Kind} : c.binOp? = some op → n < op.precedence →
      TakesOperand w → Tail n w' → Tail n (c :: (w ++ w'))

/-- Operands with operators of a precedence above `n` between them. -/
def Chain (n : Nat) (w : List Kind) : Prop :=
  ∃ w₁ w₂, TakesOperand w₁ ∧ Tail n w₂ ∧ w = w₁ ++ w₂

theorem Tail.mono {n n' : Nat} (hn : n' ≤ n) (h : Tail n w) : Tail n' w := by
  induction h with
  | nil => exact .nil
  | cons hc hop hw _ ih => exact .cons hc (by omega) hw ih

theorem Tail.append {n : Nat} (h : Tail n w) (h' : Tail n v) : Tail n (w ++ v) := by
  induction h with
  | nil => exact h'
  | cons hc hop hw _ ih =>
    rw [List.cons_append, List.append_assoc]
    exact .cons hc hop hw ih

theorem Chain.mono {n n' : Nat} (hn : n' ≤ n) (h : Chain n w) : Chain n' w := by
  obtain ⟨w₁, w₂, h₁, h₂, rfl⟩ := h
  exact ⟨w₁, w₂, h₁, h₂.mono hn, rfl⟩

/-- A weaker operator between two chains. -/
theorem Chain.binary {n : Nat} {c : Kind} {op : BinOp} (hc : c.binOp? = some op)
    (hop : n < op.precedence) (h : Chain n w) (h' : Chain n v) : Chain n (w ++ c :: v) := by
  obtain ⟨w₁, w₂, h₁, h₂, rfl⟩ := h
  obtain ⟨v₁, v₂, h₁', h₂', rfl⟩ := h'
  refine ⟨w₁, w₂ ++ c :: (v₁ ++ v₂), h₁, h₂.append (.cons hc hop h₁' h₂'), ?_⟩
  rw [List.append_assoc]

/-- No operator is a trailer. -/
theorem Kind.trailer?_of_binOp? {c : Kind} {op : BinOp} (h : c.binOp? = some op) :
    c.trailer? = none := by
  unfold binOp? at h
  split at h
  · rename_i m
    cases m <;> first | rfl | cases h
  · cases h

/-- A tail does not go on with the operand before it. -/
theorem Tail.trailer {n : Nat} (h : Tail n w) (hk : Closes k) :
    ∀ c ∈ (w ++ k).head?, c.trailer? = none := by
  cases h with
  | nil => exact hk.trailer
  | cons hc _ _ _ =>
    rintro c ⟨⟩
    exact Kind.trailer?_of_binOp? hc

/-- No operator of the precedence `least` comes next. -/
def Weak (least : Nat) (w : List Kind) : Prop :=
  ∀ c ∈ w.head?, ∀ op, c.binOp? = some op → op.precedence < least

theorem operators_weak {least : Nat} {s : Input} (h : Weak least s.kinds) (left : Expr) :
    operators least left s = .ok (left, s) := by
  have hnone : s.accept? (fun k => k.binOp?.filter (least ≤ ·.precedence)) = none := by
    refine Input.accept?_of_none fun c hc => Option.filter_eq_none_iff.2 fun op hop => ?_
    simpa using h c hc op hop
  rw [operators_eq, operator?, bind_ok (Reader.kind?_none hnone)]
  rfl

/-- An expression goes on as far as its operators are strong enough. -/
theorem operators_tail {n : Nat} {s : Input} (least : Nat) (left : Expr) (h : Tail n w)
    (hk : Closes k) (hs : s.kinds = w ++ k) :
    ∃ e t w', operators least left s = .ok (e, t) ∧ t.kinds = w' ++ k ∧ Tail n w' ∧
      w'.length ≤ w.length ∧ Weak least (w' ++ k) := by
  induction hlen : w.length using Nat.strongRecOn generalizing w least left s with
  | ind len ih =>
    by_cases hweak : Weak least s.kinds
    · exact ⟨left, s, w, operators_weak hweak left, hs, h, Nat.le_of_eq hlen, hs ▸ hweak⟩
    · cases h with
      | nil =>
        refine absurd (fun c hc op hop => ?_) hweak
        rw [hs] at hc
        cases (hk.binOp c hc).symm.trans hop
      | @cons c op w₁ w₂ hc hop hw htail =>
        have hstrong : least ≤ op.precedence := by simpa [Weak, hs, hc] using hweak
        have hsome : c.binOp?.filter (least ≤ ·.precedence) = some op := by
          rw [hc, Option.filter_some_pos (by simpa using hstrong)]
        obtain ⟨p, hp, hvalue, hrest⟩ := Input.accept?_of_some
          (f := fun k => k.binOp?.filter (least ≤ ·.precedence)) hs hsome
        rw [List.append_eq, List.append_assoc] at hrest
        obtain ⟨first, t, hfirst, ht⟩ := (hw _ (htail.trailer hk)).run hrest
        have hlt : w₂.length < len := by simp at hlen; omega
        -- the right operand takes a part of the tail, and the loop goes on with the rest
        obtain ⟨right, t₁, w', hright, ht₁, htail', hle, -⟩ :=
          ih _ hlt p.value.rightBinding first htail ht rfl
        obtain ⟨e, t₂, w'', hrun, ht₂, htail'', hle', hweak'⟩ := ih _ (by omega) least
          (.binary p.value left right (left.span.join right.span)) htail' ht₁ rfl
        refine ⟨e, t₂, w'', ?_, ht₂, htail'', by omega, hweak'⟩
        rw [operators_eq, operator?, bind_ok (Reader.kind?_some hp), ← hrun]
        refine bind_ok ?_
        rw [expr_eq, bind_ok hfirst]
        exact hright

theorem Chain.takes (h : Chain 0 w) : TakesExpr w := by
  obtain ⟨w₁, w₂, h₁, h₂, rfl⟩ := h
  intro k hk s hs
  rw [List.append_assoc] at hs
  obtain ⟨left, t, hleft, ht⟩ := (h₁ _ (h₂.trailer hk)).run hs
  obtain ⟨e, t', w', hrun, ht', htail, -, hweak⟩ :=
    operators_tail 0 left h₂ hk ht
  cases htail with
  | nil =>
    refine ⟨_, t', ⟨e, rfl⟩, ?_, ht'⟩
    rw [expr_eq, bind_ok hleft]
    exact hrun
  | cons hc _ _ _ => exact absurd (hweak _ rfl _ hc) (Nat.not_lt_zero _)

end

/-! ## Statements -/

section

variable {c w v k : List Kind}

protected theorem TakesExpr.condition (he : TakesExpr w) (k : List Kind) :
    Takes condition (parens w) k := by
  rw [condition_eq]
  refine .token (.mark .leftParen) fun left => ?_
  refine .bind (he _ (closes_cons.2 ⟨rfl, rfl⟩)) fun cond => ?_
  exact .token (.mark .rightParen) fun right => .pure _

protected theorem TakesExpr.semi (he : TakesExpr w) (k : List Kind) :
    Takes exprSemi (w ++ [.mark .semicolon]) k := by
  rw [exprSemi_eq]
  refine .bind (he _ (closes_cons.2 ⟨rfl, rfl⟩)) fun value => ?_
  exact .token (.mark .semicolon) fun semi => .pure _

protected theorem TakesDecl.varDecl (hd : TakesDecl w) (k : List Kind) :
    Takes varDecl (w ++ [.mark .semicolon]) k := by
  rw [varDecl_eq]
  refine .look fun _ _ => .bind (hd _ (by simp)) fun d => .mark?_none (by simp) ?_
  exact .token (.mark .semicolon) fun semi => .pure _

protected theorem TakesDecl.varInit (hd : TakesDecl w) (he : TakesExpr v) (k : List Kind) :
    Takes varDecl (w ++ .mark .assign :: (v ++ [.mark .semicolon])) k := by
  rw [varDecl_eq]
  refine .look fun _ _ => .bind (hd _ (by simp)) fun d => .mark?_some fun assign => ?_
  exact .last (he.semi k) fun init => .pure _

theorem block_takes (hs : ∀ k, Takes stmts w (.mark .rightBrace :: k)) (k : List Kind) :
    Takes block (braces w) k := by
  rw [block_eq]
  refine .token (.mark .leftBrace) fun left => .bind (hs k) fun body => ?_
  exact .token (.mark .rightBrace) fun right => .pure _

theorem stmt_takes_varDecl (hw : Nonterminal.decl.Opens w) (h : Takes varDecl (w ++ v) k) :
    Takes stmt (w ++ v) k := by
  obtain ⟨c, r, rfl, hc⟩ := hw rfl
  rw [stmt_eq]
  refine .look fun s hs => ?_
  rw [Input.kind_of_kinds hs, if_pos (show c.beginsSpecifier = true from hc)]
  exact h

theorem stmt_takes_block (h : Takes block (braces w) k) : Takes stmt (braces w) k := by
  rw [stmt_eq]
  refine .look fun s hs => ?_
  rw [Input.kind_of_kinds (hs.trans (enclosed_append ..)), if_neg (by decide), if_pos rfl]
  exact .last h fun body => .pure _

theorem stmt_takes_led {c : Kind} {l : Lead} (hc : c.lead? = some l)
    (h : Takes (led l) w k) : Takes stmt (c :: w) k := by
  obtain ⟨hspec, hleft, -⟩ := Kind.of_lead? hc
  rw [stmt_eq]
  refine .look fun s hs => ?_
  rw [Input.kind_of_kinds hs, if_neg (by simp [hspec]), if_neg hleft]
  exact .kind?_some hc h

protected theorem TakesExpr.stmt (he : TakesExpr w) (hw : Nonterminal.expr.Opens w)
    (k : List Kind) : Takes stmt (w ++ [.mark .semicolon]) k := by
  have hsemi := he.semi k
  obtain ⟨c, r, rfl, hc⟩ := hw rfl
  obtain ⟨hspec, hleft, hlead, -⟩ := Kind.of_beginsExpr hc
  rw [stmt_eq]
  refine .look fun s hs => ?_
  rw [Input.kind_of_kinds hs, if_neg (by simp [hspec]), if_neg hleft]
  exact .kind?_none (by simp [hlead]) (.last hsemi fun value => .pure _)

theorem led_takes_ret (k : List Kind) : Takes (led .ret) [.mark .semicolon] k := by
  rw [led_eq]
  refine .look fun _ _ => ?_
  rw [returned_eq]
  exact .mark?_some fun semi => .pure _

protected theorem TakesExpr.ret (he : TakesExpr w) (hw : Nonterminal.expr.Opens w)
    (k : List Kind) : Takes (led .ret) (w ++ [.mark .semicolon]) k := by
  have hsemi := he.semi k
  obtain ⟨c, r, rfl, hc⟩ := hw rfl
  rw [led_eq]
  refine .look fun _ _ => ?_
  rw [returned_eq]
  refine .mark?_none ?_ (.last hsemi fun value => .pure _)
  rintro ⟨⟩
  cases hc

theorem led_takes_brk (k : List Kind) : Takes (led .brk) [.mark .semicolon] k := by
  rw [led_eq]
  exact .look fun _ _ => .token (.mark .semicolon) fun semi => .pure _

theorem led_takes_cont (k : List Kind) : Takes (led .cont) [.mark .semicolon] k := by
  rw [led_eq]
  exact .look fun _ _ => .token (.mark .semicolon) fun semi => .pure _

theorem led_takes_empty (k : List Kind) : Takes (led .empty) [] k := by
  rw [led_eq]
  exact .look fun _ _ => .pure _

/-- A statement as it is read. It is open if an `else` right after it would belong to it; what
stands between an `if` and its `else` is not. -/
inductive Guarded : Bool → List Kind → Prop
  | simple {w : List Kind} : (∀ k, Takes stmt w k) → Guarded false w
  | ifThen {isOpen : Bool} {c w : List Kind} : TakesExpr c → Guarded isOpen w →
      Guarded true (.keyword .if_ :: (parens c ++ w))
  | ifElse {isOpen : Bool} {c w v : List Kind} : TakesExpr c → Guarded false w →
      Guarded isOpen v →
      Guarded isOpen (.keyword .if_ :: (parens c ++ (w ++ .keyword .else_ :: v)))
  | loop {isOpen : Bool} {c w : List Kind} : TakesExpr c → Guarded isOpen w →
      Guarded isOpen (.keyword .while_ :: (parens c ++ w))

/-- An `else` after an open statement makes a statement with it. -/
theorem Guarded.attach {isOpen : Bool} (h : Guarded true w) (hv : Guarded isOpen v) :
    ∃ isOpen', Guarded isOpen' (w ++ .keyword .else_ :: v) := by
  generalize hb : true = b at h
  induction h with
  | simple => cases hb
  | @ifThen isOpen' c w hc hw ih =>
    cases isOpen' with
    | false => exact ⟨isOpen, by simpa using Guarded.ifElse hc hw hv⟩
    | true =>
      obtain ⟨b', h'⟩ := ih rfl
      exact ⟨true, by simpa using Guarded.ifThen hc h'⟩
  | ifElse hc hw _ _ ih =>
    obtain ⟨b', h'⟩ := ih hb
    exact ⟨b', by simpa using Guarded.ifElse hc hw h'⟩
  | loop hc _ ih =>
    obtain ⟨b', h'⟩ := ih hb
    exact ⟨b', by simpa using Guarded.loop hc h'⟩

theorem Guarded.takes {isOpen : Bool} (h : Guarded isOpen w)
    (hk : isOpen = true → k.head? ≠ some (.keyword .else_)) : Takes stmt w k := by
  induction h generalizing k with
  | simple h => exact h k
  | ifThen hc _ ih =>
    refine stmt_takes_led (l := .cond) rfl ?_
    rw [led_eq]
    refine .look fun _ _ => .bind (hc.condition _) fun cond => ?_
    refine .last (ih fun _ => hk rfl) fun yes => .keyword?_none (hk rfl) ?_
    exact .look fun _ _ => .pure _
  | ifElse hc _ _ ihw ihv =>
    refine stmt_takes_led (l := .cond) rfl ?_
    rw [led_eq]
    refine .look fun _ _ => .bind (hc.condition _) fun cond => ?_
    refine .bind (ihw (by simp)) fun yes => .keyword?_some fun alt => ?_
    exact .last (ihv hk) fun no => .look fun _ _ => .pure _
  | loop hc _ ih =>
    refine stmt_takes_led (l := .loop) rfl ?_
    rw [led_eq]
    refine .look fun _ _ => .bind (hc.condition _) fun cond => ?_
    exact .last (ih hk) fun body => .look fun _ _ => .pure _

theorem stmts_takes_nil (k : List Kind) : Takes stmts [] (.mark .rightBrace :: k) := by
  rw [stmts_eq]
  refine .look fun s hs => ?_
  rw [Input.stopsAt_of_kinds hs]
  exact .pure _

protected theorem Guarded.stmts {isOpen : Bool} (h : Guarded isOpen w)
    (hw : Nonterminal.stmt.Opens w) (hs : ∀ k, Takes stmts v (.mark .rightBrace :: k))
    (hv : v.head? ≠ some (.keyword .else_)) (k : List Kind) :
    Takes stmts (w ++ v) (.mark .rightBrace :: k) := by
  have helse : (v ++ .mark .rightBrace :: k).head? ≠ some (.keyword .else_) := by
    cases v with
    | nil => simp
    | cons c r => exact hv
  have hstmt : Takes stmt w (v ++ .mark .rightBrace :: k) := h.takes fun _ => helse
  rw [stmts_eq]
  refine .look fun s hs' => ?_
  obtain ⟨c, r, rfl, hc⟩ := hw rfl
  have hstop : s.stopsAt .rightBrace = false := by
    rw [Input.stopsAt, Input.kind_of_kinds hs']
    cases c <;> simp_all [Nonterminal.starts, Kind.beginsStmt]
  rw [hstop]
  exact .bind hstmt fun first => .last (hs k) fun more => .pure _

end

/-! ## Programs -/

section

variable {w v k : List Kind}

protected theorem TakesSpecifier.tagOnly (hs : TakesSpecifier w) (k : List Kind) :
    Takes item (w ++ [.mark .semicolon]) k := by
  rw [item_eq]
  refine .look fun _ _ => .bind (hs _ (by simp)) fun spec => ?_
  exact .mark?_some fun semi => .pure _

theorem named_takes_variable (hd : TakesDeclarator v) (hv : StartsVariable v) (start : Span)
    (spec : Specifier) (k : List Kind) : Takes (named start spec) (v ++ [.mark .semicolon]) k := by
  have hvar : Takes (declarator >>= global start spec) (v ++ [.mark .semicolon]) k :=
    .bind (hd _ (by simp)) fun d => .token (.mark .semicolon) fun semi => .pure _
  obtain ⟨c, r, rfl, rfl | rfl | ⟨⟨name, rfl⟩, hr⟩⟩ := hv
  · exact .ident?_none (by simp) hvar
  · exact .ident?_none (by simp) hvar
  · intro s hs
    obtain ⟨p, hp, -, hk⟩ := Input.ident?_of_kinds hs
    have hleft : p.input.kind ≠ .mark .leftParen := by
      cases r with
      | nil => simp [Input.kind_of_kinds hk]
      | cons c r => simpa [Input.kind_of_kinds hk] using hr
    rw [named_variable hp hleft]
    exact hvar s hs

protected theorem TakesSpecifier.global (hs : TakesSpecifier w) (hd : TakesDeclarator v)
    (hv : StartsVariable v) (k : List Kind) : Takes item (w ++ v ++ [.mark .semicolon]) k := by
  rw [item_eq, List.append_assoc]
  refine .look fun s _ => .bind (hs _ ?_) fun spec => .mark?_none ?_ ?_
  · rw [List.append_assoc]
    exact hv.head_ne (by decide) (by decide) _
  · rw [List.append_assoc]
    exact hv.head_ne (by decide) (by decide) _
  · exact named_takes_variable hd hv _ _ _

/-- What follows the parameters of a function is left to `tail`. -/
theorem item_takes_function {tail : List Kind} (hs : TakesSpecifier w) (name : String)
    (hp : ∀ k, Takes params v (.mark .rightParen :: k)) (k : List Kind)
    (ht : tail = [.mark .semicolon] ∨
      ∃ body, tail = braces body ∧ ∀ k, Takes stmts body (.mark .rightBrace :: k)) :
    Takes item (w ++ .ident name :: (parens v ++ tail)) k := by
  rw [item_eq, enclosed_append]
  refine .look fun s _ => .bind (hs _ (by simp)) fun spec => .mark?_none (by simp) ?_
  refine .ident?_some fun id => .look fun t htk => ?_
  rw [if_pos (Input.kind_of_kinds htk)]
  refine .token (.mark .leftParen) fun left => .bind (hp _) fun ps => ?_
  refine .token (.mark .rightParen) fun right => .look fun t htk => ?_
  rcases ht with rfl | ⟨body, rfl, hbody⟩
  · rw [Input.kind_of_kinds htk, if_neg (by decide)]
    exact .token (.mark .semicolon) fun semi => .pure _
  · rw [Input.kind_of_kinds (htk.trans (enclosed_append ..)), if_pos rfl]
    exact .last (block_takes hbody k) fun body => .pure _

theorem readItems_nil {s : Input} (hs : s.kinds = [.eof]) : s.readItems = .ok [] := by
  rw [Input.readItems, if_pos (Input.kind_of_kinds hs)]

theorem readItems_cons {s : Input} (hi : ∀ k, Takes item w k) (hw : Nonterminal.item.Opens w)
    (hp : ∀ s : Input, s.kinds = v ++ [.eof] → ∃ items, s.readItems = .ok items)
    (hs : s.kinds = w ++ v ++ [.eof]) : ∃ items, s.readItems = .ok items := by
  rw [List.append_assoc] at hs
  obtain ⟨item, t, hrun, ht⟩ := (hi (v ++ [.eof])).run hs
  obtain ⟨items, hitems⟩ := hp t ht
  have heof : s.kind ≠ .eof := by
    obtain ⟨c, r, rfl, hc⟩ := hw rfl
    rw [Input.kind_of_kinds hs]
    rintro rfl
    cases hc
  refine ⟨item :: items, ?_⟩
  rw [readItems_of_ok heof hrun, hitems]
  rfl

end

/-! ## All phrases -/

/-- What makes sure that tokens are read as a phrase of the kind. -/
def Accepts : Nonterminal → List Kind → Prop
  | .program, w => ∀ s : Input, s.kinds = w ++ [.eof] → ∃ items, s.readItems = .ok items
  | .item, w => ∀ k, Takes item w k
  | .specifier, w => TakesSpecifier w
  | .members, w => ∀ k, Takes members w (.mark .rightBrace :: k)
  | .decl, w => ∃ w₁ w₂, w = w₁ ++ w₂ ∧ TakesSpecifier w₁ ∧ TakesDeclarator w₂ ∧ StartsVariable w₂
  | .declarator, w => TakesDeclarator w ∧ StartsVariable w
  | .direct, w => ReachesArrays w ∧ StartsVariable w
  | .bound, w => ∀ k, Takes bound w k
  | .stmts, w => (∀ k, Takes stmts w (.mark .rightBrace :: k)) ∧ w.head? ≠ some (.keyword .else_)
  | .stmt, w => ∃ isOpen, Guarded isOpen w
  | .level n, w => Chain n w
  | .unary, w => TakesOperand w
  | .trailed, w => ReachesTrailers w
  | .primary, w => ∀ k, Takes primary w k
  | .elements .params, w | .list .params, w => ∀ k, Takes params w (.mark .rightParen :: k)
  | .elements .args, w | .list .args, w => ∀ k, Takes args w (.mark .rightParen :: k)

theorem Accepts.decl {w : List Kind} (h : Accepts .decl w) : TakesDecl w := by
  obtain ⟨w₁, w₂, rfl, hs, hd, hv⟩ := h
  exact hs.decl hd hv

theorem accepts_noElement (l : Listing) : Accepts (.list l) [] := by
  cases l with
  | params =>
    intro k
    rw [params_eq]
    exact commaList_takes_nil
  | args =>
    intro k
    rw [args_eq]
    exact commaList_takes_nil

theorem Accepts.single {l : Listing} {w : List Kind} (h : Accepts l.element w)
    (hw : l.element.Opens w) : Accepts (.elements l) w := by
  obtain ⟨c, r, rfl, hc⟩ := hw l.nullable_element
  cases l with
  | params =>
    intro k
    rw [params_eq]
    exact commaList_takes_single (fun s hs => Input.stopsAt_of_begins hs hc _)
      (Accepts.decl h _ (by simp))
  | args =>
    intro k
    rw [args_eq]
    exact commaList_takes_single (fun s hs => Input.stopsAt_of_beginsExpr hs hc)
      (Chain.takes h _ (closes_cons.2 ⟨rfl, rfl⟩))

theorem Accepts.more {l : Listing} {w v : List Kind} (h : Accepts l.element w)
    (hw : l.element.Opens w) (hv : Accepts (.list l) v) :
    Accepts (.elements l) (w ++ .mark .comma :: v) := by
  obtain ⟨c, r, rfl, hc⟩ := hw l.nullable_element
  cases l with
  | params =>
    intro k
    rw [params_eq]
    exact commaList_takes_more (fun s k hs => Input.stopsAt_of_begins hs hc _)
      (Accepts.decl h _ (by simp)) (hv k)
  | args =>
    intro k
    rw [args_eq]
    exact commaList_takes_more (fun s k hs => Input.stopsAt_of_beginsExpr hs hc)
      (Chain.takes h _ (closes_cons.2 ⟨rfl, rfl⟩)) (hv k)

theorem Phrase.accepts (h : Phrase lax x w v) : Accepts x w := by
  induction h with
  | noItem => exact fun s hs => ⟨[], readItems_nil hs⟩
  | oneItem hi _ ihi ihp => exact fun s hs => readItems_cons ihi hi.opens ihp hs
  | @function _ _ name _ _ _ _ _ _ _ _ ihs ihp ihb =>
    exact fun k => item_takes_function ihs name ihp k (.inr ⟨_, rfl, ihb.1⟩)
  | @prototype _ _ name _ _ _ _ _ ihs ihp =>
    exact fun k => item_takes_function ihs name ihp k (.inl rfl)
  | global _ ih =>
    obtain ⟨w₁, w₂, rfl, hs, hd, hv⟩ := ih
    exact fun k => hs.global hd hv k
  | tagOnly _ ih => exact fun k => TakesSpecifier.tagOnly ih k
  | int => exact takesSpecifier_int
  | char => exact takesSpecifier_char
  | structRef => exact takesSpecifier_structRef _
  | structDef _ _ ih => exact takesSpecifier_structDef _ ih
  | noMember => exact members_takes_nil
  | oneMember hd _ ihd ihm => exact ihd.decl.members hd.opens ihm
  | decl _ _ ihs ihd => exact ⟨_, _, rfl, ihs, ihd.1, ihd.2⟩
  | pointer _ ih => exact ⟨ih.1.pointer, _, _, rfl, .inl rfl⟩
  | direct _ ih => exact ⟨ih.1.takes, ih.2⟩
  | @declared name =>
    exact ⟨reachesArrays_ident name, _, _, rfl, .inr (.inr ⟨⟨name, rfl⟩, by simp⟩)⟩
  | grouped _ ih => exact ⟨ih.1.parens, _, _, rfl, .inr (.inl rfl)⟩
  | array _ _ ihd ihb => exact ⟨ihd.1.array ihb, ihd.2.array _⟩
  | size => exact bound_takes _
  | negSize => exact bound_takes_neg _
  | noStmt => exact ⟨stmts_takes_nil, by simp⟩
  | oneStmt hs _ ihs ihm =>
    obtain ⟨b, hb⟩ := ihs
    refine ⟨hb.stmts hs.opens ihm.1 ihm.2, ?_⟩
    obtain ⟨c, r, rfl, hc⟩ := hs.opens rfl
    rintro ⟨⟩
    cases hc
  | block _ ih => exact ⟨false, .simple fun k => stmt_takes_block (block_takes ih.1 k)⟩
  | varDecl hd ihd =>
    exact ⟨false, .simple fun k => stmt_takes_varDecl hd.opens (ihd.decl.varDecl k)⟩
  | varInit hd _ ihd ihe =>
    exact ⟨false, .simple fun k => stmt_takes_varDecl hd.opens (ihd.decl.varInit ihe.takes k)⟩
  | value he ihe => exact ⟨false, .simple (ihe.takes.stmt he.opens)⟩
  | ret => exact ⟨false, .simple fun k => stmt_takes_led rfl (led_takes_ret k)⟩
  | retValue he ihe =>
    exact ⟨false, .simple fun k => stmt_takes_led rfl (ihe.takes.ret he.opens k)⟩
  | ifThen _ _ ihc ihw =>
    obtain ⟨b, hw⟩ := ihw
    exact ⟨true, .ifThen ihc.takes hw⟩
  | ifElse _ _ _ ihc ihw ihv =>
    obtain ⟨b, hw⟩ := ihw
    obtain ⟨b', hv⟩ := ihv
    cases b with
    | false => exact ⟨b', .ifElse ihc.takes hw hv⟩
    | true =>
      obtain ⟨b, h⟩ := (Guarded.ifThen ihc.takes hw).attach hv
      exact ⟨b, by simpa using h⟩
  | loop _ _ ihc ihw =>
    obtain ⟨b, hw⟩ := ihw
    exact ⟨b, .loop ihc.takes hw⟩
  | brk => exact ⟨false, .simple fun k => stmt_takes_led rfl (led_takes_brk k)⟩
  | cont => exact ⟨false, .simple fun k => stmt_takes_led rfl (led_takes_cont k)⟩
  | empty => exact ⟨false, .simple fun k => stmt_takes_led rfl (led_takes_empty k)⟩
  | assign _ _ ihl ihr =>
    have hop : Kind.binOp? (.mark .assign) = some .assign := rfl
    exact Chain.binary hop (by decide) (Chain.mono (by omega) ihl) ihr
  | binary hm _ _ ihl ihr =>
    obtain ⟨op, hop, hprec⟩ := of_mem_levelMarks hm
    exact Chain.binary (c := .mark _) hop (by omega) ihl (Chain.mono (by omega) ihr)
  | stronger _ ih => exact Chain.mono (by omega) ih
  | strongest _ ih => exact ⟨_, [], ih, .nil, by simp⟩
  | unary hm _ ih => exact TakesOperand.unary ih hm
  | trailed _ ih => exact ReachesTrailers.takes ih
  | primary hp ih => exact reachesTrailers_primary ih hp.opens
  | call _ _ ihb iha => exact ReachesTrailers.call ihb iha
  | index _ _ ihb ihe => exact ReachesTrailers.index ihb ihe.takes
  | member _ hm _ ih => exact ReachesTrailers.member ih hm _
  | name => exact primary_takes_name _
  | integer | character | string => exact primary_takes_literal rfl
  | paren _ ih => exact ih.takes.parens
  | single he ih => exact ih.single he.opens
  | @more l _ _ _ _ he hl ih ihl => exact ih.more he.opens (by cases l <;> exact ihl)
  | closingComma _ he ih => exact ih.more he.opens (accepts_noElement _)
  | noElement => exact accepts_noElement _
  | @elements l _ _ _ ih => cases l <;> exact ih

end MiniC
