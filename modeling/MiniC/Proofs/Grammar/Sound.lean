import MiniC.Proofs.Grammar.Settles

/-!
# What is read is a phrase

Every reader settles a phrase of its kind: the tokens that it took are such a phrase and its value
is written with the same tokens, in the same order, but for the ones the grammar drops. Before an
error, the tokens that it took can be completed to such a phrase.
-/

namespace MiniC

open Reader

/-! ## Trees in order -/

mutual

/-- The tokens of an expression in their order, without the parentheses that left no trace. -/
def Expr.linear : Expr → List Kind
  | .literal value _ => [value.kind]
  | .name id => [.ident id.name]
  | .binary op left right _ => left.linear ++ .mark op.mark :: right.linear
  | .unary op operand _ => .mark op.mark :: operand.linear
  | .call callee args _ => callee.linear ++ parens (listed (linearExprs args))
  | .index base offset _ => base.linear ++ brackets offset.linear
  | .member base field arrow _ =>
    base.linear ++ [.mark (if arrow then .arrow else .dot), .ident field.name]

def linearExprs : List Expr → List (List Kind)
  | [] => []
  | e :: more => e.linear :: linearExprs more

end

theorem linearExprs_eq (es : List Expr) : linearExprs es = es.map Expr.linear := by
  induction es with
  | nil => rfl
  | cons e more ih => rw [linearExprs, ih, List.map_cons]

def linearInit : Option Expr → List Kind
  | some e => .mark .assign :: e.linear
  | none => []

def linearOption : Option Expr → List Kind
  | some e => e.linear
  | none => []

mutual

def Stmt.linear : Stmt → List Kind
  | .block stmts _ => braces (linearStmts stmts)
  | .varDecl decl init _ => decl.render ++ (linearInit init ++ [.mark .semicolon])
  | .expr value => value.linear ++ [.mark .semicolon]
  | .ret value _ => .keyword .return_ :: (linearOption value ++ [.mark .semicolon])
  | .ifThen cond yes _ => .keyword .if_ :: (parens cond.linear ++ yes.linear)
  | .ifElse cond yes no _ =>
    .keyword .if_ :: (parens cond.linear ++ (yes.linear ++ .keyword .else_ :: no.linear))
  | .loop cond body _ => .keyword .while_ :: (parens cond.linear ++ body.linear)
  | .brk _ => [.keyword .break_, .mark .semicolon]
  | .cont _ => [.keyword .continue_, .mark .semicolon]
  | .empty _ => [.mark .semicolon]

def linearStmts : List Stmt → List Kind
  | [] => []
  | stmt :: more => stmt.linear ++ linearStmts more

end

def Item.linear : Item → List Kind
  | .function sig body => sig.render ++ braces (linearStmts body.stmts)
  | .prototype sig => sig.render ++ [.mark .semicolon]
  | .global decl => decl.render ++ [.mark .semicolon]
  | .tagOnly specifier => specifier.render ++ [.mark .semicolon]

/-- The tokens of a program in their order, without the end mark. -/
def Program.linear (p : Program) : List Kind := p.items.flatMap Item.linear

/-! ## Short phrases -/

theorem isName_x : isName "x" = true := by decide

theorem isInteger_zero : isInteger "0" = true := by decide

namespace Phrase

variable {lax : Bool} {x : Nonterminal} {w w' v v' : List Kind} {n n' : Nat}

theorem lower (h : Phrase lax (.level n) w v) (hn : n' ≤ n) : Phrase lax (.level n') w v := by
  induction hn with
  | refl => exact h
  | step _ ih => exact ih h.stronger

theorem operand (h : Phrase lax .unary w v) (hn : n ≤ 11) : Phrase lax (.level n) w v :=
  h.strongest.lower hn

theorem shortest_declarator : Phrase lax .declarator [.ident "x"] [.ident "x"] :=
  .direct (.declared isName_x)

theorem shortest_decl :
    Phrase lax .decl [.keyword .int, .ident "x"] [.keyword .int, .ident "x"] :=
  .decl .int shortest_declarator

theorem shortest_unary : Phrase lax .unary [.ident "x"] [.ident "x"] :=
  .trailed (.primary (.name isName_x))

theorem shortest_expr : Phrase lax .expr [.ident "x"] [.ident "x"] :=
  shortest_unary.operand (by omega)

end Phrase

/-! ## Declarations -/

theorem Bound.render_of_isInteger {text : String} (h : isInteger text = true) (span : Span) :
    Bound.render ⟨text, span⟩ = [.integer text] := by
  unfold isInteger at h
  unfold Bound.render
  split
  · rename_i digits htext
    simp only [show text.toList = '-' :: digits from htext] at h
    simp at h
  · rfl

theorem Bound.render_minus (text : String) (span : Span) :
    Bound.render ⟨"-" ++ text, span⟩ = [.mark .minus, .integer text] := by
  have htext : ("-" ++ text).toList = '-' :: text.toList := by simp
  simp [Bound.render, htext]

section

variable {lax : Bool} {s : Input}

theorem bound_settles (hs : Lexed lax s.kinds) :
    Settles bound (fun b u _ => Phrase lax .bound u b.render) (Derives lax .bound) s := by
  rw [bound_eq]
  refine .look local_here (.mark? hs (fun minus t _ ht => ?_) fun _ => ?_)
  · refine .integer ht ⟨[.integer "0"], _, .negSize isInteger_zero⟩ fun digits t hd _ ht => ?_
    refine .look local_last (.pure ht ?_)
    rw [Bound.render_minus]
    exact .negSize hd
  · refine .integer hs ⟨[.integer "0"], _, .size isInteger_zero⟩ fun digits t hd _ ht => ?_
    refine .look local_last (.pure ht ?_)
    rw [Bound.render_of_isInteger hd]
    exact .size hd

end

/-- The arrays after a declarator with the tokens `w`. -/
theorem arrays_settles {lax : Bool} {s : Input} {w : List Kind} {start : Span} {inner : Declarator}
    (hinner : Phrase lax .direct w inner.render) (hs : Lexed lax s.kinds) :
    Settles (arrays start inner) (fun d u _ => Phrase lax .direct (w ++ u) d.render)
      (fun u => Derives lax .direct (w ++ u)) s := by
  rw [arrays_eq]
  refine .mark? hs (fun _ t hk ht => ?_) fun _ => .pure hs (by simpa using hinner)
  have hclose {u : List Kind} (h : Derives lax .bound u) :
      ∃ k, Derives lax .direct (w ++ .mark .leftBracket :: (u ++ k)) :=
    ⟨[.mark .rightBracket], h.imp fun _ h => hinner.array h⟩
  refine .bind ht (bound_settles ht) (fun u => hclose) fun size t₁ u _ ht₁ hk₁ hsize => ?_
  refine .mark ht₁ (fun _ => hclose hsize.derives) fun right t₂ hk₂ ht₂ => ?_
  have harray : Phrase lax .direct (w ++ brackets u)
      (Declarator.array inner size (start.join right)).render := hinner.array hsize
  have hlt : t₂.size < s.size := by
    have h := Input.size_lt_of_cons hk
    have h₁ := Input.size_le_of_append hk₁
    have h₂ := Input.size_lt_of_cons hk₂
    omega
  simpa [enclosed] using arrays_settles harray ht₂
termination_by s.size

theorem declarator_settles {lax : Bool} {s : Input} (hs : Lexed lax s.kinds) :
    Settles declarator (fun d u _ => Phrase lax .declarator u d.render)
      (Derives lax .declarator) s := by
  rw [declarator_eq]
  refine .mark? hs (fun star t hk ht => ?_) fun _ => .ident? hs (fun id t hid hk ht => ?_)
    fun _ => .mark? hs (fun left t hk ht => ?_) fun _ => ?_
  · have hlt := Input.size_lt_of_cons hk
    refine .bind_whole ht (declarator_settles ht) (fun u h => h.imp fun _ h => h.pointer)
      fun inner t₁ u _ ht₁ _ hinner => ?_
    exact .look local_last (.pure ht₁ (by simpa [Declarator.render] using hinner.pointer))
  · exact .mono (arrays_settles (.declared hid) ht) (fun d u _ h => h.direct)
      fun u h => h.imp fun _ h => h.direct
  · have hlt := Input.size_lt_of_cons hk
    have hclose {u : List Kind} (h : Derives lax .declarator u) :
        ∃ k, Derives lax .declarator (.mark .leftParen :: (u ++ k)) :=
      ⟨[.mark .rightParen], h.imp fun _ h => h.grouped.direct⟩
    refine .bind ht (declarator_settles ht) (fun u => hclose) fun inner t₁ u _ ht₁ _ hinner => ?_
    refine .mark ht₁ (fun _ => hclose hinner.derives) fun right t₂ _ ht₂ => ?_
    have hgroup : Phrase lax .direct (parens u)
        (Declarator.paren inner (left.join right)).render := hinner.grouped
    refine .mono (arrays_settles hgroup ht₂) (fun d u' _ h => ?_) fun u' h => ?_
    · simpa [enclosed] using h.direct
    · simpa [enclosed] using h.imp fun _ h => h.direct
  · exact .fault hs ⟨_, _, .shortest_declarator⟩ _
termination_by s.size

mutual

theorem specifier_settles {lax : Bool} {s : Input} (hs : Lexed lax s.kinds) :
    Settles specifier (fun d u _ => Phrase lax .specifier u d.render) (Derives lax .specifier)
      s := by
  rw [specifier_eq]
  refine .keyword? hs (fun int t _ ht => .pure ht .int) fun _ =>
    .keyword? hs (fun char t _ ht => .pure ht .char) fun _ =>
    .keyword? hs (fun struct t hk ht => ?_) fun _ => .fault hs ⟨_, _, .int⟩ _
  refine .ident ht ⟨[.ident "x"], _, .structRef isName_x⟩ fun tag t₁ htag hk₁ ht₁ => ?_
  refine .mark? ht₁ (fun left t₂ hk₂ ht₂ => ?_) fun _ => .pure ht₁ (.structRef htag)
  have hclose {u : List Kind} (h : Derives lax .members u) : ∃ k, Derives lax .specifier
      (.keyword .struct :: .ident tag.name :: .mark .leftBrace :: (u ++ k)) :=
    ⟨[.mark .rightBrace], h.imp fun _ h => .structDef htag h⟩
  have hlt : t₂.size < s.size := by
    have h := Input.size_lt_of_cons hk
    have h₁ := Input.size_lt_of_cons hk₁
    have h₂ := Input.size_lt_of_cons hk₂
    omega
  refine .bind ht₂ (members_settles ht₂) (fun u => hclose) fun fields t₃ u _ ht₃ _ hfields => ?_
  refine .mark ht₃ (fun _ => hclose hfields.derives) fun right t₄ _ ht₄ => .pure ht₄ ?_
  exact .structDef htag hfields
termination_by 3 * s.size

theorem decl_settles {lax : Bool} {s : Input} (hs : Lexed lax s.kinds) :
    Settles decl (fun d u _ => Phrase lax .decl u d.render) (Derives lax .decl) s := by
  rw [decl_eq]
  refine .look local_here (.bind hs (specifier_settles hs)
    (fun u h => ⟨_, h.imp fun _ h => h.decl .shortest_declarator⟩) fun spec t u _ ht _ hspec => ?_)
  refine .bind_whole ht (declarator_settles ht) (fun u' h => h.imp fun _ h => hspec.decl h)
    fun d t₁ u' _ ht₁ _ hd => ?_
  exact .look local_last (.pure ht₁ (by simpa [Decl.render] using hspec.decl hd))
termination_by 3 * s.size + 1

theorem members_settles {lax : Bool} {s : Input} (hs : Lexed lax s.kinds) :
    Settles members (fun ds u _ => Phrase lax .members u (renderMembers ds))
      (Derives lax .members) s := by
  rw [members_eq]
  refine .look (local_stopsAt _) ?_
  split
  · exact .pure hs .noMember
  · have hclose {u : List Kind} (h : Derives lax .decl u) : ∃ k, Derives lax .members (u ++ k) :=
      ⟨[.mark .semicolon], h.imp fun _ h => h.oneMember .noMember⟩
    refine .bind hs (decl_settles hs) (fun u => hclose) fun d t u _ ht hk hd => ?_
    refine .mark ht (fun _ => hclose hd.derives) fun semi t₁ hk₁ ht₁ => ?_
    have hlt : t₁.size < s.size := by
      have h := Input.size_le_of_append hk
      have h₁ := Input.size_lt_of_cons hk₁
      omega
    refine .bind_whole ht₁ (members_settles ht₁) (fun u' h => h.imp fun _ h => hd.oneMember h)
      fun more t₂ u' _ ht₂ _ hmore => .pure ht₂ ?_
    simpa [renderMembers] using hd.oneMember hmore
termination_by 3 * s.size + 2

end

/-! ## Lists -/

/-- The elements of a list and the tokens that they were read from. -/
def ListRead (lax : Bool) (l : Listing) (linear : α → List Kind) : List α → List Kind → Prop
  | [], u => u = []
  | a :: as, u => Phrase lax (.elements l) u (listed ((a :: as).map linear))

theorem ListRead.phrase {lax : Bool} {l : Listing} {linear : α → List Kind} {as : List α}
    {u : List Kind} (h : ListRead lax l linear as u) :
    Phrase lax (.list l) u (listed (as.map linear)) := by
  cases as with
  | nil =>
    obtain rfl : u = [] := h
    exact .noElement
  | cons a as => exact .elements h

theorem Phrase.shortest_element (lax : Bool) (l : Listing) : ∃ w v, Phrase lax l.element w v := by
  cases l with
  | params => exact ⟨_, _, .shortest_decl⟩
  | args => exact ⟨_, _, .shortest_expr⟩

/-- After a comma, a list goes on; if nothing follows, one more element will do. -/
theorem Derives.more {lax : Bool} {l : Listing} {u v w : List Kind}
    (hu : Phrase lax l.element u v) (hw : Derives lax (.list l) w) :
    ∃ k, Derives lax (.list l) (u ++ .mark .comma :: (w ++ k)) := by
  obtain ⟨v', hw⟩ := hw
  cases hw with
  | noElement =>
    obtain ⟨w, v', h⟩ := Phrase.shortest_element lax l
    exact ⟨w, _, (hu.more h.single).elements⟩
  | elements h => exact ⟨[], by simpa using (hu.more h).elements.derives⟩

section

variable {lax : Bool} {l : Listing} {linear : α → List Kind} {element : Reader α}
  {list : Reader (List α)} {s : Input}

/-- What is known after a list: it can be completed, and is complete at a closing parenthesis. -/
def ListSettled (lax : Bool) (l : Listing) (linear : α → List Kind) (as : List α)
    (u : List Kind) (c : Kind) : Prop :=
  (∃ v, Derives lax (.list l) (u ++ v)) ∧ (c = .mark .rightParen → ListRead lax l linear as u)

theorem commaList_settles (hs : Lexed lax s.kinds)
    (he : Settles element (fun a u _ => Phrase lax l.element u (linear a))
      (Derives lax l.element) s)
    (hl : ∀ t : Input, t.size < s.size → Lexed lax t.kinds →
      Settles list (ListSettled lax l linear) (Derives lax (.list l)) t) :
    Settles (commaList element list) (ListSettled lax l linear) (Derives lax (.list l)) s := by
  refine .look (local_stopsAt _) ?_
  split
  · exact .pure hs ⟨⟨[], _, .noElement⟩, fun _ => rfl⟩
  · refine .bind_whole hs he (fun u h => h.imp fun _ h => h.single.elements)
      fun first t u _ ht hk hfirst => ?_
    refine .mark? ht (fun comma t₁ hk₁ ht₁ => ?_) fun _ => .pure ht ⟨⟨[], ?_⟩, fun _ => ?_⟩
    · have hlt : t₁.size < s.size := by
        have h := Input.size_le_of_append hk
        have h₁ := Input.size_lt_of_cons hk₁
        omega
      refine .bind ht₁ (hl t₁ hlt ht₁) (fun w h => h.more hfirst)
        fun rest t₂ u' _ ht₂ hk₂ hrest => ?_
      refine .pure ht₂ ⟨?_, fun hc => ?_⟩
      · obtain ⟨⟨v, h⟩, -⟩ := hrest
        obtain ⟨v', h'⟩ := h.more hfirst
        exact ⟨v ++ v', by simpa using h'⟩
      · cases rest with
        | nil =>
          obtain rfl : u' = [] := hrest.2 hc
          -- the parenthesis comes right after the comma
          obtain ⟨tok, w, hw, -, hkind⟩ := Settles.exists_eq_cons ht₂
          have hcomma : t.kinds = .mark .comma :: .mark .rightParen :: w.map (·.kind) := by
            rw [hk₁, hk₂, ← hc, hkind, Input.kinds, hw]
            rfl
          have hlax : lax = true := by
            by_contra hlax
            refine ht.strict (by simpa using hlax) ⟨[], w.map (·.kind), ?_⟩
            rw [hcomma]
            rfl
          exact .closingComma hlax hfirst
        | cons a as =>
          rw [List.append_nil]
          exact hfirst.more (hrest.2 hc)
    · simpa using hfirst.single.elements.derives
    · simpa [ListRead, listed] using hfirst.single

end

/-! ## Expressions -/

theorem eq_mark_of_binOp? {c : Kind} {op : BinOp} (h : c.binOp? = some op) :
    c = .mark op.mark := by
  unfold Kind.binOp? at h
  split at h
  · unfold BinOp.ofMark? at h
    split at h <;> cases h <;> rfl
  · cases h

theorem eq_mark_of_unOp? {c : Kind} {op : UnOp} (h : c.unOp? = some op) : c = .mark op.mark := by
  unfold Kind.unOp? at h
  split at h
  · unfold UnOp.ofMark? at h
    split at h <;> cases h <;> rfl
  · cases h

/-- The mark that starts a trailer. -/
def Trailer.mark : Trailer → Mark
  | .call => .leftParen
  | .index => .leftBracket
  | .member arrow => if arrow then .arrow else .dot

theorem eq_mark_of_trailer? {c : Kind} {trailer : Trailer} (h : c.trailer? = some trailer) :
    c = .mark trailer.mark := by
  unfold Kind.trailer? at h
  split at h <;> cases h <;> rfl

/-- The level of the left operands of an operator. -/
def BinOp.leftLevel (op : BinOp) : Nat := if op = .assign then 1 else op.precedence - 1

theorem BinOp.leftLevel_le (op : BinOp) : op.leftLevel ≤ 11 := by
  cases op <;> decide

/-- What an operator makes of its operands. -/
theorem Phrase.joined {lax : Bool} {w v w' v' : List Kind} (op : BinOp)
    (hl : Phrase lax (.level op.leftLevel) w v)
    (hr : Phrase lax (.level (op.rightBinding - 1)) w' v') :
    Phrase lax (.level (op.precedence - 1)) (w ++ .mark op.mark :: w')
      (v ++ .mark op.mark :: v') := by
  by_cases h : op = .assign
  · subst h
    exact .assign hl hr
  · have hpos : 0 < op.precedence := by cases op <;> decide
    rw [BinOp.leftLevel, if_neg h] at hl
    rw [BinOp.rightBinding, if_neg h, Nat.add_sub_cancel, ← Nat.sub_add_cancel hpos] at hr
    exact .binary (mark_mem_levelMarks h) hl hr

/-- An operator after an operator and its right operand takes what they make as its left operand. -/
theorem BinOp.leftLevel_le_of_lt {op op' : BinOp} (h : op'.precedence < op.rightBinding) :
    op'.leftLevel ≤ op.precedence - 1 := by
  cases op' <;> revert h <;> cases op <;> decide

/-- The expression was read as far as its operators are at least of the precedence `least`. -/
def ExprSettled (lax : Bool) (least : Nat) (w : List Kind) (e : Expr) (u : List Kind) (c : Kind) :
    Prop :=
  Phrase lax (.level (least - 1)) (w ++ u) e.linear ∧
    ∀ op, c.binOp? = some op → op.precedence < least

mutual

theorem expr_settles {lax : Bool} {s : Input} (least : Nat) (hleast : least ≤ 12)
    (hs : Lexed lax s.kinds) :
    Settles (expr least) (ExprSettled lax least []) (Derives lax (.level (least - 1))) s := by
  rw [expr_eq]
  refine .bind_whole hs (operand_settles hs) (fun u h => h.imp fun _ h => h.operand (by omega))
    fun left t u hrun ht _ hleft => ?_
  have hlt : t.size < s.size := Reading.size_lt hrun
  exact operators_settles least (hleft.operand (Nat.le_refl 11)) (by omega)
    (fun op _ _ => op.leftLevel_le) ht
termination_by 6 * s.size + 3

/-- The operators after an expression with the tokens `w`, which can be the left operand of the next
one. -/
theorem operators_settles {lax : Bool} {s : Input} {n : Nat} {w : List Kind} {left : Expr}
    (least : Nat) (hleft : Phrase lax (.level n) w left.linear) (hn : least - 1 ≤ n)
    (hnext : ∀ op, s.kind.binOp? = some op → least ≤ op.precedence → op.leftLevel ≤ n)
    (hs : Lexed lax s.kinds) :
    Settles (operators least left) (ExprSettled lax least w)
      (fun u => Derives lax (.level (least - 1)) (w ++ u)) s := by
  rw [operators_eq]
  refine .kind? hs rfl (fun c op t hc _ hk ht => ?_) fun hnone => .pure hs ⟨?_, fun op hop => ?_⟩
  · obtain ⟨hop, hle⟩ := Option.filter_eq_some_iff.1 hc
    obtain rfl := eq_mark_of_binOp? hop
    have hle : least ≤ op.precedence := by simpa using hle
    have hjoin {u v : List Kind} (h : Phrase lax (.level (op.rightBinding - 1)) u v) :
        Phrase lax (.level (op.precedence - 1)) (w ++ .mark op.mark :: u)
          (left.linear ++ .mark op.mark :: v) := by
      refine Phrase.joined op (hleft.lower (hnext op ?_ hle)) h
      rw [Input.kind_of_kinds hk]
      exact hop
    have hbinding : op.rightBinding ≤ 12 := by cases op <;> decide
    have hlt := Input.size_lt_of_cons hk
    refine .bind_whole ht (expr_settles _ hbinding ht)
      (fun u h => h.imp fun _ h => (hjoin h).lower (by omega))
      fun right t₁ u hrun ht₁ _ hright => ?_
    have hlt₁ : t₁.size < t.size := Reading.size_lt hrun
    have hjoined : Phrase lax (.level (op.precedence - 1)) (w ++ .mark op.mark :: u)
        (Expr.binary op left right (left.span.join right.span)).linear := by
      simpa [Expr.linear] using hjoin hright.1
    refine .mono (operators_settles least hjoined (by omega)
      (fun op' hop' _ => BinOp.leftLevel_le_of_lt (hright.2 op' hop')) ht₁)
      (fun e u' c h => ?_) fun u' h => ?_
    · simpa [ExprSettled] using h
    · simpa using h
  · simpa using hleft.lower hn
  · have hweak := Option.filter_eq_none_iff.1 hnone op hop
    simpa using hweak
termination_by 6 * s.size + 4

theorem operand_settles {lax : Bool} {s : Input} (hs : Lexed lax s.kinds) :
    Settles operand (fun e u _ => Phrase lax .unary u e.linear) (Derives lax .unary) s := by
  rw [operand_eq]
  refine .kind? hs rfl (fun c op t hop _ hk ht => ?_) fun _ => ?_
  · obtain rfl := eq_mark_of_unOp? hop
    have hlt := Input.size_lt_of_cons hk
    have hunary {u v : List Kind} (h : Phrase lax .unary u v) :
        Phrase lax .unary (.mark op.mark :: u) (.mark op.mark :: v) :=
      .unary (mark_mem_unaryMarks op) h
    refine .look local_last (.bind_whole ht (operand_settles ht)
      (fun u h => h.imp fun _ h => hunary h) fun e t₁ u _ ht₁ _ he => ?_)
    exact .pure ht₁ (by simpa [Expr.linear] using hunary he)
  · refine .bind_whole hs (primary_settles hs) (fun u h => h.imp fun _ h => h.primary.trailed)
      fun base t u hrun ht _ hbase => ?_
    have hlt : t.size < s.size := Reading.size_lt hrun
    exact .mono (trailers_settles hbase.primary ht) (fun e u' _ h => h.trailed)
      fun u' h => h.imp fun _ h => h.trailed
termination_by 6 * s.size + 2

theorem primary_settles {lax : Bool} {s : Input} (hs : Lexed lax s.kinds) :
    Settles primary (fun e u _ => Phrase lax .primary u e.linear) (Derives lax .primary) s := by
  rw [primary_eq]
  refine .kind? hs rfl (fun c value t hc hproper _ ht => .look local_last (.pure ht ?_)) fun _ =>
    .ident? hs (fun id t hid _ ht => .pure ht ?_) fun _ =>
    .mark? hs (fun left t hk ht => ?_) fun _ => .fault hs ⟨_, _, .name isName_x⟩ _
  · unfold Kind.literal? at hc
    split at hc <;> cases hc
    · exact .integer hproper
    · exact .character
    · exact .string
  · simpa [Expr.linear] using Phrase.name hid
  · have hlt := Input.size_lt_of_cons hk
    refine .bind ht (expr_settles 0 (by omega) ht)
      (fun u h => ⟨[.mark .rightParen], h.imp fun _ h => .paren h⟩) fun e t₁ u _ ht₁ _ he => ?_
    refine .mark ht₁ (fun _ => ⟨[.mark .rightParen], _, Phrase.paren he.1⟩)
      fun right t₂ _ ht₂ => .pure ht₂ ?_
    exact Phrase.paren he.1
termination_by 6 * s.size + 1

/-- The trailers after an expression with the tokens `w`. -/
theorem trailers_settles {lax : Bool} {s : Input} {w : List Kind} {base : Expr}
    (hbase : Phrase lax .trailed w base.linear) (hs : Lexed lax s.kinds) :
    Settles (trailers base) (fun e u _ => Phrase lax .trailed (w ++ u) e.linear)
      (fun u => Derives lax .trailed (w ++ u)) s := by
  rw [trailers_eq]
  refine .kind? hs rfl (fun c trailer t hc _ hk ht => ?_) fun _ => .pure hs (by simpa using hbase)
  have hlt := Input.size_lt_of_cons hk
  obtain rfl := eq_mark_of_trailer? hc
  cases trailer with
  | call =>
    have hclose {u : List Kind} (h : Derives lax (.list .args) u) :
        ∃ k, Derives lax .trailed (w ++ .mark .leftParen :: (u ++ k)) :=
      ⟨[.mark .rightParen], h.imp fun _ h => hbase.call h⟩
    refine .bind ht (args_settles ht) (fun u => hclose)
      fun values t₁ u _ ht₁ hk₁ hvalues => ?_
    refine .mark ht₁ (fun _ => ?_) fun right t₂ hk₂ ht₂ => ?_
    · obtain ⟨⟨k, h⟩, -⟩ := hvalues
      obtain ⟨k', h'⟩ := hclose h
      exact ⟨k ++ k', by simpa [Trailer.mark] using h'⟩
    · have hlist := (hvalues.2 (Input.kind_of_kinds hk₂)).phrase
      have hcall : Phrase lax .trailed (w ++ parens u)
          (Expr.call base values (base.span.join right)).linear := by
        rw [Expr.linear, linearExprs_eq]
        exact hbase.call hlist
      have hlt₂ : t₂.size < t.size := by
        have h₁ := Input.size_le_of_append hk₁
        have h₂ := Input.size_lt_of_cons hk₂
        omega
      simpa [enclosed, Trailer.mark] using trailers_settles hcall ht₂
  | index =>
    have hclose {u : List Kind} (h : Derives lax .expr u) :
        ∃ k, Derives lax .trailed (w ++ .mark .leftBracket :: (u ++ k)) :=
      ⟨[.mark .rightBracket], h.imp fun _ h => hbase.index h⟩
    refine .bind ht (expr_settles 0 (by omega) ht) (fun u => hclose)
      fun offset t₁ u _ ht₁ hk₁ hoffset => ?_
    refine .mark ht₁ (fun _ => hclose hoffset.1.derives) fun right t₂ hk₂ ht₂ => ?_
    have hindex : Phrase lax .trailed (w ++ brackets u)
        (Expr.index base offset (base.span.join right)).linear := by
      rw [Expr.linear]
      exact hbase.index hoffset.1
    have hlt₂ : t₂.size < t.size := by
      have h₁ := Input.size_le_of_append hk₁
      have h₂ := Input.size_lt_of_cons hk₂
      omega
    simpa [enclosed, Trailer.mark] using trailers_settles hindex ht₂
  | member arrow =>
    have hmark : Trailer.mark (.member arrow) = .dot ∨ Trailer.mark (.member arrow) = .arrow := by
      cases arrow
      · exact .inl rfl
      · exact .inr rfl
    refine .ident ht ⟨[.ident "x"], _, hbase.member hmark isName_x⟩
      fun field t₁ hfield hk₁ ht₁ => ?_
    have hmember : Phrase lax .trailed
        (w ++ [.mark (Trailer.mark (.member arrow)), .ident field.name])
        (Expr.member base field arrow (base.span.join field.span)).linear := by
      rw [Expr.linear]
      exact hbase.member hmark hfield
    have hlt₁ := Input.size_lt_of_cons hk₁
    simpa using trailers_settles hmember ht₁
termination_by 6 * s.size

theorem args_settles {lax : Bool} {s : Input} (hs : Lexed lax s.kinds) :
    Settles args (ListSettled lax .args Expr.linear) (Derives lax (.list .args)) s := by
  rw [args_eq]
  refine commaList_settles hs ?_ fun t hlt ht => args_settles ht
  exact .mono (expr_settles 0 (by omega) hs) (fun e u _ h => h.1) fun u h => h
termination_by 6 * s.size + 5

end

end MiniC
