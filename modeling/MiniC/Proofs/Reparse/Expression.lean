import MiniC.Proofs.Reparse.Basic
import MiniC.Syntax.Expression

/-!
# Reading rendered expressions

An expression reads back from its tokens if what follows closes it, that is, is neither an operator
nor a trailer (`Closes`). Operands stand in parentheses, so each constructor is read by one turn of
one loop, and its lemma needs no more than that its operands read back.
-/

namespace MiniC

/-- An expression starts here. -/
def Kind.beginsExpr : Kind → Bool
  | .ident _ | .integer _ | .character _ | .string _ => true
  | .mark m => m = .leftParen || (UnOp.ofMark? m).isSome
  | .keyword _ | .unknown _ | .eof => false

theorem Expr.render_eq_cons (e : Expr) : ∃ c r, e.render = c :: r ∧ c.beginsExpr = true := by
  cases e with
  | literal value _ => exact ⟨value.kind, [], by rw [render], by cases value <;> rfl⟩
  | name id => exact ⟨_, _, by rw [render], rfl⟩
  | unary op operand _ => exact ⟨_, _, by rw [render], by cases op <;> rfl⟩
  | binary _ _ _ _ | call _ _ _ | index _ _ _ | member _ _ _ _ =>
    exact ⟨_, _, by rw [render, enclosed_append], rfl⟩

/-- No expression goes on with what comes next. -/
def Closes (k : List Kind) : Prop := ∀ c ∈ k.head?, c.trailer? = none ∧ c.binOp? = none

theorem closes_cons {c : Kind} {k : List Kind} :
    Closes (c :: k) ↔ c.trailer? = none ∧ c.binOp? = none := by
  simp [Closes]

theorem Closes.trailer {k : List Kind} (h : Closes k) : ∀ c ∈ k.head?, c.trailer? = none :=
  fun c hc => (h c hc).1

theorem Closes.binOp {k : List Kind} (h : Closes k) : ∀ c ∈ k.head?, c.binOp? = none :=
  fun c hc => (h c hc).2

/-- Tokens that start with the expression, and then close it, are read as the expression. -/
def Expr.Restored (e : Expr) : Prop :=
  ∀ (s : Input) (k : List Kind), s.kinds = e.render ++ k → Closes k →
    Gives (Input.readExpr 0 s) (·.erase = e.erase) k

namespace Input

variable {s : Input} {k k' : List Kind} {P Q : Expr → Prop}

theorem readPrimary_parens {e : Expr} (he : e.Restored) (h : s.kinds = parens e.render ++ k) :
    Gives s.readPrimary (·.erase = e.erase) k := by
  rw [enclosed_append] at h
  have hlit : s.accept? Kind.literal? = none := accept?_of_none (by simp [h, Kind.literal?])
  have hid : s.ident? = none := ident?_of_head (by simp [h])
  obtain ⟨left, hleft, hk⟩ := mark?_of_kinds h
  rw [readPrimary, hlit, hid, hleft]
  refine (he _ _ hk (closes_cons.2 ⟨rfl, rfl⟩)).bind fun e' herase hk => ?_
  exact (readMark_gives hk).bind fun right _ hk => .ok herase hk

theorem readTrailers_stop {base : Expr} (hbase : P base) (h : s.kinds = k)
    (hk : ∀ c ∈ k.head?, c.trailer? = none) : Gives (readTrailers base s) P k := by
  rw [readTrailers, accept?_of_none (h ▸ hk)]
  exact .ok hbase h

/-- A primary expression and whatever its trailers make of it. -/
theorem readOperand_primary (hun : ∀ c ∈ s.kinds.head?, c.unOp? = none)
    (hprim : Gives s.readPrimary P k)
    (htrail : ∀ base t, P base → t.kinds = k → Gives (readTrailers base t) Q k') :
    Gives s.readOperand Q k' := by
  rw [readOperand, accept?_of_none hun]
  refine hprim.bind fun base hbase hk => ?_
  exact (htrail _ _ hbase hk).bind fun e he hk => .ok he hk

theorem readOperand_simple (hun : ∀ c ∈ s.kinds.head?, c.unOp? = none)
    (hprim : Gives s.readPrimary P k) (hk : ∀ c ∈ k.head?, c.trailer? = none) :
    Gives s.readOperand P k :=
  readOperand_primary hun hprim fun _ _ hbase ht => readTrailers_stop hbase ht hk

theorem readOperand_parens {e : Expr} (he : e.Restored) (h : s.kinds = parens e.render ++ k)
    (hk : ∀ c ∈ k.head?, c.trailer? = none) : Gives s.readOperand (·.erase = e.erase) k :=
  readOperand_simple (by simp [h, Kind.unOp?, UnOp.ofMark?]) (readPrimary_parens he h) hk

theorem readOperators_stop {left : Expr} (hleft : P left) (h : s.kinds = k)
    (hk : ∀ c ∈ k.head?, c.binOp? = none) (least : Nat) :
    Gives (readOperators least left s) P k := by
  rw [readOperators, accept?_of_none (h ▸ hk)]
  exact .ok hleft h

/-- An operand that no operator follows. -/
theorem readExpr_operand (least : Nat) (hop : Gives s.readOperand P k)
    (hk : ∀ c ∈ k.head?, c.binOp? = none) : Gives (readExpr least s) P k := by
  rw [readExpr]
  refine hop.bind fun left hleft hrest => ?_
  exact (readOperators_stop hleft hrest hk least).bind fun e he hrest => .ok he hrest

/-- The arguments of a call are read up to the closing parenthesis. -/
def ArgsRestored (args : List Expr) : Prop :=
  ∀ (s : Input) (k : List Kind),
    s.kinds = listed (renderExprs args) ++ .mark .rightParen :: k →
      Gives s.readArgs (eraseExprs · = eraseExprs args) (.mark .rightParen :: k)

theorem stopsAt_of_beginsExpr {c : Kind} (h : s.kinds = c :: k) (hc : c.beginsExpr = true) :
    s.stopsAt .rightParen = false := by
  rw [stopsAt, kind_of_kinds h]
  cases c with
  | mark m => cases m <;> first | rfl | cases hc
  | keyword _ | unknown _ | eof => cases hc
  | ident _ | integer _ | character _ | string _ => rfl

theorem argsRestored_nil : ArgsRestored [] := by
  intro s k h
  rw [readArgs, if_pos (stopsAt_of_kinds h)]
  exact .ok rfl h

theorem argsRestored_singleton {e : Expr} (he : e.Restored) : ArgsRestored [e] := by
  intro s k h
  obtain ⟨c, r, hr, hc⟩ := e.render_eq_cons
  have h : s.kinds = e.render ++ .mark .rightParen :: k := h
  have hstop := stopsAt_of_beginsExpr (h.trans (by rw [hr, List.cons_append])) hc
  rw [readArgs, if_neg (by simp [hstop])]
  refine (he s _ h (closes_cons.2 ⟨rfl, rfl⟩)).bind fun arg harg hrest => ?_
  rw [mark?_of_head (by simp [hrest])]
  refine .ok ?_ hrest
  simp [Parsed.value_loosen, Parsed.value_give, relabelExprs, harg]

theorem argsRestored_cons {e e' : Expr} {more : List Expr} (he : e.Restored)
    (hmore : ArgsRestored (e' :: more)) : ArgsRestored (e :: e' :: more) := by
  intro s k h
  obtain ⟨c, r, hr, hc⟩ := e.render_eq_cons
  have h : s.kinds = e.render ++ .mark .comma ::
      (listed (renderExprs (e' :: more)) ++ .mark .rightParen :: k) := by
    simpa [renderExprs, listed] using h
  have hstop := stopsAt_of_beginsExpr (h.trans (by rw [hr, List.cons_append])) hc
  rw [readArgs, if_neg (by simp [hstop])]
  refine (he s _ h (closes_cons.2 ⟨rfl, rfl⟩)).bind fun arg harg hrest => ?_
  obtain ⟨comma, hcomma, hrest⟩ := mark?_of_kinds hrest
  simp only [hcomma]
  refine (hmore _ _ hrest).bind fun more' hmore hrest => .ok ?_ hrest
  calc eraseExprs (arg.value :: more'.value)
      = arg.value.erase :: eraseExprs more'.value := rfl
    _ = e.erase :: eraseExprs (e' :: more) := by rw [harg, hmore]
    _ = eraseExprs (e :: e' :: more) := rfl

/-! ### One constructor at a time -/

theorem trailer?_mark (op : BinOp) : (Kind.mark op.mark).trailer? = none := by
  cases op <;> rfl

theorem binOp?_mark (op : BinOp) : (Kind.mark op.mark).binOp? = some op := by
  cases op <;> rfl

theorem unOp?_mark (op : UnOp) : (Kind.mark op.mark).unOp? = some op := by
  cases op <;> rfl

theorem literal?_kind (value : Literal) : value.kind.literal? = some value := by
  cases value <;> rfl

theorem restored_literal (value : Literal) (span : Span) : (Expr.literal value span).Restored := by
  intro s k h hk
  have hun : ∀ c ∈ s.kinds.head?, c.unOp? = none := by
    cases value <;> simp [h, Expr.render, Literal.kind, Kind.unOp?]
  obtain ⟨literal, hliteral, hvalue, hrest⟩ := accept?_of_some h (literal?_kind value)
  refine readExpr_operand 0 (readOperand_simple hun ?_ hk.trailer) hk.binOp
  rw [readPrimary, hliteral]
  refine .ok ?_ hrest
  simp [Parsed.value_give, Expr.relabel, hvalue]

theorem restored_name (id : Ident) : (Expr.name id).Restored := by
  intro s k h hk
  have hun : ∀ c ∈ s.kinds.head?, c.unOp? = none := by simp [h, Expr.render, Kind.unOp?]
  have hliteral : s.accept? Kind.literal? = none :=
    accept?_of_none (by simp [h, Expr.render, Kind.literal?])
  obtain ⟨id', hid, hname, hrest⟩ := ident?_of_kinds h
  refine readExpr_operand 0 (readOperand_simple hun ?_ hk.trailer) hk.binOp
  rw [readPrimary, hliteral, hid]
  refine .ok ?_ hrest
  simp [Parsed.value_give, Expr.relabel, Ident.erase_eq hname]

theorem restored_unary (op : UnOp) {e : Expr} (he : e.Restored) (span : Span) :
    (Expr.unary op e span).Restored := by
  intro s k h hk
  rw [Expr.render, List.cons_append] at h
  obtain ⟨op', hop, hvalue, hrest⟩ := accept?_of_some h (unOp?_mark op)
  refine readExpr_operand 0 ?_ hk.binOp
  rw [readOperand, hop]
  refine (readOperand_parens he hrest hk.trailer).bind fun e' herase hrest => ?_
  refine .ok ?_ hrest
  simp [Parsed.value_chain, Parsed.value_give, Expr.relabel, hvalue, herase]

theorem restored_binary (op : BinOp) {left right : Expr} (hl : left.Restored)
    (hr : right.Restored) (span : Span) : (Expr.binary op left right span).Restored := by
  intro s k h hk
  rw [Expr.render, List.append_assoc, List.cons_append] at h
  have htrailer : ∀ c ∈ (Kind.mark op.mark :: (parens right.render ++ k)).head?,
      c.trailer? = none := by
    simp [trailer?_mark]
  rw [readExpr]
  refine (readOperand_parens hl h htrailer).bind fun left' hleft hrest => ?_
  obtain ⟨op', hop, hvalue, hrest⟩ := accept?_of_some hrest (binOp?_mark op)
  have hright := readExpr_operand op'.value.rightBinding
    (readOperand_parens hr hrest hk.trailer) hk.binOp
  refine Gives.bind (P := (·.erase = (Expr.binary op left right span).erase)) ?_
    fun e he hrest => .ok he hrest
  -- no precedence is below 0, so the loop takes the operator whichever it is
  rw [readOperators, hop]
  simp only [Nat.not_lt_zero, if_false]
  refine hright.bind fun right' herase hrest => ?_
  refine (readOperators_stop (P := (·.erase = (Expr.binary op left right span).erase)) ?_ hrest
    hk.binOp 0).bind fun e he hrest => .ok he hrest
  simp [Expr.relabel, hvalue, hleft, herase]

/-- A parenthesised base and one trailer after it. -/
theorem readExpr_trailer {e : Expr} (he : e.Restored) {c : Kind}
    (h : s.kinds = parens e.render ++ c :: k) (hk : ∀ c ∈ k'.head?, c.binOp? = none)
    (htrail : ∀ base t, base.erase = e.erase → t.kinds = c :: k →
      Gives (readTrailers base t) Q k') :
    Gives (readExpr 0 s) Q k' :=
  readExpr_operand 0 (readOperand_primary (by simp [h, Kind.unOp?, UnOp.ofMark?])
    (readPrimary_parens he h) htrail) hk

theorem restored_call {callee : Expr} {args : List Expr} (hcallee : callee.Restored)
    (hargs : ArgsRestored args) (span : Span) : (Expr.call callee args span).Restored := by
  intro s k h hk
  rw [Expr.render, List.append_assoc, enclosed_append .leftParen .rightParen (listed _)] at h
  refine readExpr_trailer hcallee h hk.binOp fun base t hbase ht => ?_
  obtain ⟨left, hleft, hvalue, hrest⟩ := accept?_of_some ht (f := Kind.trailer?) rfl
  rw [readTrailers, hleft]
  simp only [hvalue]
  refine (hargs _ _ hrest).bind fun args' hargs hrest => ?_
  refine (readMark_gives hrest).bind fun right _ hrest => ?_
  refine (readTrailers_stop (P := (·.erase = (Expr.call callee args span).erase)) ?_ hrest
    hk.trailer).bind fun e he hrest => .ok he hrest
  simp [Expr.relabel, hbase, hargs]

theorem restored_index {base offset : Expr} (hbase : base.Restored) (hoffset : offset.Restored)
    (span : Span) : (Expr.index base offset span).Restored := by
  intro s k h hk
  rw [Expr.render, List.append_assoc, enclosed_append .leftBracket] at h
  refine readExpr_trailer hbase h hk.binOp fun base' t hbase ht => ?_
  obtain ⟨left, hleft, hvalue, hrest⟩ := accept?_of_some ht (f := Kind.trailer?) rfl
  rw [readTrailers, hleft]
  simp only [hvalue]
  refine (hoffset _ _ hrest (closes_cons.2 ⟨rfl, rfl⟩)).bind fun offset' hoffset hrest => ?_
  refine (readMark_gives hrest).bind fun right _ hrest => ?_
  refine (readTrailers_stop (P := (·.erase = (Expr.index base offset span).erase)) ?_ hrest
    hk.trailer).bind fun e he hrest => .ok he hrest
  simp [Expr.relabel, hbase, hoffset]

theorem restored_member {base : Expr} (hbase : base.Restored) (field : Ident) (arrow : Bool)
    (span : Span) : (Expr.member base field arrow span).Restored := by
  intro s k h hk
  rw [Expr.render, List.append_assoc] at h
  have hmember : (Kind.mark (if arrow then .arrow else .dot)).trailer? = some (.member arrow) := by
    cases arrow <;> rfl
  refine readExpr_trailer hbase h hk.binOp fun base' t hbase ht => ?_
  obtain ⟨left, hleft, hvalue, hrest⟩ := accept?_of_some ht hmember
  rw [readTrailers, hleft]
  simp only [hvalue]
  refine (readIdent_gives hrest).bind fun field' hfield hrest => ?_
  refine (readTrailers_stop (P := (·.erase = (Expr.member base field arrow span).erase)) ?_ hrest
    hk.trailer).bind fun e he hrest => .ok he hrest
  simp [Expr.relabel, hbase, Ident.erase_eq hfield]

end Input

mutual

theorem Expr.restored : (e : Expr) → e.Restored
  | .literal value span => Input.restored_literal value span
  | .name id => Input.restored_name id
  | .binary op left right span => Input.restored_binary op left.restored right.restored span
  | .unary op operand span => Input.restored_unary op operand.restored span
  | .call callee args span => Input.restored_call callee.restored (argsRestored args) span
  | .index base offset span => Input.restored_index base.restored offset.restored span
  | .member base field arrow span => Input.restored_member base.restored field arrow span

theorem argsRestored : (args : List Expr) → Input.ArgsRestored args
  | [] => Input.argsRestored_nil
  | [e] => Input.argsRestored_singleton e.restored
  | e :: e' :: more => Input.argsRestored_cons e.restored (argsRestored (e' :: more))

end

end MiniC
