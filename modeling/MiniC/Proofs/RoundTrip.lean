import MiniC.Proofs.Reparse.Program
import MiniC.Proofs.Words

/-!
# Reading and rendering

What is read from a source is canonical, and canonical trees read back from their tokens, so the two
are inverse up to spans (`parse_inverts_render`). `Yields r Q` says what holds of a reading if it
succeeds: its value and the input after it have `Q`, and the words left to read are still words of
the language. The readers call each other on shorter inputs, and the lemmas about them do so by the
same measures. Of a statement that is still open for an `else`, they keep that none comes next.
-/

namespace MiniC

/-! ## What is read, if it is read -/

/-- The words among the tokens that are left are words of the language. -/
def Input.Proper (s : Input) : Prop := ∀ c ∈ s.kinds, c.Proper

/-- If the reading succeeds, its value and the input after it have `Q`. -/
def Yields (r : Reading α n) (Q : α → Input → Prop) : Prop :=
  ∀ p, r = .ok p → Q p.value p.input ∧ p.input.Proper

namespace Yields

variable {α β : Type} {n m : Nat} {P : α → Input → Prop} {Q : β → Input → Prop}

protected theorem ok {p : Parsed α n} (hv : P p.value p.input) (hp : p.input.Proper) :
    Yields (.ok p) P := by
  rintro _ ⟨⟩
  exact ⟨hv, hp⟩

protected theorem error {e : SyntaxError} : Yields (.error e : Reading α n) P :=
  fun _ h => by cases h

protected theorem bind {r : Reading α n} {f : Parsed α n → Reading β m} (hr : Yields r P)
    (hf : ∀ p, P p.value p.input → p.input.Proper → Yields (f p) Q) : Yields (r >>= f) Q := by
  intro q hq
  cases r with
  | error e => cases hq
  | ok p =>
    obtain ⟨hv, hp⟩ := hr p rfl
    exact hf p hv hp q hq

end Yields

namespace Input

section

variable {s : Input} (hs : s.Proper)

include hs

theorem accept?_proper {α : Type} {f : Kind → Option α} {p : Parsed α s.size}
    (h : s.accept? f = some p) : p.input.Proper ∧ ∃ c, c.Proper ∧ f c = some p.value := by
  obtain ⟨c, hf, hkinds⟩ := accept?_eq_some h
  have hall : ∀ c' ∈ c :: p.input.kinds, c'.Proper := hkinds ▸ hs
  exact ⟨fun c' hc' => hall c' (List.mem_cons_of_mem _ hc'), c, hall c List.mem_cons_self, hf⟩

theorem ident?_proper {p : Parsed Ident s.size} (h : s.ident? = some p) :
    p.input.Proper ∧ isName p.value.name = true := by
  obtain ⟨hp, c, hc, hf⟩ := accept?_proper hs h
  refine ⟨hp, ?_⟩
  split at hf
  · rw [← Option.some.inj hf]
    exact hc
  · cases hf

theorem readMark_yields (m : Mark) : Yields (s.readMark m) fun _ _ => True := by
  unfold readMark
  split
  · rename_i p hp
    exact .ok trivial (accept?_proper hs hp).1
  · exact .error

theorem readIdent_yields : Yields s.readIdent fun id _ => isName id.name = true := by
  unfold readIdent
  split
  · rename_i p hp
    exact .ok (ident?_proper hs hp).2 (ident?_proper hs hp).1
  · exact .error

theorem readInteger_yields : Yields s.readInteger fun text _ => isInteger text = true := by
  unfold readInteger
  split
  · rename_i p hp
    obtain ⟨hrest, c, hc, hf⟩ := accept?_proper hs hp
    refine .ok ?_ hrest
    split at hf
    · obtain rfl := Option.some.inj hf
      exact hc
    · cases hf
  · exact .error

end

/-! ## Declarations -/

theorem isBound_of_isInteger {text : String} (h : isInteger text = true) : isBound text = true := by
  unfold isBound
  split
  · rename_i htext
    rw [isInteger, htext] at h
    exact absurd h (by simp)
  · exact h

theorem isBound_minus {text : String} (h : isInteger text = true) :
    isBound ("-" ++ text) = true := by
  have htext : ("-" ++ text).toList = '-' :: text.toList := by simp
  unfold isBound
  rw [htext]
  change isInteger (String.ofList text.toList) = true
  rwa [String.ofList_toList]

theorem readBound_yields {s : Input} (hs : s.Proper) :
    Yields s.readBound fun size _ => isBound size.text = true := by
  unfold readBound
  split
  · rename_i minus hminus
    refine (readInteger_yields (accept?_proper hs hminus).1).bind fun digits hdigits hrest => ?_
    exact .ok (isBound_minus hdigits) hrest
  · refine (readInteger_yields hs).bind fun digits hdigits hrest => ?_
    exact .ok (isBound_of_isInteger hdigits) hrest

/-- Brackets come after a name, a parenthesis or other brackets, never after a bare pointer. -/
theorem readArrays_yields (start : Span) (inner : Declarator) (hinner : inner.Canonical)
    (hno : inner.isPointer = false) (s : Input) (hs : s.Proper) :
    Yields (readArrays start inner s) fun d _ => d.Canonical := by
  rw [readArrays]
  split
  · exact .ok hinner hs
  · rename_i left hleft
    refine (readBound_yields (accept?_proper hs hleft).1).bind fun size hsize hrest => ?_
    refine (readMark_yields hrest _).bind fun right _ hrest => ?_
    exact (readArrays_yields start (.array inner size.value _) ⟨hno, hinner, hsize⟩ rfl
      right.input hrest).bind fun d hd hrest => .ok hd hrest
termination_by s.size
decreasing_by grind

theorem readDeclarator_yields (s : Input) (hs : s.Proper) :
    Yields s.readDeclarator fun d _ => d.Canonical := by
  rw [readDeclarator]
  split
  · rename_i star hstar
    exact (readDeclarator_yields star.input (accept?_proper hs hstar).1).bind
      fun inner hinner hrest => .ok hinner hrest
  · split
    · rename_i id hid
      obtain ⟨hrest, hname⟩ := ident?_proper hs hid
      exact (readArrays_yields _ (.ident id.value) hname rfl id.input hrest).bind
        fun d hd hrest => .ok hd hrest
    · split
      · rename_i left hleft
        refine (readDeclarator_yields left.input (accept?_proper hs hleft).1).bind
          fun inner hinner hrest => ?_
        refine (readMark_yields hrest _).bind fun right _ hrest => ?_
        exact (readArrays_yields _ (.paren inner.value _) hinner rfl right.input hrest).bind
          fun d hd hrest => .ok hd hrest
      · exact .error
termination_by s.size
decreasing_by all_goals grind

mutual

theorem readSpecifier_yields (s : Input) (hs : s.Proper) :
    Yields s.readSpecifier fun spec _ => spec.Canonical := by
  rw [readSpecifier]
  split
  · rename_i int hint
    exact .ok trivial (accept?_proper hs hint).1
  · split
    · rename_i char hchar
      exact .ok trivial (accept?_proper hs hchar).1
    · split
      · exact .error
      · rename_i struct hstruct
        refine (readIdent_yields (accept?_proper hs hstruct).1).bind fun tag htag hrest => ?_
        split
        · exact .ok htag hrest
        · rename_i left hleft
          refine (readMembers_yields left.input (accept?_proper hrest hleft).1).bind
            fun members hmembers hrest => ?_
          exact (readMark_yields hrest _).bind fun right _ hrest => .ok ⟨htag, hmembers⟩ hrest
termination_by 3 * s.size
decreasing_by all_goals grind

theorem readDecl_yields (s : Input) (hs : s.Proper) :
    Yields s.readDecl fun decl _ => decl.Canonical := by
  rw [readDecl]
  refine (readSpecifier_yields s hs).bind fun spec hspec hrest => ?_
  refine (readDeclarator_yields spec.input hrest).bind fun d hd hrest => ?_
  exact .ok ⟨hspec, hd⟩ hrest
termination_by 3 * s.size + 1
decreasing_by all_goals grind

theorem readMembers_yields (s : Input) (hs : s.Proper) :
    Yields s.readMembers fun members _ => canonicalDecls members := by
  rw [readMembers]
  split
  · exact .ok trivial hs
  · refine (readDecl_yields s hs).bind fun decl hdecl hrest => ?_
    refine (readMark_yields hrest _).bind fun semi _ hrest => ?_
    refine (readMembers_yields semi.input hrest).bind fun more hmore hrest => ?_
    exact .ok ⟨hdecl, hmore⟩ hrest
termination_by 3 * s.size + 2
decreasing_by all_goals grind

end

/-! ## Expressions -/

theorem literal_proper {c : Kind} {value : Literal} (h : c.literal? = some value)
    (hc : c.Proper) : value.Canonical := by
  unfold Kind.literal? at h
  split at h <;> cases h
  · exact hc
  · exact trivial
  · exact trivial

mutual

theorem readExpr_yields (least : Nat) (s : Input) (hs : s.Proper) :
    Yields (readExpr least s) fun e _ => e.Canonical := by
  rw [readExpr]
  refine (readOperand_yields s hs).bind fun left hleft hrest => ?_
  exact (readOperators_yields least left.value left.input hleft hrest).bind
    fun e he hrest => .ok he hrest
termination_by 6 * s.size + 3
decreasing_by all_goals grind

theorem readOperators_yields (least : Nat) (left : Expr) (s : Input) (hleft : left.Canonical)
    (hs : s.Proper) : Yields (readOperators least left s) fun e _ => e.Canonical := by
  rw [readOperators]
  split
  · exact .ok hleft hs
  · rename_i op hop
    split
    · exact .ok hleft hs
    · refine (readExpr_yields _ op.input (accept?_proper hs hop).1).bind
        fun right hright hrest => ?_
      exact (readOperators_yields least (.binary op.value left right.value _) right.input
        ⟨hleft, hright⟩ hrest).bind fun e he hrest => .ok he hrest
termination_by 6 * s.size + 4
decreasing_by all_goals grind

theorem readOperand_yields (s : Input) (hs : s.Proper) :
    Yields s.readOperand fun e _ => e.Canonical := by
  rw [readOperand]
  split
  · rename_i op hop
    exact (readOperand_yields op.input (accept?_proper hs hop).1).bind
      fun e he hrest => .ok he hrest
  · refine (readPrimary_yields s hs).bind fun base hbase hrest => ?_
    exact (readTrailers_yields base.value base.input hbase hrest).bind
      fun e he hrest => .ok he hrest
termination_by 6 * s.size + 2
decreasing_by all_goals grind

theorem readPrimary_yields (s : Input) (hs : s.Proper) :
    Yields s.readPrimary fun e _ => e.Canonical := by
  rw [readPrimary]
  split
  · rename_i literal hliteral
    obtain ⟨hrest, c, hc, hf⟩ := accept?_proper hs hliteral
    exact .ok (literal_proper hf hc) hrest
  · split
    · rename_i id hid
      obtain ⟨hrest, hname⟩ := ident?_proper hs hid
      exact .ok hname hrest
    · split
      · rename_i left hleft
        refine (readExpr_yields 0 left.input (accept?_proper hs hleft).1).bind
          fun e he hrest => ?_
        exact (readMark_yields hrest _).bind fun right _ hrest => .ok he hrest
      · exact .error
termination_by 6 * s.size + 1
decreasing_by all_goals grind

theorem readTrailers_yields (base : Expr) (s : Input) (hbase : base.Canonical) (hs : s.Proper) :
    Yields (readTrailers base s) fun e _ => e.Canonical := by
  rw [readTrailers]
  split
  · exact .ok hbase hs
  · rename_i left hleft
    have hrest := (accept?_proper hs hleft).1
    split
    · refine (readArgs_yields left.input hrest).bind fun args hargs hrest => ?_
      refine (readMark_yields hrest _).bind fun right _ hrest => ?_
      exact (readTrailers_yields (.call base args.value _) right.input ⟨hbase, hargs⟩ hrest).bind
        fun e he hrest => .ok he hrest
    · refine (readExpr_yields 0 left.input hrest).bind fun offset hoffset hrest => ?_
      refine (readMark_yields hrest _).bind fun right _ hrest => ?_
      exact (readTrailers_yields (.index base offset.value _) right.input ⟨hbase, hoffset⟩
        hrest).bind fun e he hrest => .ok he hrest
    · refine (readIdent_yields hrest).bind fun field hfield hrest => ?_
      exact (readTrailers_yields (.member base field.value _ _) field.input ⟨hbase, hfield⟩
        hrest).bind fun e he hrest => .ok he hrest
termination_by 6 * s.size
decreasing_by all_goals grind

theorem readArgs_yields (s : Input) (hs : s.Proper) :
    Yields s.readArgs fun args _ => canonicalExprs args := by
  rw [readArgs]
  split
  · exact .ok trivial hs
  · refine (readExpr_yields 0 s hs).bind fun arg harg hrest => ?_
    split
    · exact .ok ⟨harg, trivial⟩ hrest
    · rename_i comma hcomma
      refine (readArgs_yields comma.input (accept?_proper hrest hcomma).1).bind
        fun more hmore hrest => ?_
      exact .ok ⟨harg, hmore⟩ hrest
termination_by 6 * s.size + 5
decreasing_by all_goals grind

end

/-! ## Statements -/

theorem head_ne_of_keyword? {s : Input} {w : Keyword} (h : s.keyword? w = none) :
    s.kinds.head? ≠ some (.keyword w) := by
  intro hw
  obtain ⟨k, hk⟩ := List.head?_eq_some_iff.1 hw
  have hnone := accept?_eq_none h hk
  simp at hnone

/-- The statement is canonical, and if it is open, no `else` comes next. -/
def StmtRead (stmt : Stmt) (s : Input) : Prop :=
  stmt.Canonical ∧ (stmt.endsOpen = true → s.kinds.head? ≠ some (.keyword .else_))

theorem StmtRead.of_closed {stmt : Stmt} {s : Input} (hc : stmt.Canonical)
    (hclosed : stmt.endsOpen = false) : StmtRead stmt s := by
  refine ⟨hc, fun hopen => ?_⟩
  rw [hclosed] at hopen
  cases hopen

theorem readCondition_yields (s : Input) (hs : s.Proper) :
    Yields s.readCondition fun cond _ => cond.Canonical := by
  refine (readMark_yields hs _).bind fun left _ hrest => ?_
  refine (readExpr_yields 0 left.input hrest).bind fun cond hcond hrest => ?_
  exact (readMark_yields hrest _).bind fun right _ hrest => .ok hcond hrest

theorem readExprSemi_yields (s : Input) (hs : s.Proper) :
    Yields s.readExprSemi fun value _ => value.1.Canonical := by
  refine (readExpr_yields 0 s hs).bind fun value hvalue hrest => ?_
  exact (readMark_yields hrest _).bind fun semi _ hrest => .ok hvalue hrest

theorem readVarDecl_yields (s : Input) (hs : s.Proper) : Yields s.readVarDecl StmtRead := by
  refine (readDecl_yields s hs).bind fun decl hdecl hrest => ?_
  split
  · rename_i assign hassign
    refine (readExprSemi_yields assign.input (accept?_proper hrest hassign).1).bind
      fun init hinit hrest => .ok (.of_closed ⟨hdecl, ?_⟩ rfl) hrest
    rintro _ ⟨⟩
    exact hinit
  · refine (readMark_yields hrest _).bind fun semi _ hrest => ?_
    refine .ok (.of_closed ⟨hdecl, ?_⟩ rfl) hrest
    rintro _ ⟨⟩

theorem readReturn_yields (start : Span) (s : Input) (hs : s.Proper) :
    Yields (readReturn start s) StmtRead := by
  unfold readReturn
  split
  · rename_i semi hsemi
    refine .ok (.of_closed ?_ rfl) (accept?_proper hs hsemi).1
    rintro _ ⟨⟩
  · refine (readExprSemi_yields s hs).bind fun value hvalue hrest => .ok (.of_closed ?_ rfl) hrest
    rintro _ ⟨⟩
    exact hvalue

mutual

theorem readBlock_yields (s : Input) (hs : s.Proper) :
    Yields s.readBlock fun block _ => canonicalStmts block.stmts := by
  rw [readBlock]
  refine (readMark_yields hs _).bind fun left _ hrest => ?_
  refine (readStmts_yields left.input hrest).bind fun stmts hstmts hrest => ?_
  exact (readMark_yields hrest _).bind fun right _ hrest => .ok hstmts hrest
termination_by 4 * s.size
decreasing_by all_goals grind

theorem readStmt_yields (s : Input) (hs : s.Proper) : Yields s.readStmt StmtRead := by
  rw [readStmt]
  split
  · exact readVarDecl_yields s hs
  · split
    · exact (readBlock_yields s hs).bind fun block hblock hrest => .ok (.of_closed hblock rfl) hrest
    · split
      · rename_i lead hlead
        exact (readLed_yields lead.value lead.input (accept?_proper hs hlead).1).bind
          fun stmt hstmt hrest => .ok hstmt hrest
      · exact (readExprSemi_yields s hs).bind
          fun value hvalue hrest => .ok (.of_closed hvalue rfl) hrest
termination_by 4 * s.size + 2
decreasing_by all_goals grind

theorem readLed_yields (lead : Lead) (s : Input) (hs : s.Proper) :
    Yields (readLed lead s) StmtRead := by
  cases lead with
  | ret =>
    rw [readLed]
    exact (readReturn_yields _ s hs).bind fun stmt hstmt hrest => .ok hstmt hrest
  | cond =>
    rw [readLed]
    refine (readCondition_yields s hs).bind fun cond hcond hrest => ?_
    refine (readStmt_yields cond.input hrest).bind fun yes hyes hrest => ?_
    split
    · rename_i alt halt
      -- an open branch is never followed by `else`, so this one is closed
      have hclosed : yes.value.endsOpen = false := by
        rw [Bool.eq_false_iff]
        intro hopen
        rw [keyword?_of_head (hyes.2 hopen)] at halt
        cases halt
      refine (readStmt_yields alt.input (accept?_proper hrest halt).1).bind
        fun no hno hrest => ?_
      exact .ok ⟨⟨hcond, hclosed, hyes.1, hno.1⟩, hno.2⟩ hrest
    · rename_i halt
      exact .ok ⟨⟨hcond, hyes.1⟩, fun _ => head_ne_of_keyword? halt⟩ hrest
  | loop =>
    rw [readLed]
    refine (readCondition_yields s hs).bind fun cond hcond hrest => ?_
    refine (readStmt_yields cond.input hrest).bind fun body hbody hrest => ?_
    exact .ok ⟨⟨hcond, hbody.1⟩, hbody.2⟩ hrest
  | brk =>
    rw [readLed]
    exact (readMark_yields hs _).bind fun semi _ hrest => .ok (.of_closed trivial rfl) hrest
  | cont =>
    rw [readLed]
    exact (readMark_yields hs _).bind fun semi _ hrest => .ok (.of_closed trivial rfl) hrest
  | empty =>
    rw [readLed]
    exact .ok (.of_closed trivial rfl) hs
termination_by 4 * s.size + 1
decreasing_by all_goals grind

theorem readStmts_yields (s : Input) (hs : s.Proper) :
    Yields s.readStmts fun stmts _ => canonicalStmts stmts := by
  rw [readStmts]
  split
  · exact .ok trivial hs
  · refine (readStmt_yields s hs).bind fun stmt hstmt hrest => ?_
    refine (readStmts_yields stmt.input hrest).bind fun more hmore hrest => ?_
    exact .ok ⟨hstmt.1, hmore⟩ hrest
termination_by 4 * s.size + 3
decreasing_by all_goals grind

end

/-! ## Programs -/

theorem readParams_yields (s : Input) (hs : s.Proper) :
    Yields s.readParams fun params _ => canonicalDecls params := by
  rw [readParams]
  split
  · exact .ok trivial hs
  · refine (readDecl_yields s hs).bind fun param hparam hrest => ?_
    split
    · exact .ok ⟨hparam, trivial⟩ hrest
    · rename_i comma hcomma
      refine (readParams_yields comma.input (accept?_proper hrest hcomma).1).bind
        fun more hmore hrest => ?_
      exact .ok ⟨hparam, hmore⟩ hrest
termination_by s.size
decreasing_by all_goals grind

theorem readFunction_yields (start : Span) {ret : Specifier} (hret : ret.Canonical) {s : Input}
    (hs : s.Proper) : Yields (readFunction start ret s) fun item _ => item.Canonical := by
  refine (readIdent_yields hs).bind fun name hname hrest => ?_
  refine (readMark_yields hrest _).bind fun left _ hrest => ?_
  refine (readParams_yields left.input hrest).bind fun params hparams hrest => ?_
  refine (readMark_yields hrest _).bind fun right _ hrest => ?_
  split
  · refine (readBlock_yields right.input hrest).bind fun body hbody hrest => ?_
    exact .ok ⟨⟨hret, hname, hparams⟩, hbody⟩ hrest
  · exact (readMark_yields hrest _).bind fun semi _ hrest => .ok ⟨hret, hname, hparams⟩ hrest

theorem readItem_yields {s : Input} (hs : s.Proper) :
    Yields s.readItem fun item _ => item.Canonical := by
  refine (readSpecifier_yields s hs).bind fun spec hspec hrest => ?_
  split
  · rename_i semi hsemi
    exact .ok hspec (accept?_proper hrest hsemi).1
  · split
    · exact (readFunction_yields _ hspec hrest).bind fun item hitem hrest => .ok hitem hrest
    · refine (readDeclarator_yields spec.input hrest).bind fun d hd hrest => ?_
      exact (readMark_yields hrest _).bind fun semi _ hrest => .ok ⟨hspec, hd⟩ hrest

theorem readItems_canonical (s : Input) (hs : s.Proper) {items : List Item}
    (h : s.readItems = .ok items) : ∀ item ∈ items, item.Canonical := by
  rcases eq_of_readItems h with rfl | ⟨item, more, hitem, hmore, rfl⟩
  · exact List.forall_mem_nil _
  · obtain ⟨hcanonical, hrest⟩ := readItem_yields hs item hitem
    exact List.forall_mem_cons.2 ⟨hcanonical, readItems_canonical item.input hrest hmore⟩
termination_by s.size
decreasing_by grind

end Input

/-- The words of a source are words of the language. -/
theorem Input.proper_ofSource (source : String) :
    (Input.ofTokens (Token.ofSource source)).Proper := by
  intro c hc
  obtain ⟨t, ht, rfl⟩ := List.mem_map.1 hc
  exact Cursor.tokens_proper _ t ht

theorem Program.canonical_of_parse {source : String} {t : Program}
    (h : Program.parse source = .ok t) : t.Canonical :=
  Input.readItems_canonical _ (Input.proper_ofSource source) (ofTokens_eq_ok_iff.1 h)

/-- **Round trip.** The names and integers of canonical trees are exactly the words that sources
contain. The tokens of a canonical program are read as that program, up to spans, and every program
that is read from a source is canonical. So the tokens of a program read from a source give it
back. -/
theorem parse_inverts_render :
    (∀ name, isName name = true ↔
      ∃ source, ∃ t ∈ Token.ofSource source, t.kind = .ident name) ∧
    (∀ text, isInteger text = true ↔
      ∃ source, ∃ t ∈ Token.ofSource source, t.kind = .integer text) ∧
    (∀ p : Program, p.Canonical → ∀ tokens : List Token,
      tokens.map (·.kind) = p.render ++ [.eof] →
        ∃ p', Program.ofTokens tokens = .ok p' ∧ p'.erase = p.erase) ∧
    (∀ (source : String) (p : Program), Program.parse source = .ok p → p.Canonical) ∧
    (∀ (source : String) (p : Program), Program.parse source = .ok p → ∀ tokens : List Token,
      tokens.map (·.kind) = p.render ++ [.eof] →
        ∃ p', Program.ofTokens tokens = .ok p' ∧ p'.erase = p.erase) :=
  ⟨isName_iff, isInteger_iff, fun _ hc _ htokens => Program.ofTokens_render hc htokens,
    fun _ _ h => Program.canonical_of_parse h,
    fun _ _ h _ htokens => Program.ofTokens_render (Program.canonical_of_parse h) htokens⟩

/-- An `if` without `else` before an `else`, kept apart from it by braces, beside a negative bound
on an array that a pointer leads to. -/
def guardedElse : Program :=
  let cond : Expr := .binary .sub (.name ⟨"n", .blank⟩) (.literal (.int "1") .blank) .blank
  let inner : Stmt := .loop cond (.ifThen cond (.empty .blank) .blank) .blank
  ⟨[.global ⟨.int .blank,
      .array (.paren (.pointer (.ident ⟨"a", .blank⟩) .blank) .blank) ⟨"-3", .blank⟩ .blank,
      .blank⟩,
    .function ⟨.int .blank, ⟨"f", .blank⟩, [⟨.int .blank, .ident ⟨"n", .blank⟩, .blank⟩], .blank⟩
      ⟨[.ifElse cond (.block [inner] .blank) (.ret (some cond) .blank) .blank], .blank⟩]⟩

theorem guardedElse_canonical : guardedElse.Canonical := by
  have ha : isName "a" = true := by decide
  have hf : isName "f" = true := by decide
  have hn : isName "n" = true := by decide
  have hone : isInteger "1" = true := by decide
  have hsize : isBound "-3" = true := by decide
  simp [guardedElse, Program.Canonical, Item.Canonical, Signature.Canonical, Decl.Canonical,
    canonicalDecls, Specifier.Canonical, Declarator.Canonical, Declarator.isPointer,
    canonicalStmts, Stmt.Canonical, Stmt.endsOpen, Expr.Canonical, Literal.Canonical, ha, hf, hn,
    hone, hsize]

theorem guardedElse_reads_back :
    guardedElse.Canonical ∧
      ∃ p', Program.ofTokens ((guardedElse.render ++ [Kind.eof]).map (⟨·, .blank⟩)) = .ok p' ∧
        p'.erase = guardedElse.erase :=
  ⟨guardedElse_canonical,
    parse_inverts_render.2.2.1 guardedElse guardedElse_canonical _ (by simp [Function.comp_def])⟩

end MiniC
