import MiniC.Proofs.Reparse.Declaration
import MiniC.Proofs.Reparse.Expression
import MiniC.Syntax.Program

/-!
# Reading rendered programs

Statements, items and programs read back from their tokens, up to spans. A statement that ends in an
`if` without `else` must not be followed by one (`Stmt.Restored`); canonical trees have no such
statement before an `else`.
-/

namespace MiniC

/-! ## Statements -/

namespace Input

variable {s : Input} {k : List Kind}

theorem readCondition_gives (cond : Expr) (h : s.kinds = parens cond.render ++ k) :
    Gives s.readCondition (·.erase = cond.erase) k := by
  rw [enclosed_append] at h
  refine (readMark_gives h).bind fun left _ hrest => ?_
  refine (cond.restored _ _ hrest (closes_cons.2 ⟨rfl, rfl⟩)).bind fun cond' hcond hrest => ?_
  exact (readMark_gives hrest).bind fun right _ hrest => .ok hcond hrest

theorem readExprSemi_gives (e : Expr) (h : s.kinds = e.render ++ .mark .semicolon :: k) :
    Gives s.readExprSemi (·.1.erase = e.erase) k := by
  refine (e.restored _ _ h (closes_cons.2 ⟨rfl, rfl⟩)).bind fun e' he hrest => ?_
  exact (readMark_gives hrest).bind fun semi _ hrest => .ok he hrest

end Input

/-- Tokens that start with the statement are read as the statement, if what follows it is no `else`
that would belong to it. -/
def Stmt.Restored (stmt : Stmt) : Prop :=
  ∀ (s : Input) (k : List Kind), s.kinds = stmt.render ++ k →
    (stmt.endsOpen = true → k.head? ≠ some (.keyword .else_)) →
      Gives s.readStmt (·.erase = stmt.erase) k

/-- What a statement starts with is no end of a block and no `else`. -/
def Kind.beginsStmt : Kind → Bool
  | .mark m => m ≠ .rightBrace
  | .keyword w => w ≠ .else_
  | .eof => false
  | .ident _ | .integer _ | .character _ | .string _ | .unknown _ => true

/-- A token that starts an expression starts no other statement. -/
theorem Kind.of_beginsExpr {c : Kind} (h : c.beginsExpr = true) :
    c.beginsSpecifier = false ∧ c ≠ .mark .leftBrace ∧ c.lead? = none ∧ c.beginsStmt = true := by
  cases c with
  | mark m => cases m <;> revert h <;> decide
  | keyword _ | unknown _ | eof => cases h
  | ident _ | integer _ | character _ | string _ => exact ⟨rfl, by simp, rfl, rfl⟩

theorem Kind.of_lead? {c : Kind} {lead : Lead} (h : c.lead? = some lead) :
    c.beginsSpecifier = false ∧ c ≠ .mark .leftBrace ∧ c.beginsStmt = true := by
  unfold Kind.lead? at h
  split at h <;> first | exact ⟨rfl, by simp, rfl⟩ | cases h

theorem Kind.beginsStmt_of_beginsSpecifier {c : Kind} (h : c.beginsSpecifier = true) :
    c.beginsStmt = true := by
  unfold Kind.beginsSpecifier at h
  split at h <;> first | rfl | cases h

theorem Stmt.render_eq_cons (stmt : Stmt) : ∃ c r, stmt.render = c :: r ∧ c.beginsStmt = true := by
  cases stmt with
  | varDecl decl init _ =>
    obtain ⟨c, r, hr, hc⟩ := decl.render_eq_cons
    exact ⟨c, _, by rw [render, hr, List.cons_append], Kind.beginsStmt_of_beginsSpecifier hc⟩
  | expr value =>
    obtain ⟨c, r, hr, hc⟩ := value.render_eq_cons
    exact ⟨c, _, by rw [render, hr, List.cons_append], (Kind.of_beginsExpr hc).2.2.2⟩
  | block _ _ | ret _ _ | ifThen _ _ _ | ifElse _ _ _ _ | loop _ _ _ | brk _ | cont _ | empty _ =>
    exact ⟨_, _, rfl, rfl⟩

namespace Input

variable {s : Input} {k k' : List Kind} {P : Stmt → Prop}

/-- A statement that a token of its own starts. -/
theorem readStmt_led {c : Kind} {lead : Lead} (h : s.kinds = c :: k) (hc : c.lead? = some lead)
    (hled : ∀ t : Input, t.kinds = k → Gives (readLed lead t) P k') : Gives s.readStmt P k' := by
  obtain ⟨hspec, hbrace, -⟩ := Kind.of_lead? hc
  obtain ⟨p, hp, rfl, hrest⟩ := accept?_of_some h hc
  rw [← kind_of_kinds h] at hspec hbrace
  rw [readStmt, if_neg (by simp [hspec]), if_neg hbrace, hp]
  exact (hled p.input hrest).bind fun stmt hstmt hrest => .ok hstmt hrest

theorem restored_expr (value : Expr) : (Stmt.expr value).Restored := by
  intro s k h _
  rw [Stmt.render, List.append_assoc] at h
  obtain ⟨c, r, hr, hc⟩ := value.render_eq_cons
  have hcons : s.kinds = c :: (r ++ .mark .semicolon :: k) := by rw [h, hr]; rfl
  obtain ⟨hspec, hbrace, hlead, -⟩ := Kind.of_beginsExpr hc
  have hno : s.accept? Kind.lead? = none := accept?_of_none (by simp [hcons, hlead])
  rw [← kind_of_kinds hcons] at hspec hbrace
  rw [readStmt, if_neg (by simp [hspec]), if_neg hbrace, hno]
  refine (readExprSemi_gives value h).bind fun value' hvalue hrest => .ok ?_ hrest
  simp [Parsed.value_give, Stmt.relabel, hvalue]

theorem restored_varDecl {decl : Decl} (hdecl : decl.Canonical) (init : Option Expr)
    (span : Span) : (Stmt.varDecl decl init span).Restored := by
  intro s k h _
  rw [Stmt.render, List.append_assoc, List.append_assoc] at h
  obtain ⟨c, r, hr, hc⟩ := decl.render_eq_cons
  have hspec : s.kind.beginsSpecifier = true := by
    rw [kind_of_kinds (h.trans (by rw [hr, List.cons_append]))]
    exact hc
  have hbracket : (renderInit init ++ ([Kind.mark .semicolon] ++ k)).head? ≠
      some (.mark .leftBracket) := by
    cases init <;> simp [renderInit]
  rw [readStmt, if_pos hspec]
  refine (readDecl_gives hbracket decl hdecl h).bind fun decl' hdecl hrest => ?_
  cases init with
  | none =>
    rw [mark?_of_head (by simp [hrest, renderInit])]
    refine (readMark_gives hrest).bind fun semi _ hrest => .ok ?_ hrest
    simp [Parsed.value_chain, Parsed.value_give, Stmt.relabel, hdecl]
  | some value =>
    obtain ⟨assign, hassign, hrest⟩ := mark?_of_kinds hrest
    rw [hassign]
    refine (readExprSemi_gives value hrest).bind fun value' hvalue hrest => .ok ?_ hrest
    simp [Parsed.value_chain, Parsed.value_give, Stmt.relabel, hdecl, hvalue]

theorem restored_ret (value : Option Expr) (span : Span) : (Stmt.ret value span).Restored := by
  intro s k h _
  rw [Stmt.render, List.cons_append, List.append_assoc] at h
  refine readStmt_led h rfl fun t ht => ?_
  rw [readLed]
  refine Gives.bind (P := (·.erase = (Stmt.ret value span).erase)) ?_
    fun stmt hstmt hrest => .ok hstmt hrest
  cases value with
  | none =>
    obtain ⟨semi, hsemi, hrest⟩ := mark?_of_kinds ht
    rw [readReturn, hsemi]
    exact .ok rfl hrest
  | some value =>
    obtain ⟨c, r, hr, hc⟩ := value.render_eq_cons
    have hsemi : t.mark? .semicolon = none := by
      refine mark?_of_head ?_
      rw [ht, renderOption, hr, List.cons_append, List.head?_cons, ne_eq, Option.some.injEq]
      rintro rfl
      cases hc
    rw [readReturn, hsemi]
    refine (readExprSemi_gives value ht).bind fun value' hvalue hrest => .ok ?_ hrest
    simp [Parsed.value_give, Stmt.relabel, hvalue]

theorem restored_brk (span : Span) : (Stmt.brk span).Restored := by
  intro s k h _
  refine readStmt_led h rfl fun t ht => ?_
  rw [readLed]
  exact (readMark_gives ht).bind fun semi _ hrest => .ok rfl hrest

theorem restored_cont (span : Span) : (Stmt.cont span).Restored := by
  intro s k h _
  refine readStmt_led h rfl fun t ht => ?_
  rw [readLed]
  exact (readMark_gives ht).bind fun semi _ hrest => .ok rfl hrest

theorem restored_empty (span : Span) : (Stmt.empty span).Restored := by
  intro s k h _
  refine readStmt_led h rfl fun t ht => ?_
  rw [readLed]
  exact .ok rfl ht

theorem restored_loop (cond : Expr) {body : Stmt} (hbody : body.Restored) (span : Span) :
    (Stmt.loop cond body span).Restored := by
  intro s k h hk
  rw [Stmt.render, List.cons_append, List.append_assoc] at h
  refine readStmt_led h rfl fun t ht => ?_
  rw [readLed]
  refine (readCondition_gives cond ht).bind fun cond' hcond hrest => ?_
  refine (hbody _ _ hrest hk).bind fun body' hbody hrest => .ok ?_ hrest
  simp [Parsed.value_loosen, Parsed.value_chain, Parsed.value_give, Stmt.relabel, hcond, hbody]

/-- The `if` has no `else`, and neither has the branch that it ends with. -/
theorem restored_ifThen (cond : Expr) {yes : Stmt} (hyes : yes.Restored) (span : Span) :
    (Stmt.ifThen cond yes span).Restored := by
  intro s k h hk
  have helse := hk rfl
  rw [Stmt.render, List.cons_append, List.append_assoc] at h
  refine readStmt_led h rfl fun t ht => ?_
  rw [readLed]
  refine (readCondition_gives cond ht).bind fun cond' hcond hrest => ?_
  refine (hyes _ _ hrest fun _ => helse).bind fun yes' hyes hrest => ?_
  rw [keyword?_of_head (hrest ▸ helse)]
  refine .ok ?_ hrest
  simp [Parsed.value_loosen, Parsed.value_chain, Parsed.value_give, Stmt.relabel, hcond, hyes]

/-- The `else` belongs to this `if`, since the branch before it is closed. -/
theorem restored_ifElse (cond : Expr) {yes no : Stmt} (hclosed : yes.endsOpen = false)
    (hyes : yes.Restored) (hno : no.Restored) (span : Span) :
    (Stmt.ifElse cond yes no span).Restored := by
  intro s k h hk
  rw [Stmt.render, List.cons_append, List.append_assoc, List.append_assoc] at h
  refine readStmt_led h rfl fun t ht => ?_
  rw [readLed]
  refine (readCondition_gives cond ht).bind fun cond' hcond hrest => ?_
  refine (hyes _ _ hrest fun hopen => ?_).bind fun yes' hyes hrest => ?_
  · rw [hclosed] at hopen
    cases hopen
  · obtain ⟨alt, halt, hrest⟩ := keyword?_of_kinds hrest
    rw [halt]
    refine (hno _ _ hrest hk).bind fun no' hno hrest => .ok ?_ hrest
    simp [Parsed.value_loosen, Parsed.value_chain, Parsed.value_give, Stmt.relabel, hcond, hyes,
      hno]

/-- The statements of a block are read up to the closing brace. -/
def StmtsRestored (stmts : List Stmt) : Prop :=
  ∀ (s : Input) (k : List Kind), s.kinds = renderStmts stmts ++ .mark .rightBrace :: k →
    Gives s.readStmts (eraseStmts · = eraseStmts stmts) (.mark .rightBrace :: k)

theorem stmtsRestored_nil : StmtsRestored [] := by
  intro s k h
  rw [readStmts, if_pos (stopsAt_of_kinds h)]
  exact .ok rfl h

theorem head_renderStmts_ne (stmts : List Stmt) (k : List Kind) :
    (renderStmts stmts ++ .mark .rightBrace :: k).head? ≠ some (.keyword .else_) := by
  cases stmts with
  | nil => simp [renderStmts]
  | cons stmt more =>
    obtain ⟨c, r, hr, hc⟩ := stmt.render_eq_cons
    rw [renderStmts, hr, List.cons_append, List.cons_append, List.head?_cons, ne_eq,
      Option.some.injEq]
    rintro rfl
    cases hc

theorem stmtsRestored_cons {stmt : Stmt} {more : List Stmt} (hstmt : stmt.Restored)
    (hmore : StmtsRestored more) : StmtsRestored (stmt :: more) := by
  intro s k h
  obtain ⟨c, r, hr, hc⟩ := stmt.render_eq_cons
  rw [renderStmts, List.append_assoc] at h
  have hstop : s.stopsAt .rightBrace = false := by
    rw [stopsAt, kind_of_kinds (h.trans (by rw [hr, List.cons_append]))]
    cases c <;> simp_all [Kind.beginsStmt]
  rw [readStmts, if_neg (by simp [hstop])]
  refine (hstmt _ _ h fun _ => head_renderStmts_ne more k).bind fun stmt' hstmt hrest => ?_
  refine (hmore _ _ hrest).bind fun more' hmore hrest => .ok ?_ hrest
  simp [Parsed.value_loosen, Parsed.value_chainLoop, Parsed.value_give, relabelStmts, hstmt, hmore]

theorem readBlock_gives {stmts : List Stmt} (hstmts : StmtsRestored stmts)
    (h : s.kinds = braces (renderStmts stmts) ++ k) :
    Gives s.readBlock (eraseStmts ·.stmts = eraseStmts stmts) k := by
  rw [enclosed_append] at h
  rw [readBlock]
  refine (readMark_gives h).bind fun left _ hrest => ?_
  refine (hstmts _ _ hrest).bind fun stmts' hstmts hrest => ?_
  exact (readMark_gives hrest).bind fun right _ hrest => .ok hstmts hrest

theorem restored_block {stmts : List Stmt} (hstmts : StmtsRestored stmts) (span : Span) :
    (Stmt.block stmts span).Restored := by
  intro s k h _
  have hkind : s.kind = .mark .leftBrace := kind_of_kinds h
  rw [readStmt, if_neg (by rw [hkind]; decide), if_pos hkind]
  refine (readBlock_gives hstmts h).bind fun block hblock hrest => .ok ?_ hrest
  simp [Parsed.value_give, Stmt.relabel, hblock]

end Input

mutual

theorem Stmt.restored : (stmt : Stmt) → stmt.Canonical → stmt.Restored
  | .block stmts span, hc => Input.restored_block (stmtsRestored stmts hc) span
  | .varDecl _ init span, hc => Input.restored_varDecl hc.1 init span
  | .expr value, _ => Input.restored_expr value
  | .ret value span, _ => Input.restored_ret value span
  | .ifThen cond yes span, hc => Input.restored_ifThen cond (yes.restored hc.2) span
  | .ifElse cond yes no span, hc =>
    Input.restored_ifElse cond hc.2.1 (yes.restored hc.2.2.1) (no.restored hc.2.2.2) span
  | .loop cond body span, hc => Input.restored_loop cond (body.restored hc.2) span
  | .brk span, _ => Input.restored_brk span
  | .cont span, _ => Input.restored_cont span
  | .empty span, _ => Input.restored_empty span

theorem stmtsRestored : (stmts : List Stmt) → canonicalStmts stmts → Input.StmtsRestored stmts
  | [], _ => Input.stmtsRestored_nil
  | stmt :: more, hc => Input.stmtsRestored_cons (stmt.restored hc.1) (stmtsRestored more hc.2)

end

/-! ## Items -/

namespace Input

variable {s : Input} {k : List Kind}

theorem readParams_gives (params : List Decl) (hc : canonicalDecls params)
    (h : s.kinds = listed (params.map Decl.render) ++ .mark .rightParen :: k) :
    Gives s.readParams (eraseDecls · = eraseDecls params) (.mark .rightParen :: k) := by
  induction params generalizing s with
  | nil =>
    rw [readParams, if_pos (stopsAt_of_kinds h)]
    exact .ok rfl h
  | cons param more ih =>
    obtain ⟨c, r, hr, hbegins⟩ := param.render_eq_cons
    cases more with
    | nil =>
      have h : s.kinds = param.render ++ .mark .rightParen :: k := h
      have hstop := stopsAt_of_begins (h.trans (by rw [hr, List.cons_append])) hbegins .rightParen
      rw [readParams, if_neg (by simp [hstop])]
      refine (readDecl_gives (by simp) param hc.1 h).bind fun param' hparam hrest => ?_
      rw [mark?_of_head (by simp [hrest])]
      refine .ok ?_ hrest
      simp [Parsed.value_loosen, Parsed.value_give, relabelDecls, hparam]
    | cons next more =>
      have h : s.kinds = param.render ++ .mark .comma ::
          (listed ((next :: more).map Decl.render) ++ .mark .rightParen :: k) := by
        simpa [listed] using h
      have hstop := stopsAt_of_begins (h.trans (by rw [hr, List.cons_append])) hbegins .rightParen
      rw [readParams, if_neg (by simp [hstop])]
      refine (readDecl_gives (by simp) param hc.1 h).bind fun param' hparam hrest => ?_
      obtain ⟨comma, hcomma, hrest⟩ := mark?_of_kinds hrest
      rw [hcomma]
      refine (ih hc.2 hrest).bind fun more' hmore hrest => .ok ?_ hrest
      simp only [Parsed.value_loosen, Parsed.value_chain, Parsed.value_chainLoop,
        Parsed.value_give]
      exact congrArg₂ List.cons hparam hmore

theorem peek?_eq (s : Input) : s.peek? = s.kinds[1]? := by
  simp [peek?, kinds]

theorem startsFunction_of_kinds {name : String}
    (h : s.kinds = .ident name :: .mark .leftParen :: k) : s.startsFunction = true := by
  rw [startsFunction, kind_of_kinds h, peek?_eq, h]
  rfl

/-- The name of a declarator is followed by brackets or by what follows the declarator. -/
theorem not_startsFunction (d : Declarator) (h : s.kinds = d.render ++ k)
    (hk : k.head? ≠ some (.mark .leftParen)) : s.startsFunction = false := by
  induction d generalizing k with
  | ident id =>
    rw [startsFunction, kind_of_kinds h, peek?_eq, h]
    cases k <;> simp_all [Declarator.render]
  | array inner size _ ih =>
    rw [Declarator.render, List.append_assoc] at h
    exact ih h (by simp)
  | pointer _ _ => rw [startsFunction, kind_of_kinds h]
  | paren _ _ => rw [startsFunction, kind_of_kinds h]

theorem readFunction_gives {sig : Signature} (hc : sig.Canonical) {start : Span} {ret : Specifier}
    (hret : ret.erase = sig.ret.erase) {stmts : List Stmt} (hstmts : canonicalStmts stmts)
    (h : s.kinds = .ident sig.name.name :: (parens (listed (sig.params.map Decl.render)) ++
      (braces (renderStmts stmts) ++ k))) :
    Gives (readFunction start ret s)
      (·.erase = .function sig.erase ⟨eraseStmts stmts, .blank⟩) k := by
  refine (readIdent_gives h).bind fun name hname hrest => ?_
  rw [enclosed_append .leftParen] at hrest
  refine (readMark_gives hrest).bind fun left _ hrest => ?_
  refine (readParams_gives sig.params hc.2.2 hrest).bind fun params hparams hrest => ?_
  refine (readMark_gives hrest).bind fun right _ hrest => ?_
  rw [if_pos (kind_of_kinds hrest)]
  refine (readBlock_gives (stmtsRestored stmts hstmts) hrest).bind fun body hbody hrest => ?_
  refine .ok ?_ hrest
  simp [Parsed.value_chain, Parsed.value_loopChain, Parsed.value_give, Item.relabel,
    Signature.relabel, Block.relabel, hret, Ident.erase_eq hname, hparams, hbody]

theorem readPrototype_gives {sig : Signature} (hc : sig.Canonical) {start : Span}
    {ret : Specifier} (hret : ret.erase = sig.ret.erase)
    (h : s.kinds = .ident sig.name.name :: (parens (listed (sig.params.map Decl.render)) ++
      .mark .semicolon :: k)) :
    Gives (readFunction start ret s) (·.erase = .prototype sig.erase) k := by
  refine (readIdent_gives h).bind fun name hname hrest => ?_
  rw [enclosed_append .leftParen] at hrest
  refine (readMark_gives hrest).bind fun left _ hrest => ?_
  refine (readParams_gives sig.params hc.2.2 hrest).bind fun params hparams hrest => ?_
  refine (readMark_gives hrest).bind fun right _ hrest => ?_
  rw [if_neg (by simp [kind_of_kinds hrest])]
  refine (readMark_gives hrest).bind fun semi _ hrest => .ok ?_ hrest
  simp [Parsed.value_chain, Parsed.value_loopChain, Parsed.value_give, Item.relabel,
    Signature.relabel, hret, Ident.erase_eq hname, hparams]

/-- A specifier, a name and a parenthesis start a function. -/
theorem readItem_function {spec : Specifier} (hc : spec.Canonical) {name : String}
    {P : Item → Prop} {k' : List Kind}
    (h : s.kinds = spec.render ++ .ident name :: .mark .leftParen :: k)
    (hread : ∀ ret t, ret.erase = spec.erase → t.kinds = .ident name :: .mark .leftParen :: k →
      Gives (readFunction s.current.span ret t) P k') :
    Gives s.readItem P k' := by
  refine (readSpecifier_gives (by simp) spec hc h).bind fun ret hret hrest => ?_
  rw [mark?_of_head (by simp [hrest])]
  simp only [startsFunction_of_kinds hrest, if_true]
  exact (hread _ _ hret hrest).bind fun item hitem hrest => .ok hitem hrest

theorem readItem_gives (item : Item) (hc : item.Canonical) (h : s.kinds = item.render ++ k) :
    Gives s.readItem (·.erase = item.erase) k := by
  cases item with
  | function sig body =>
    rw [Item.render, Signature.render, List.append_assoc, List.append_assoc, List.cons_append,
      enclosed_append] at h
    refine readItem_function hc.1.1 h fun ret t hret ht => ?_
    exact readFunction_gives hc.1 hret hc.2 (by rw [ht, enclosed_append]; rfl)
  | prototype sig =>
    rw [Item.render, Signature.render, List.append_assoc, List.append_assoc, List.cons_append,
      enclosed_append] at h
    refine readItem_function hc.1 h fun ret t hret ht => ?_
    exact readPrototype_gives hc hret (by rw [ht, enclosed_append]; rfl)
  | global decl =>
    obtain ⟨spec, d, span⟩ := decl
    rw [Item.render, Decl.render, List.append_assoc, List.append_assoc] at h
    have hbrace := d.head_render_ne ([Kind.mark .semicolon] ++ k) (m := .leftBrace)
      (by decide) (by decide)
    have hsemi := d.head_render_ne ([Kind.mark .semicolon] ++ k) (m := .semicolon)
      (by decide) (by decide)
    refine (readSpecifier_gives hbrace spec hc.1 h).bind fun spec' hspec hrest => ?_
    rw [mark?_of_head (hrest ▸ hsemi)]
    simp only [not_startsFunction d hrest (by simp)]
    refine ((d.restored hc.2).2 _ _ hrest (by simp)).bind fun d' hd hrest => ?_
    refine (readMark_gives hrest).bind fun semi _ hrest => .ok ?_ hrest
    simp [Parsed.value_chain, Parsed.value_give, Item.relabel, Decl.relabel, hspec, hd]
  | tagOnly spec =>
    rw [Item.render, List.append_assoc] at h
    refine (readSpecifier_gives (by simp) spec hc h).bind fun spec' hspec hrest => ?_
    obtain ⟨semi, hsemi, hrest⟩ := mark?_of_kinds hrest
    rw [hsemi]
    refine .ok ?_ hrest
    simp [Parsed.value_chain, Parsed.value_give, Item.relabel, hspec]

theorem kind_render_ne_eof (item : Item) (h : s.kinds = item.render ++ k) : s.kind ≠ .eof := by
  have hbegins : ∃ c r, item.render = c :: r ∧ c.beginsSpecifier = true := by
    cases item with
    | function sig _ | prototype sig =>
      obtain ⟨c, r, hr, hc⟩ := sig.ret.render_eq_cons
      exact ⟨c, _, by rw [Item.render, Signature.render, hr]; rfl, hc⟩
    | global decl =>
      obtain ⟨c, r, hr, hc⟩ := decl.render_eq_cons
      exact ⟨c, _, by rw [Item.render, hr]; rfl, hc⟩
    | tagOnly spec =>
      obtain ⟨c, r, hr, hc⟩ := spec.render_eq_cons
      exact ⟨c, _, by rw [Item.render, hr]; rfl, hc⟩
  obtain ⟨c, r, hr, hc⟩ := hbegins
  rw [kind_of_kinds (h.trans (by rw [hr, List.cons_append]))]
  rintro rfl
  cases hc

theorem readItems_render (items : List Item) (hc : ∀ item ∈ items, item.Canonical)
    (h : s.kinds = items.flatMap Item.render ++ [.eof]) :
    ∃ items', s.readItems = .ok items' ∧ items'.map Item.erase = items.map Item.erase := by
  induction items generalizing s with
  | nil =>
    rw [readItems, if_pos (kind_of_kinds h)]
    exact ⟨[], rfl, rfl⟩
  | cons item items ih =>
    rw [List.flatMap_cons, List.append_assoc] at h
    rw [readItems, if_neg (kind_render_ne_eof item h)]
    obtain ⟨item', hitem, herase, hrest⟩ := readItem_gives item (hc item List.mem_cons_self) h
    obtain ⟨items', hitems, herases⟩ :=
      ih (fun item hmem => hc item (List.mem_cons_of_mem _ hmem)) hrest
    refine ⟨item'.value :: items', ?_, ?_⟩
    · rw [hitem]
      simp [hitems, bind, Except.bind, pure, Except.pure]
    · rw [List.map_cons, List.map_cons, herase, herases]

end Input

/-- Tokens that render a canonical program are read as that program, up to spans. -/
theorem Program.ofTokens_render {t : Program} (hc : t.Canonical) {tokens : List Token}
    (h : tokens.map (·.kind) = t.render ++ [.eof]) :
    ∃ t', Program.ofTokens tokens = .ok t' ∧ t'.erase = t.erase := by
  obtain ⟨items, hitems, herase⟩ :=
    Input.readItems_render (s := .ofTokens tokens) t.items hc h
  refine ⟨⟨items⟩, ?_, ?_⟩
  · rw [ofTokens, hitems]
    rfl
  · exact congrArg Program.mk herase

end MiniC
