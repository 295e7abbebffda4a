import MiniC.Proofs.Reading.Basic

/-!
# The readers step by step

One equation for each reader: what it does, as steps of `Reader` in a row. The function of an item
is found by looking two tokens ahead; `named` takes the name first and then decides, which is the
same because a declarator that starts with a name takes that name too.
-/

namespace MiniC.Reader

/-! ## The readers -/

def bound : Reader Bound := fun s => s.readBound.plain

def arrays (start : Span) (inner : Declarator) : Reader Declarator :=
  fun s => (s.readArrays start inner).plain

def declarator : Reader Declarator := fun s => s.readDeclarator.plain

def specifier : Reader Specifier := fun s => s.readSpecifier.plain

def decl : Reader Decl := fun s => s.readDecl.plain

def members : Reader (List Decl) := fun s => s.readMembers.plain

def expr (least : Nat) : Reader Expr := fun s => (s.readExpr least).plain

def operators (least : Nat) (left : Expr) : Reader Expr :=
  fun s => (s.readOperators least left).plain

def operand : Reader Expr := fun s => s.readOperand.plain

def primary : Reader Expr := fun s => s.readPrimary.plain

def trailers (base : Expr) : Reader Expr := fun s => (s.readTrailers base).plain

def args : Reader (List Expr) := fun s => s.readArgs.plain

def condition : Reader Expr := fun s => s.readCondition.plain

def exprSemi : Reader (Expr × Span) := fun s => s.readExprSemi.plain

def varDecl : Reader Stmt := fun s => s.readVarDecl.plain

def returned (start : Span) : Reader Stmt := fun s => (s.readReturn start).plain

def block : Reader Block := fun s => s.readBlock.plain

def stmt : Reader Stmt := fun s => s.readStmt.plain

def led (lead : Lead) : Reader Stmt := fun s => (s.readLed lead).plain

def stmts : Reader (List Stmt) := fun s => s.readStmts.plain

def params : Reader (List Decl) := fun s => s.readParams.plain

def item : Reader Item := fun s => s.readItem.plain

/-! ## Tokens -/

theorem mark_eq (m : Mark) : mark m = (do
    match ← mark? m with
    | some span => return span
    | none => fail fun s => s.fault (.unexpected (.mark m) s.kind)) := by
  funext s
  change (s.readMark m).plain = _
  unfold Input.readMark
  cases h : s.mark? m with
  | some p => exact eq_bind (mark?_some h) rfl
  | none => exact eq_bind (mark?_none h) rfl

theorem ident_eq : ident = (do
    match ← ident? with
    | some id => return id
    | none => fail (·.fault .expectedIdent)) := by
  funext s
  change s.readIdent.plain = _
  unfold Input.readIdent
  cases h : s.ident? with
  | some p => exact eq_bind (ident?_some h) rfl
  | none => exact eq_bind (ident?_none h) rfl

/-- The text of an integer literal. -/
def integer? : Kind → Option String
  | .integer text => some text
  | _ => none

theorem integer_eq : integer = (do
    match ← kind? integer? with
    | some text => return text
    | none => fail fun s => ⟨.expectedArraySize, s.current.span⟩) := by
  funext s
  change s.readInteger.plain = _
  unfold Input.readInteger
  split
  · rename_i p h
    exact eq_bind (kind?_some (f := integer?) h) rfl
  · rename_i h
    exact eq_bind (kind?_none (f := integer?) h) rfl

/-! ## Declarations -/

theorem bound_eq : bound = (do
    let start ← here
    match ← mark? .minus with
    | some minus => do
      let digits ← integer
      return ⟨"-" ++ digits, minus.join (← last)⟩
    | none => do
      let digits ← integer
      return ⟨digits, start.join (← last)⟩) := by
  funext s
  refine eq_bind (m := here) rfl ?_
  change s.readBound.plain = _
  unfold Input.readBound
  cases h : s.mark? .minus with
  | some minus =>
    refine eq_bind (mark?_some h) ?_
    exact plain_bind rfl fun digits => rfl
  | none =>
    refine eq_bind (mark?_none h) ?_
    exact plain_bind rfl fun digits => rfl

theorem arrays_eq (start : Span) (inner : Declarator) : arrays start inner = (do
    match ← mark? .leftBracket with
    | none => return inner
    | some _ => do
      let size ← bound
      let right ← mark .rightBracket
      arrays start (.array inner size (start.join right))) := by
  funext s
  change (s.readArrays start inner).plain = _
  rw [Input.readArrays]
  cases h : s.mark? .leftBracket with
  | none => exact eq_bind (mark?_none h) rfl
  | some left =>
    refine eq_bind (mark?_some h) ?_
    refine plain_bind rfl fun size => plain_bind rfl fun right => ?_
    exact plain_last rfl fun d => ⟨rfl, rfl⟩

theorem declarator_eq : declarator = (do
    match ← mark? .star with
    | some star => do
      let inner ← declarator
      return .pointer inner (star.join (← last))
    | none => do
      match ← ident? with
      | some id => arrays id.span (.ident id)
      | none => do
        match ← mark? .leftParen with
        | some left => do
          let inner ← declarator
          let right ← mark .rightParen
          arrays left (.paren inner (left.join right))
        | none => fail (·.fault .expectedDeclarator)) := by
  funext s
  change s.readDeclarator.plain = _
  rw [Input.readDeclarator]
  cases hstar : s.mark? .star with
  | some star =>
    refine eq_bind (mark?_some hstar) ?_
    exact plain_bind rfl fun inner => rfl
  | none =>
    refine eq_bind (mark?_none hstar) ?_
    cases hid : s.ident? with
    | some id =>
      refine eq_bind (ident?_some hid) ?_
      exact plain_last rfl fun d => ⟨rfl, rfl⟩
    | none =>
      refine eq_bind (ident?_none hid) ?_
      cases hleft : s.mark? .leftParen with
      | some left =>
        refine eq_bind (mark?_some hleft) ?_
        refine plain_bind rfl fun inner => plain_bind rfl fun right => ?_
        exact plain_last rfl fun d => ⟨rfl, rfl⟩
      | none => exact eq_bind (mark?_none hleft) rfl

theorem specifier_eq : specifier = (do
    match ← keyword? .int with
    | some span => return .int span
    | none => do
      match ← keyword? .char with
      | some span => return .char span
      | none => do
        match ← keyword? .struct with
        | none => fail (·.fault .expectedSpecifier)
        | some struct => do
          let tag ← ident
          match ← mark? .leftBrace with
          | none => return .structRef tag (struct.join tag.span)
          | some _ => do
            let fields ← members
            let right ← mark .rightBrace
            return .structDef tag fields (struct.join right)) := by
  funext s
  change s.readSpecifier.plain = _
  rw [Input.readSpecifier]
  cases hint : s.keyword? .int with
  | some int => exact eq_bind (keyword?_some hint) rfl
  | none =>
    refine eq_bind (keyword?_none hint) ?_
    cases hchar : s.keyword? .char with
    | some char => exact eq_bind (keyword?_some hchar) rfl
    | none =>
      refine eq_bind (keyword?_none hchar) ?_
      cases hstruct : s.keyword? .struct with
      | none => exact eq_bind (keyword?_none hstruct) rfl
      | some struct =>
        refine eq_bind (keyword?_some hstruct) ?_
        refine plain_bind rfl fun tag => ?_
        cases hleft : tag.input.mark? .leftBrace with
        | none => exact eq_bind (mark?_none hleft) rfl
        | some left =>
          refine eq_bind (mark?_some hleft) ?_
          exact plain_bind rfl fun fields => plain_bind rfl fun right => rfl

theorem decl_eq : decl = (do
    let start ← here
    let spec ← specifier
    let d ← declarator
    return ⟨spec, d, start.join (← last)⟩) := by
  funext s
  refine eq_bind (m := here) rfl ?_
  change s.readDecl.plain = _
  rw [Input.readDecl]
  exact plain_bind rfl fun spec => plain_bind rfl fun d => rfl

theorem members_eq : members = (do
    if ← look (·.stopsAt .rightBrace) then return []
    else do
      let d ← decl
      let _ ← mark .semicolon
      let more ← members
      return d :: more) := by
  funext s
  refine eq_bind (m := look _) rfl ?_
  change s.readMembers.plain = _
  rw [Input.readMembers]
  split
  · rfl
  · exact plain_bind rfl fun d => plain_bind rfl fun semi => plain_bind rfl fun more => rfl

/-! ## Expressions -/

theorem expr_eq (least : Nat) : expr least = (do
    let left ← operand
    operators least left) := by
  funext s
  change (s.readExpr least).plain = _
  rw [Input.readExpr]
  exact plain_bind rfl fun left => plain_last rfl fun e => ⟨rfl, rfl⟩

/-- The operator that goes on with an expression of the precedence `least`. -/
def operator? (least : Nat) : Reader (Option BinOp) :=
  kind? fun k => k.binOp?.filter (least ≤ ·.precedence)

theorem operators_eq (least : Nat) (left : Expr) : operators least left = (do
    match ← operator? least with
    | none => return left
    | some op => do
      let right ← expr op.rightBinding
      operators least (.binary op left right (left.span.join right.span))) := by
  funext s
  change (s.readOperators least left).plain = _
  rw [Input.readOperators]
  have hfilter := s.accept?_filter Kind.binOp? (least ≤ ·.precedence)
  cases h : s.accept? Kind.binOp? with
  | none =>
    rw [h] at hfilter
    exact eq_bind (kind?_none hfilter) rfl
  | some op =>
    rw [h] at hfilter
    by_cases hlt : op.value.precedence < least
    · rw [Option.filter_some_neg (by simpa using hlt)] at hfilter
      refine eq_bind (kind?_none hfilter) ?_
      simp only [if_pos hlt]
      rfl
    · rw [Option.filter_some_pos (by simpa using hlt)] at hfilter
      refine eq_bind (kind?_some hfilter) ?_
      simp only [if_neg hlt]
      refine plain_bind rfl fun right => ?_
      exact plain_last rfl fun e => ⟨rfl, rfl⟩

theorem operand_eq : operand = (do
    match ← kind? Kind.unOp? with
    | some op => do
      let start ← last
      let e ← operand
      return .unary op e (start.join e.span)
    | none => do
      let base ← primary
      trailers base) := by
  funext s
  change s.readOperand.plain = _
  rw [Input.readOperand]
  cases h : s.accept? Kind.unOp? with
  | some op =>
    refine eq_bind (kind?_some h) (eq_bind (m := last) rfl ?_)
    exact plain_bind rfl fun e => rfl
  | none =>
    refine eq_bind (kind?_none h) ?_
    exact plain_bind rfl fun base => plain_last rfl fun e => ⟨rfl, rfl⟩

theorem primary_eq : primary = (do
    match ← kind? Kind.literal? with
    | some value => return .literal value (← last)
    | none => do
      match ← ident? with
      | some id => return .name id
      | none => do
        match ← mark? .leftParen with
        | some _ => do
          let e ← expr 0
          let _ ← mark .rightParen
          return e
        | none => fail (·.fault .expectedExpr)) := by
  funext s
  change s.readPrimary.plain = _
  rw [Input.readPrimary]
  cases hlit : s.accept? Kind.literal? with
  | some value => exact eq_bind (kind?_some hlit) rfl
  | none =>
    refine eq_bind (kind?_none hlit) ?_
    cases hid : s.ident? with
    | some id => exact eq_bind (ident?_some hid) rfl
    | none =>
      refine eq_bind (ident?_none hid) ?_
      cases hleft : s.mark? .leftParen with
      | some left =>
        refine eq_bind (mark?_some hleft) ?_
        exact plain_bind rfl fun e => plain_bind rfl fun right => rfl
      | none => exact eq_bind (mark?_none hleft) rfl

theorem trailers_eq (base : Expr) : trailers base = (do
    match ← kind? Kind.trailer? with
    | none => return base
    | some .call => do
      let values ← args
      let right ← mark .rightParen
      trailers (.call base values (base.span.join right))
    | some .index => do
      let offset ← expr 0
      let right ← mark .rightBracket
      trailers (.index base offset (base.span.join right))
    | some (.member arrow) => do
      let field ← ident
      trailers (.member base field arrow (base.span.join field.span))) := by
  funext s
  change (s.readTrailers base).plain = _
  rw [Input.readTrailers]
  cases h : s.accept? Kind.trailer? with
  | none => exact eq_bind (kind?_none h) rfl
  | some left =>
    refine eq_bind (kind?_some h) ?_
    obtain ⟨trailer, t, hlt⟩ := left
    cases trailer with
    | call =>
      refine plain_bind rfl fun values => plain_bind rfl fun right => ?_
      exact plain_last rfl fun e => ⟨rfl, rfl⟩
    | index =>
      refine plain_bind rfl fun offset => plain_bind rfl fun right => ?_
      exact plain_last rfl fun e => ⟨rfl, rfl⟩
    | member arrow =>
      refine plain_bind rfl fun field => ?_
      exact plain_last rfl fun e => ⟨rfl, rfl⟩

/-- A list up to a closing parenthesis; `more` is the rest of it after a comma. -/
def commaList (element : Reader α) (more : Reader (List α)) : Reader (List α) := do
  if ← look (·.stopsAt .rightParen) then return []
  else do
    let first ← element
    match ← mark? .comma with
    | none => return [first]
    | some _ => do
      let rest ← more
      return first :: rest

theorem args_eq : args = commaList (expr 0) args := by
  funext s
  refine eq_bind (m := look _) rfl ?_
  change s.readArgs.plain = _
  rw [Input.readArgs]
  split
  · rfl
  · refine plain_bind rfl fun arg => ?_
    cases h : arg.input.mark? .comma with
    | none => exact eq_bind (mark?_none h) rfl
    | some comma =>
      refine eq_bind (mark?_some h) ?_
      exact plain_bind rfl fun more => rfl

/-! ## Statements -/

theorem condition_eq : condition = (do
    let _ ← mark .leftParen
    let cond ← expr 0
    let _ ← mark .rightParen
    return cond) := by
  funext s
  exact plain_bind rfl fun left => plain_bind rfl fun cond => plain_bind rfl fun right => rfl

theorem exprSemi_eq : exprSemi = (do
    let value ← expr 0
    let semi ← mark .semicolon
    return (value, semi)) := by
  funext s
  exact plain_bind rfl fun value => plain_bind rfl fun semi => rfl

theorem varDecl_eq : varDecl = (do
    let start ← here
    let d ← decl
    match ← mark? .assign with
    | some _ => do
      let init ← exprSemi
      return .varDecl d (some init.1) (start.join init.2)
    | none => do
      let semi ← mark .semicolon
      return .varDecl d none (start.join semi)) := by
  funext s
  refine eq_bind (m := here) rfl (plain_bind rfl fun d => ?_)
  cases h : d.input.mark? .assign with
  | some assign =>
    refine eq_bind (mark?_some h) ?_
    exact plain_bind rfl fun init => rfl
  | none =>
    refine eq_bind (mark?_none h) ?_
    exact plain_bind rfl fun semi => rfl

theorem returned_eq (start : Span) : returned start = (do
    match ← mark? .semicolon with
    | some semi => return .ret none (start.join semi)
    | none => do
      let value ← exprSemi
      return .ret (some value.1) (start.join value.2)) := by
  funext s
  change (s.readReturn start).plain = _
  unfold Input.readReturn
  cases h : s.mark? .semicolon with
  | some semi => exact eq_bind (mark?_some h) rfl
  | none =>
    refine eq_bind (mark?_none h) ?_
    exact plain_bind rfl fun value => rfl

theorem block_eq : block = (do
    let left ← mark .leftBrace
    let body ← stmts
    let right ← mark .rightBrace
    return ⟨body, left.join right⟩) := by
  funext s
  change s.readBlock.plain = _
  rw [Input.readBlock]
  exact plain_bind rfl fun left => plain_bind rfl fun body => plain_bind rfl fun right => rfl

theorem stmt_eq : stmt = (do
    let k ← look (·.kind)
    if k.beginsSpecifier then varDecl
    else if k = .mark .leftBrace then do
      let body ← block
      return .block body.stmts body.span
    else do
      match ← kind? Kind.lead? with
      | some lead => led lead
      | none => do
        let value ← exprSemi
        return .expr value.1) := by
  funext s
  refine eq_bind (m := look _) rfl ?_
  change s.readStmt.plain = _
  rw [Input.readStmt]
  by_cases hspec : s.kind.beginsSpecifier
  · rw [if_pos hspec, if_pos hspec]
    rfl
  · rw [if_neg hspec, if_neg hspec]
    by_cases hleft : s.kind = .mark .leftBrace
    · rw [if_pos hleft, if_pos hleft]
      exact plain_bind rfl fun body => rfl
    · rw [if_neg hleft, if_neg hleft]
      cases h : s.accept? Kind.lead? with
      | some lead =>
        refine eq_bind (kind?_some h) ?_
        exact plain_last rfl fun e => ⟨rfl, rfl⟩
      | none =>
        refine eq_bind (kind?_none h) ?_
        exact plain_bind rfl fun value => rfl

theorem led_eq (lead : Lead) : led lead = (do
    let start ← last
    match lead with
    | .ret => returned start
    | .cond => do
      let cond ← condition
      let yes ← stmt
      match ← keyword? .else_ with
      | some _ => do
        let no ← stmt
        return .ifElse cond yes no (start.join (← last))
      | none => return .ifThen cond yes (start.join (← last))
    | .loop => do
      let cond ← condition
      let body ← stmt
      return .loop cond body (start.join (← last))
    | .brk => do
      let _ ← mark .semicolon
      return .brk start
    | .cont => do
      let _ ← mark .semicolon
      return .cont start
    | .empty => return .empty start) := by
  funext s
  refine eq_bind (m := last) rfl ?_
  change (s.readLed lead).plain = _
  cases lead with
  | ret =>
    rw [Input.readLed]
    exact plain_last rfl fun e => ⟨rfl, rfl⟩
  | cond =>
    rw [Input.readLed]
    refine plain_bind rfl fun cond => plain_bind rfl fun yes => ?_
    cases h : yes.input.keyword? .else_ with
    | some alt =>
      refine eq_bind (keyword?_some h) ?_
      exact plain_bind rfl fun no => rfl
    | none => exact eq_bind (keyword?_none h) rfl
  | loop =>
    rw [Input.readLed]
    exact plain_bind rfl fun cond => plain_bind rfl fun body => rfl
  | brk =>
    rw [Input.readLed]
    exact plain_bind rfl fun semi => rfl
  | cont =>
    rw [Input.readLed]
    exact plain_bind rfl fun semi => rfl
  | empty =>
    rw [Input.readLed]
    rfl

theorem stmts_eq : stmts = (do
    if ← look (·.stopsAt .rightBrace) then return []
    else do
      let first ← stmt
      let more ← stmts
      return first :: more) := by
  funext s
  refine eq_bind (m := look _) rfl ?_
  change s.readStmts.plain = _
  rw [Input.readStmts]
  split
  · rfl
  · exact plain_bind rfl fun first => plain_bind rfl fun more => rfl

/-! ## Items -/

theorem params_eq : params = commaList decl params := by
  funext s
  refine eq_bind (m := look _) rfl ?_
  change s.readParams.plain = _
  rw [Input.readParams]
  split
  · rfl
  · refine plain_bind rfl fun param => ?_
    cases h : param.input.mark? .comma with
    | none => exact eq_bind (mark?_none h) rfl
    | some comma =>
      refine eq_bind (mark?_some h) ?_
      exact plain_bind rfl fun more => rfl

/-- The function `name`, from the parenthesis of its parameters on. -/
def function (start : Span) (ret : Specifier) (name : Ident) : Reader Item := do
  let _ ← mark .leftParen
  let ps ← params
  let right ← mark .rightParen
  if (← look (·.kind)) = .mark .leftBrace then
    let body ← block
    return .function ⟨ret, name, ps, start.join body.span⟩ body
  else
    let _ ← mark .semicolon
    return .prototype ⟨ret, name, ps, start.join right⟩

/-- The variable with the declarator `d`, from the semicolon on. -/
def global (start : Span) (spec : Specifier) (d : Declarator) : Reader Item := do
  let semi ← mark .semicolon
  return .global ⟨spec, d, start.join semi⟩

/-- The function or variable after a specifier. -/
def named (start : Span) (spec : Specifier) : Reader Item := do
  match ← ident? with
  | some name => do
    if (← look (·.kind)) = .mark .leftParen then function start spec name
    else do
      let d ← arrays name.span (.ident name)
      global start spec d
  | none => do
    let d ← declarator
    global start spec d

theorem function_eq (start : Span) (ret : Specifier) (s : Input) :
    (s.readFunction start ret).plain = (do let name ← ident; function start ret name) s := by
  refine plain_bind rfl fun name => plain_bind rfl fun left => plain_bind rfl fun ps =>
    plain_bind rfl fun right => eq_bind (m := look _) rfl ?_
  by_cases h : right.input.kind = .mark .leftBrace
  · simp only [if_pos h]
    exact plain_bind rfl fun body => rfl
  · simp only [if_neg h]
    exact plain_bind rfl fun semi => rfl

section

variable {s : Input} {name : Parsed Ident s.size} (h : s.ident? = some name)
include h

theorem of_ident? : ∃ before text span rest,
    s = ⟨before, ⟨.ident text, span⟩ :: rest⟩ ∧ name.input = ⟨span, rest⟩ := by
  obtain ⟨before, _ | ⟨⟨k, span⟩, rest⟩⟩ := s
  · cases h
  · obtain ⟨id, hid, rfl⟩ := Option.map_eq_some_iff.1 h
    cases k <;> cases hid
    exact ⟨before, _, span, rest, rfl, rfl⟩

theorem ident_of_ident? : ident s = .ok (name.value, name.input) := by
  change s.readIdent.plain = _
  unfold Input.readIdent
  rw [h]
  rfl

/-- A declarator that starts with a name goes on with the arrays after it. -/
theorem declarator_ident :
    declarator s = arrays name.value.span (.ident name.value) name.input := by
  obtain ⟨before, text, span, rest, rfl, hinput⟩ := of_ident? h
  rw [declarator_eq, bind_ok (mark?_none rfl)]
  exact bind_ok (ident?_some h)

/-- A variable whose declarator starts with a name is read as one whose declarator does not. -/
theorem named_variable (hleft : name.input.kind ≠ .mark .leftParen) (start : Span)
    (spec : Specifier) : named start spec s = (do let d ← declarator; global start spec d) s := by
  refine .symm (eq_bind (ident?_some h) (eq_bind (m := look _) rfl ?_))
  simp only [if_neg hleft]
  cases hd : declarator s with
  | ok r => rw [bind_ok hd, bind_ok ((declarator_ident h).symm.trans hd)]
  | error e => rw [bind_error hd, bind_error ((declarator_ident h).symm.trans hd)]

/-- The two tokens that start a function are a name and, after it, a parenthesis. -/
theorem startsFunction_iff : s.startsFunction = true ↔ name.input.kind = .mark .leftParen := by
  obtain ⟨before, text, span, _ | ⟨t, rest⟩, rfl, hinput⟩ := of_ident? h
  all_goals simp [Input.startsFunction, Input.kind, Input.current, Input.peek?, hinput]

end

theorem startsFunction_of_none {s : Input} (h : s.ident? = none) : s.startsFunction = false := by
  obtain ⟨before, _ | ⟨⟨k, span⟩, rest⟩⟩ := s
  · rfl
  · cases k with
    | ident text => cases h
    | _ => rfl

theorem item_eq : item = (do
    let start ← here
    let spec ← specifier
    match ← mark? .semicolon with
    | some _ => return .tagOnly spec
    | none => named start spec) := by
  funext s
  refine eq_bind (m := here) rfl (plain_bind rfl fun spec => ?_)
  cases hsemi : spec.input.mark? .semicolon with
  | some semi => exact eq_bind (mark?_some hsemi) rfl
  | none =>
    refine eq_bind (mark?_none hsemi) ?_
    cases hname : spec.input.ident? with
    | some name =>
      by_cases hleft : name.input.kind = .mark .leftParen
      · simp only [if_pos ((startsFunction_iff hname).2 hleft)]
        refine eq_bind (ident?_some hname) (eq_bind (m := look _) rfl ?_)
        simp only [if_pos hleft]
        refine plain_last ?_ fun e => ⟨rfl, rfl⟩
        rw [function_eq, bind_ok (ident_of_ident? hname)]
      · simp only [if_neg fun hs => hleft ((startsFunction_iff hname).1 hs)]
        rw [named_variable hname hleft]
        exact plain_bind rfl fun d => plain_bind rfl fun semi => rfl
    | none =>
      simp only [startsFunction_of_none hname, Bool.false_eq_true, if_false]
      refine eq_bind (ident?_none hname) ?_
      exact plain_bind rfl fun d => plain_bind rfl fun semi => rfl

/-! ## Items in a row -/

section

variable {s t : Input} (hkind : s.kind ≠ .eof)
include hkind

theorem readItems_of_error {e : SyntaxError} (h : item s = .error e) : s.readItems = .error e := by
  rw [Input.readItems, if_neg hkind, Reading.of_plain_error h]
  rfl

theorem readItems_of_ok {i : Item} (h : item s = .ok (i, t)) :
    s.readItems = t.readItems.map (i :: ·) := by
  obtain ⟨p, hread, rfl, rfl⟩ := Reading.of_plain h
  rw [Input.readItems, if_neg hkind, hread]
  change (do let more ← p.input.readItems; return p.value :: more) = _
  cases p.input.readItems <;> rfl

end

end MiniC.Reader
