import MiniC.Proofs.Grammar.Sound

/-!
# Statements and programs are phrases

The readers of statements and items settle phrases as well, and from them the reader of whole
programs: either all tokens up to the end mark are a program with the tree that was read, or the
tokens before the error start one.
-/

namespace MiniC

open Reader

/-! ## Statements -/

section

variable {lax : Bool} {s : Input}

/-- Tokens of an expression and the semicolon after it. -/
theorem exprSemi_settles (hs : Lexed lax s.kinds) :
    Settles exprSemi (fun e u _ => ∃ w, u = w ++ [.mark .semicolon] ∧ Phrase lax .expr w e.1.linear)
      (fun u => ∃ w, u = w ++ [.mark .semicolon] ∧ Derives lax .expr w) s := by
  rw [exprSemi_eq]
  refine .bind hs (expr_settles 0 (by omega) hs) (fun u h => ⟨[.mark .semicolon], u, rfl, h⟩)
    fun e t u _ ht _ he => ?_
  refine .mark ht (fun _ => ⟨[.mark .semicolon], u, rfl, _, he.1⟩) fun semi t₁ _ ht₁ => ?_
  exact .pure ht₁ ⟨u, rfl, he.1⟩

/-- Tokens of a condition in parentheses. -/
theorem condition_settles (hs : Lexed lax s.kinds) :
    Settles condition (fun e u _ => ∃ w, u = parens w ∧ Phrase lax .expr w e.linear)
      (fun u => ∃ w, u = parens w ∧ Derives lax .expr w) s := by
  rw [condition_eq]
  refine .mark hs (fun _ => ⟨_, [.ident "x"], rfl, _, .shortest_expr⟩) fun left t _ ht => ?_
  refine .bind ht (expr_settles 0 (by omega) ht) (fun u h => ⟨[.mark .rightParen], u, rfl, h⟩)
    fun e t₁ u _ ht₁ _ he => ?_
  refine .mark ht₁ (fun _ => ⟨[.mark .rightParen], u, rfl, _, he.1⟩) fun right t₂ _ ht₂ => ?_
  exact .pure ht₂ ⟨u, rfl, he.1⟩

theorem varDecl_settles (hs : Lexed lax s.kinds) :
    Settles varDecl (fun st u _ => Phrase lax .stmt u st.linear) (Derives lax .stmt) s := by
  rw [varDecl_eq]
  refine .look local_here (.bind hs (decl_settles hs)
    (fun u h => ⟨[.mark .semicolon], h.imp fun _ h => h.varDecl⟩) fun d t u _ ht _ hd => ?_)
  refine .mark? ht (fun assign t₁ _ ht₁ => ?_) fun _ => ?_
  · refine .bind_whole ht₁ (exprSemi_settles ht₁) ?_ fun init t₂ u' _ ht₂ _ hinit => ?_
    · rintro _ ⟨w, rfl, v, h⟩
      exact (hd.varInit h).derives
    · obtain ⟨w, rfl, h⟩ := hinit
      refine .pure ht₂ ?_
      simpa [Stmt.linear, linearInit] using hd.varInit h
  · refine .mark ht (fun _ => ⟨[.mark .semicolon], _, hd.varDecl⟩) fun semi t₁ _ ht₁ => ?_
    exact .pure ht₁ (by simpa [Stmt.linear, linearInit] using hd.varDecl)

theorem returned_settles (start : Span) (hs : Lexed lax s.kinds) :
    Settles (returned start) (fun st u _ => Phrase lax .stmt (.keyword .return_ :: u) st.linear)
      (fun u => Derives lax .stmt (.keyword .return_ :: u)) s := by
  rw [returned_eq]
  refine .mark? hs (fun semi t _ ht => .pure ht ?_) fun _ => ?_
  · simpa [Stmt.linear, linearOption] using Phrase.ret
  · refine .bind_whole hs (exprSemi_settles hs) ?_ fun value t u _ ht _ hvalue => ?_
    · rintro _ ⟨w, rfl, v, h⟩
      exact h.retValue.derives
    · obtain ⟨w, rfl, h⟩ := hvalue
      refine .pure ht ?_
      simpa [Stmt.linear, linearOption] using h.retValue

end

/-- The token that starts a statement of its own. -/
def Lead.kind : Lead → Kind
  | .ret => .keyword .return_
  | .cond => .keyword .if_
  | .loop => .keyword .while_
  | .brk => .keyword .break_
  | .cont => .keyword .continue_
  | .empty => .mark .semicolon

theorem eq_kind_of_lead? {c : Kind} {lead : Lead} (h : c.lead? = some lead) : c = lead.kind := by
  unfold Kind.lead? at h
  split at h <;> cases h <;> rfl

mutual

theorem block_settles {lax : Bool} {s : Input} (hs : Lexed lax s.kinds) :
    Settles block (fun b u _ => ∃ w, u = braces w ∧ Phrase lax .stmts w (linearStmts b.stmts))
      (fun u => ∃ w, u = braces w ∧ Derives lax .stmts w) s := by
  rw [block_eq]
  refine .mark hs (fun _ => ⟨_, [], rfl, _, .noStmt⟩) fun left t hk ht => ?_
  have hlt := Input.size_lt_of_cons hk
  refine .bind ht (stmts_settles ht) (fun u h => ⟨[.mark .rightBrace], u, rfl, h⟩)
    fun body t₁ u _ ht₁ _ hbody => ?_
  refine .mark ht₁ (fun _ => ⟨[.mark .rightBrace], u, rfl, _, hbody⟩) fun right t₂ _ ht₂ => ?_
  exact .pure ht₂ ⟨u, rfl, hbody⟩
termination_by 4 * s.size

theorem stmt_settles {lax : Bool} {s : Input} (hs : Lexed lax s.kinds) :
    Settles stmt (fun st u _ => Phrase lax .stmt u st.linear) (Derives lax .stmt) s := by
  rw [stmt_eq]
  refine .look local_kind ?_
  split
  · exact varDecl_settles hs
  · split
    · refine .bind_whole hs (block_settles hs) ?_ fun body t u _ ht _ hbody => ?_
      · rintro _ ⟨w, rfl, v, h⟩
        exact h.block.derives
      · obtain ⟨w, rfl, h⟩ := hbody
        exact .pure ht (by simpa [Stmt.linear] using h.block)
    · refine .kind? hs rfl (fun c lead t hc _ hk ht => ?_) fun _ => ?_
      · obtain rfl := eq_kind_of_lead? hc
        have hlt := Input.size_lt_of_cons hk
        exact led_settles ht
      · refine .bind_whole hs (exprSemi_settles hs) ?_ fun value t u _ ht _ hvalue => ?_
        · rintro _ ⟨w, rfl, v, h⟩
          exact h.value.derives
        · obtain ⟨w, rfl, h⟩ := hvalue
          exact .pure ht (by simpa [Stmt.linear] using h.value)
termination_by 4 * s.size + 2

theorem led_settles {lax : Bool} {s : Input} {lead : Lead} (hs : Lexed lax s.kinds) :
    Settles (led lead) (fun st u _ => Phrase lax .stmt (lead.kind :: u) st.linear)
      (fun u => Derives lax .stmt (lead.kind :: u)) s := by
  rw [led_eq]
  refine .look local_last ?_
  cases lead with
  | ret => exact returned_settles _ hs
  | cond =>
    refine .bind hs (condition_settles hs) ?_ fun cond t u hrun ht _ hcond => ?_
    · rintro _ ⟨w, rfl, v, h⟩
      exact ⟨[.mark .semicolon], by simpa [Lead.kind] using (h.ifThen .empty).derives⟩
    · obtain ⟨c, rfl, hcond⟩ := hcond
      have hlt : t.size < s.size := Reading.size_lt hrun
      refine .bind_whole ht (stmt_settles ht) (fun u h => h.imp fun _ h => hcond.ifThen h)
        fun yes t₁ u hrun₁ ht₁ _ hyes => ?_
      have hlt₁ : t₁.size < t.size := Reading.size_lt hrun₁
      refine .keyword? ht₁ (fun alt t₂ hk₂ ht₂ => ?_) fun _ => .look local_last (.pure ht₁ ?_)
      · have hlt₂ := Input.size_lt_of_cons hk₂
        refine .bind_whole ht₂ (stmt_settles ht₂) (fun u' h => ?_)
          fun no t₃ u' _ ht₃ _ hno => .look local_last (.pure ht₃ ?_)
        · exact h.imp fun _ h => hcond.ifElse hyes h
        · simpa [Lead.kind, Stmt.linear] using hcond.ifElse hyes hno
      · simpa [Lead.kind, Stmt.linear] using hcond.ifThen hyes
  | loop =>
    refine .bind hs (condition_settles hs) ?_ fun cond t u hrun ht _ hcond => ?_
    · rintro _ ⟨w, rfl, v, h⟩
      exact ⟨[.mark .semicolon], by simpa [Lead.kind] using (h.loop .empty).derives⟩
    · obtain ⟨c, rfl, hcond⟩ := hcond
      have hlt : t.size < s.size := Reading.size_lt hrun
      refine .bind_whole ht (stmt_settles ht) (fun u h => h.imp fun _ h => hcond.loop h)
        fun body t₁ u _ ht₁ _ hbody => .look local_last (.pure ht₁ ?_)
      simpa [Lead.kind, Stmt.linear] using hcond.loop hbody
  | brk =>
    refine .mark hs (fun _ => ⟨[.mark .semicolon], _, .brk⟩) fun semi t _ ht => .pure ht ?_
    exact .brk
  | cont =>
    refine .mark hs (fun _ => ⟨[.mark .semicolon], _, .cont⟩) fun semi t _ ht => .pure ht ?_
    exact .cont
  | empty => exact .pure hs .empty
termination_by 4 * s.size + 1

theorem stmts_settles {lax : Bool} {s : Input} (hs : Lexed lax s.kinds) :
    Settles stmts (fun sts u _ => Phrase lax .stmts u (linearStmts sts)) (Derives lax .stmts)
      s := by
  rw [stmts_eq]
  refine .look (local_stopsAt _) ?_
  split
  · exact .pure hs .noStmt
  · refine .bind hs (stmt_settles hs) (fun u h => ⟨[], h.imp fun _ h => h.oneStmt .noStmt⟩)
      fun first t u hrun ht _ hfirst => ?_
    have hlt : t.size < s.size := Reading.size_lt hrun
    refine .bind_whole ht (stmts_settles ht) (fun u' h => h.imp fun _ h => hfirst.oneStmt h)
      fun more t₁ u' _ ht₁ _ hmore => ?_
    exact .pure ht₁ (by simpa [linearStmts] using hfirst.oneStmt hmore)
termination_by 4 * s.size + 3

end

/-! ## Items -/

theorem params_settles {lax : Bool} {s : Input} (hs : Lexed lax s.kinds) :
    Settles params (ListSettled lax .params Decl.render) (Derives lax (.list .params)) s := by
  rw [params_eq]
  exact commaList_settles hs (decl_settles hs) fun t hlt ht => params_settles ht
termination_by s.size

section

variable {lax : Bool} {s : Input} {w : List Kind} {spec : Specifier} {start : Span}

/-- The function after its specifier and its name. -/
theorem function_settles {name : Ident} (hret : Phrase lax .specifier w spec.render)
    (hname : isName name.name = true) (hs : Lexed lax s.kinds) :
    Settles (function start spec name)
      (fun i u _ => Phrase lax .item (w ++ .ident name.name :: u) i.linear)
      (fun u => Derives lax .item (w ++ .ident name.name :: u)) s := by
  have hclose {u : List Kind} (h : Derives lax (.list .params) u) : ∃ k,
      Derives lax .item (w ++ .ident name.name :: .mark .leftParen :: (u ++ k)) :=
    ⟨[.mark .rightParen, .mark .semicolon],
      by simpa using h.imp fun _ h => hret.prototype hname h⟩
  refine .mark hs (fun _ => ⟨_, _, hret.prototype hname .noElement⟩) fun left t _ ht => ?_
  refine .bind ht (params_settles ht) (fun u => hclose) fun ps t₁ u _ ht₁ _ hps => ?_
  refine .mark ht₁ (fun _ => ?_) fun right t₂ hk₂ ht₂ => ?_
  · obtain ⟨⟨k, h⟩, -⟩ := hps
    obtain ⟨k', h'⟩ := hclose h
    exact ⟨k ++ k', by simpa using h'⟩
  · have hlist := (hps.2 (Input.kind_of_kinds hk₂)).phrase
    refine .look local_kind ?_
    split
    · refine .bind_whole ht₂ (block_settles ht₂) ?_ fun body t₃ u' _ ht₃ _ hbody => ?_
      · rintro _ ⟨b, rfl, v, h⟩
        simpa using (hret.function hname hlist h).derives
      · obtain ⟨b, rfl, h⟩ := hbody
        refine .pure ht₃ ?_
        simpa [Item.linear, Signature.render] using hret.function hname hlist h
    · refine .mark ht₂ (fun _ => ⟨[.mark .semicolon], ?_⟩) fun semi t₃ _ ht₃ => .pure ht₃ ?_
      · simpa using (hret.prototype hname hlist).derives
      · simpa [Item.linear, Signature.render] using hret.prototype hname hlist

/-- The semicolon after a variable. -/
theorem global_settles {d : Declarator} (hdecl : Phrase lax .decl w (spec.render ++ d.render))
    (hs : Lexed lax s.kinds) :
    Settles (global start spec d) (fun i u _ => Phrase lax .item (w ++ u) i.linear)
      (fun u => Derives lax .item (w ++ u)) s := by
  refine .mark hs (fun _ => ⟨[.mark .semicolon], _, hdecl.global⟩) fun semi t _ ht => .pure ht ?_
  simpa [Item.linear, Decl.render] using hdecl.global

/-- What follows the specifier of a function or variable. -/
theorem named_settles (hspec : Phrase lax .specifier w spec.render) (hs : Lexed lax s.kinds) :
    Settles (named start spec) (fun i u _ => Phrase lax .item (w ++ u) i.linear)
      (fun u => Derives lax .item (w ++ u)) s := by
  have hsemi {u : List Kind} (h : Derives lax .declarator u) :
      ∃ k, Derives lax .item (w ++ (u ++ k)) :=
    ⟨[.mark .semicolon], by simpa using h.imp fun _ h => (hspec.decl h).global⟩
  refine .ident? hs (fun name t hname _ ht => ?_) fun _ => ?_
  · refine .look local_kind ?_
    split
    · exact function_settles hspec hname ht
    · refine .bind ht (arrays_settles (.declared hname) ht)
        (fun u h => hsemi (h.imp fun _ h => h.direct)) fun d t₁ u _ ht₁ _ hd => ?_
      simpa using global_settles (hspec.decl hd.direct) ht₁
  · refine .bind hs (declarator_settles hs) (fun u => hsemi) fun d t u _ ht _ hd => ?_
    simpa using global_settles (hspec.decl hd) ht

theorem item_settles (hs : Lexed lax s.kinds) :
    Settles item (fun i u _ => Phrase lax .item u i.linear) (Derives lax .item) s := by
  rw [item_eq]
  refine .look local_here (.bind hs (specifier_settles hs)
    (fun u h => ⟨[.mark .semicolon], h.imp fun _ h => h.tagOnly⟩) fun spec t u _ ht _ hspec => ?_)
  refine .mark? ht (fun semi t₁ _ ht₁ => .pure ht₁ ?_) fun _ => named_settles hspec ht
  simpa [Item.linear] using hspec.tagOnly

end

/-! ## Programs -/

/-- How the reading of a program ends. -/
inductive ProgramSettled (lax : Bool) (s : Input) : Prop
  | reads (items : List Item) (w : List Kind) : s.readItems = .ok items →
      s.kinds = w ++ [.eof] → Phrase lax .program w (items.flatMap Item.linear) →
      ProgramSettled lax s
  | fails (u : List Token) (t : Token) (w : List Token) (e : SyntaxError) :
      s.rest = u ++ t :: w → (∃ v, Derives lax .program (u.map (·.kind) ++ v)) →
      e.span = t.span → (∀ w', Input.readItems ⟨s.last, u ++ t :: w'⟩ = .error e) →
      ProgramSettled lax s

theorem program_settles {lax : Bool} {s : Input} (hs : Lexed lax s.kinds) :
    ProgramSettled lax s := by
  by_cases hkind : s.kind = .eof
  · obtain ⟨w, hw, heof⟩ := hs.ended
    cases w with
    | nil => exact .reads [] [] (by rw [Input.readItems, if_pos hkind]) hw .noItem
    | cons c w =>
      rw [Input.kind_of_kinds hw] at hkind
      exact absurd (hkind ▸ List.mem_cons_self) heof
  · -- the first token is the same for all inputs that agree up to the token of the error
    have hsame {u w : List Token} {t : Token} (h : s.rest = u ++ t :: w) (w' : List Token) :
        Input.kind ⟨s.last, u ++ t :: w'⟩ ≠ .eof := by
      have hhead : s.rest.head? = (u ++ t :: w').head? := by
        rw [h]
        cases u <;> rfl
      exact fun heof => hkind ((local_kind s ⟨s.last, u ++ t :: w'⟩ rfl hhead).trans heof)
    cases item_settles hs with
    | fails u t w e hrest hv hspan hrun =>
      obtain ⟨v, v', hv⟩ := hv
      refine .fails u t w e hrest ⟨v, ?_⟩ hspan fun w' => ?_
      · simpa using (hv.oneItem .noItem).derives
      · exact readItems_of_error (hsame hrest w') (hrun w')
    | reads u t w i last hrest hi hrun =>
      have hread : item s = .ok (i, ⟨last, t :: w⟩) := by
        rw [← hrun w, ← hrest]
      have hlt : Input.size ⟨last, t :: w⟩ < s.size := Reading.size_lt hread
      have hkinds : s.kinds = u.map (·.kind) ++ Input.kinds ⟨last, t :: w⟩ := by
        rw [Input.kinds, hrest, List.map_append]
        rfl
      have hnext : Lexed lax (Input.kinds ⟨last, t :: w⟩) :=
        (hkinds ▸ hs).of_append (by simp [Input.kinds])
      cases program_settles hnext with
      | reads items k hitems hk hphrase =>
        refine .reads (i :: items) (u.map (·.kind) ++ k) ?_ ?_ ?_
        · rw [readItems_of_ok hkind hread, hitems]
          rfl
        · rw [hkinds, hk, List.append_assoc]
        · simpa using hi.oneItem hphrase
      | fails u₂ t₂ w₂ e hrest₂ hv hspan hrun₂ =>
        obtain ⟨v, v', hv⟩ := hv
        refine .fails (u ++ u₂) t₂ w₂ e ?_ ⟨v, ?_⟩ hspan fun w' => ?_
        · rw [hrest, List.append_assoc]
          exact congrArg (u ++ ·) hrest₂
        · simpa using (hi.oneItem hv).derives
        · obtain ⟨w₁, hw₁⟩ := Settles.cons_of_append hrest₂ w'
          rw [List.append_assoc, hw₁, readItems_of_ok (hsame hrest w₁) (hrun w₁), ← hw₁, hrun₂ w']
          rfl
termination_by s.size

end MiniC
