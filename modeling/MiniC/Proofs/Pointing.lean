import MiniC.Proofs.Increment
import MiniC.Proofs.SourceRanges

/-!
# What errors and symbols point at

An error or a symbol takes its name and its span from one identifier of the program
(`Program.errors_anchored`, `Program.symbols_anchored`), and an identifier of a program that was
read from a source is a token of it, which covers its name.
-/

namespace MiniC

/-! ## Identifiers of a program -/

/-- The symbol is about one of the identifiers, and is placed there. -/
def Symbol.Anchored (ids : List Ident) (x : Symbol) : Prop :=
  ∃ id ∈ ids, x.name = id.name ∧ x.span = id.span

theorem id_mem_of_occurrences {items : List Item} {o : Occurrence} (h : o ∈ occurrences items) :
    o.id ∈ items.flatMap Item.idents := by
  induction items using List.reverseRecOn with
  | nil => cases h
  | append_singleton before item ih =>
    rw [occurrences_concat, List.mem_append, Option.mem_toList] at h
    rw [List.flatMap_append, List.flatMap_singleton, List.mem_append]
    rcases h with h | h
    · exact .inl (ih h)
    · exact .inr (Item.id_mem_of_occurrence? h)

/-- A symbol stands where its name first occurs. -/
theorem exists_occurrence_of_symbol {os : List Occurrence} {x : Symbol} (hx : x ∈ symbolsOf os) :
    ∃ o ∈ os, x.name = o.id.name ∧ x.span = o.id.span := by
  -- the symbols of this name are at most one, made from the first occurrence
  have hmem : x ∈ (symbolsOf os).filter (·.name = x.name) := by simp [hx]
  rw [filter_symbolsOf, Option.mem_toList] at hmem
  cases hnamed : named os x.name with
  | nil =>
    rw [hnamed] at hmem
    cases hmem
  | cons first more =>
    have hfirst : first ∈ named os x.name := by simp [hnamed]
    rw [hnamed] at hmem
    cases hmem
    exact ⟨first, (List.mem_filter.1 hfirst).1, rfl, rfl⟩

namespace Program

/-- The identifiers that stand in a program, the member names after `.` and `->` apart. -/
def idents (p : Program) : List Ident := p.items.flatMap Item.idents

theorem symbols_anchored (p : Program) : ∀ x ∈ p.run.result.symbols, x.Anchored p.idents := by
  intro x hx
  rw [symbols_run] at hx
  rw [(records_stateAfter p.items).symbols_eq] at hx
  obtain ⟨o, ho, hname, hspan⟩ := exists_occurrence_of_symbol hx
  exact ⟨o.id, id_mem_of_occurrences ho, hname, hspan⟩

theorem immediate_anchored (items : List Item) :
    ∀ e ∈ immediate ⟨items⟩, e.Anchored (items.flatMap Item.idents) := by
  induction items using List.reverseRecOn with
  | nil =>
    intro e he
    cases he
  | append_singleton before item ih =>
    intro e he
    rw [immediate_concat, List.mem_append] at he
    rw [List.flatMap_append, List.flatMap_singleton]
    rcases he with he | he
    · exact (ih e he).mono (List.subset_append_left _ _)
    · exact ((item.check_extends _).anchored e he).mono (List.subset_append_right _ _)

/-- Errors that are not reported at once are about variables that have symbols. -/
theorem errors_anchored (p : Program) : ∀ e ∈ p.run.errors, e.Anchored p.idents := by
  intro e he
  rw [errors_run, List.mem_append] at he
  rcases he with he | he
  · exact immediate_anchored p.items e he
  · rw [deferred_eq_waiting] at he
    obtain ⟨x, hx, rfl⟩ := List.mem_map.1 he
    have hmem : x ∈ p.run.result.symbols := List.mem_of_mem_filter (List.mem_of_mem_filter hx)
    obtain ⟨id, hid, hname, hspan⟩ := p.symbols_anchored x hmem
    refine ⟨.incompleteType, id, hid, ?_⟩
    rw [Symbol.incompleteError, hname, hspan, SemanticError.atIdent]

end Program

/-! ## Identifiers of an outline -/

namespace Outline

mutual

/-- The identifiers in an outline. -/
def idents : Outline → List Ident
  | .name id => [id]
  | .node _ parts => identsOf parts

def identsOf : List Outline → List Ident
  | [] => []
  | o :: os => o.idents ++ identsOf os

end

mutual

theorem Lies.isToken {source : String} {i j : Nat} :
    (o : Outline) → o.Lies source i j → ∀ id ∈ o.idents, id.IsToken source
  | .name id, h, id', hid => by
    rw [idents, List.mem_singleton] at hid
    exact hid ▸ h.1
  | .node _ parts, h, id, hid => InRow.isToken parts h.1 id hid

theorem InRow.isToken {source : String} {i j : Nat} :
    (os : List Outline) → InRow source i j os → ∀ id ∈ identsOf os, id.IsToken source
  | [], _, _, hid => by cases hid
  | o :: os, ⟨_, ho, hos⟩, id, hid => by
    rw [identsOf, List.mem_append] at hid
    rcases hid with hid | hid
    · exact Lies.isToken o ho id hid
    · exact InRow.isToken os hos id hid

end

theorem identsOf_eq (os : List Outline) : identsOf os = os.flatMap idents := by
  induction os with
  | nil => rfl
  | cons o os ih => rw [identsOf, ih, List.flatMap_cons]

end Outline

open Outline

theorem Declarator.core_mem : (d : Declarator) → d.core ∈ d.outline.idents
  | .ident id => List.mem_singleton_self id
  | .array inner _ _ | .pointer inner _ | .paren inner _ => List.mem_append_left _ inner.core_mem

mutual

theorem Specifier.idents_sublist : (spec : Specifier) → spec.idents.Sublist spec.outline.idents
  | .int _ | .char _ => .slnil
  | .structRef tag _ => .refl [tag]
  | .structDef tag members _ => (memberIdents_sublist members).cons_cons tag

theorem Decl.idents_sublist : (d : Decl) → d.idents.Sublist d.outline.idents
  | ⟨specifier, declarator, _⟩ =>
    specifier.idents_sublist.append
      (List.singleton_sublist.2 (List.mem_append_left _ declarator.core_mem))

theorem memberIdents_sublist :
    (ds : List Decl) → (memberIdents ds).Sublist (identsOf (declOutlines ds))
  | [] => .slnil
  | d :: more => d.idents_sublist.append (memberIdents_sublist more)

end

mutual

theorem Expr.names_sublist : (e : Expr) → e.names.Sublist e.outline.idents
  | .literal _ _ => .slnil
  | .name id => .refl [id]
  | .binary _ left right _ | .index left right _ =>
    left.names_sublist.append (right.names_sublist.trans (List.sublist_append_left _ _))
  | .unary _ operand _ => operand.names_sublist.trans (List.sublist_append_left _ _)
  | .call callee args _ => callee.names_sublist.append (exprNames_sublist args)
  | .member base _ _ _ => base.names_sublist.trans (List.sublist_append_left _ _)

theorem exprNames_sublist :
    (es : List Expr) → (exprNames es).Sublist (identsOf (exprOutlines es))
  | [] => .slnil
  | e :: more => e.names_sublist.append (exprNames_sublist more)

end

theorem optionNames_sublist :
    (e : Option Expr) → (optionNames e).Sublist (identsOf (optionOutlines e))
  | none => .slnil
  | some e => e.names_sublist.trans (List.sublist_append_left _ _)

mutual

theorem Stmt.idents_sublist : (stmt : Stmt) → stmt.idents.Sublist stmt.outline.idents
  | .block stmts _ => stmtIdents_sublist stmts
  | .varDecl decl init _ => decl.idents_sublist.append (optionNames_sublist init)
  | .expr value => value.names_sublist
  | .ret value _ => optionNames_sublist value
  | .ifThen cond yes _ =>
    cond.names_sublist.append (yes.idents_sublist.trans (List.sublist_append_left _ _))
  | .ifElse cond yes no _ =>
    cond.names_sublist.append (yes.idents_sublist.append
      (no.idents_sublist.trans (List.sublist_append_left _ _)))
  | .loop cond body _ =>
    cond.names_sublist.append (body.idents_sublist.trans (List.sublist_append_left _ _))
  | .brk _ | .cont _ | .empty _ => .slnil

theorem stmtIdents_sublist :
    (stmts : List Stmt) → (stmtIdents stmts).Sublist (identsOf (stmtOutlines stmts))
  | [] => .slnil
  | stmt :: more => stmt.idents_sublist.append (stmtIdents_sublist more)

end

/-- The name of a function comes before its parameters in the outline. -/
theorem Item.idents_subset (item : Item) : item.idents ⊆ item.outline.idents := by
  cases item with
  | function sig body =>
    have hret := sig.ret.idents_sublist.subset
    have hparams := (memberIdents_sublist sig.params).subset
    have hbody := (stmtIdents_sublist body.stmts).subset
    intro id hid
    simp only [Item.idents, Signature.idents, List.mem_append, List.mem_singleton] at hid
    simp only [Item.outline, Outline.idents, identsOf, identsOf_eq (_ ++ _), List.flatMap_append,
      ← identsOf_eq, Block.outline, List.mem_append, List.mem_singleton]
    tauto
  | prototype sig =>
    have hret := sig.ret.idents_sublist.subset
    have hparams := (memberIdents_sublist sig.params).subset
    intro id hid
    simp only [Item.idents, Signature.idents, List.mem_append, List.mem_singleton] at hid
    simp only [Item.outline, Outline.idents, identsOf, List.mem_append, List.mem_singleton]
    tauto
  | global decl => exact decl.idents_sublist.subset
  | tagOnly specifier => exact specifier.idents_sublist.subset

/-- The identifiers of a program that is read from a source are tokens of it. -/
theorem Program.isToken_of_parse {source : String} {p : Program}
    (h : Program.parse source = .ok p) : ∀ id ∈ p.idents, id.IsToken source := by
  intro id hid
  obtain ⟨j, hrow⟩ := inRow_of_parse h
  obtain ⟨item, hitem, hid⟩ := List.mem_flatMap.1 hid
  apply hrow.isToken
  rw [identsOf_eq, outlines, List.flatMap_map, List.mem_flatMap]
  exact ⟨item, hitem, item.idents_subset hid⟩

/-! ## The text -/

/-- The name stands in the source at the span, as an identifier token. -/
structure NamedAt (source name : String) (span : Span) : Prop where
  text : String.ofList (source.toList.extract span.start span.stop) = name
  range : span.InText source.toList
  token : ⟨.ident name, span⟩ ∈ Token.ofSource source

theorem Ident.IsToken.namedAt {source : String} {p : Program} (h : Program.parse source = .ok p)
    {id : Ident} (hid : id.IsToken source) : NamedAt source id.name id.span where
  text := Cursor.extract_of_ident (.ofSource source) hid rfl
  range := Token.inText_of_parse h hid nofun
  token := hid

/-- **Errors and symbols name what they point at.** Their spans are those of identifier tokens of
the source, and the text there is the name. -/
theorem run_points_at_names {source : String} {p : Program} (h : Program.parse source = .ok p) :
    (∀ e ∈ p.run.errors, NamedAt source e.name e.span) ∧
      ∀ x ∈ p.run.result.symbols, NamedAt source x.name x.span := by
  refine ⟨fun e he => ?_, fun x hx => ?_⟩
  · obtain ⟨kind, id, hid, rfl⟩ := p.errors_anchored e he
    exact (Program.isToken_of_parse h id hid).namedAt h
  · obtain ⟨id, hid, hname, hspan⟩ := p.symbols_anchored x hx
    rw [hname, hspan]
    exact (Program.isToken_of_parse h id hid).namedAt h

/-- One error of each kind, the deferred one at the variable of the first line. -/
def allErrors : String := "struct S x;\nint f(int a) { int a; return b; }\nint *(f);"

theorem allErrors_points_at_names : ∃ p, Program.parse allErrors = .ok p ∧
    p.run.errors = [⟨.redefinition, "a", ⟨31, 32, 2, 20⟩⟩, ⟨.undeclaredUse, "b", ⟨41, 42, 2, 30⟩⟩,
      ⟨.redeclaration, "f", ⟨52, 53, 3, 7⟩⟩, ⟨.incompleteType, "x", ⟨9, 10, 1, 10⟩⟩] ∧
    (∀ e ∈ p.run.errors, NamedAt allErrors e.name e.span) ∧
      ∀ x ∈ p.run.result.symbols, NamedAt allErrors x.name x.span := by
  have herrors : (Program.parse allErrors).map (·.run.errors) =
      .ok [⟨.redefinition, "a", ⟨31, 32, 2, 20⟩⟩, ⟨.undeclaredUse, "b", ⟨41, 42, 2, 30⟩⟩,
        ⟨.redeclaration, "f", ⟨52, 53, 3, 7⟩⟩, ⟨.incompleteType, "x", ⟨9, 10, 1, 10⟩⟩] := by
    decide +kernel
  obtain ⟨p, hp, herrors⟩ := Program.exists_parse_of_map herrors
  exact ⟨p, hp, herrors, run_points_at_names hp⟩

end MiniC
