import MiniC.Proofs.Outline.Basic
import MiniC.Syntax.Program

/-!
# Outlines of what is read

Readers take tokens from the front of an input whose tokens lie in the source in order
(`Input.Ahead`). What a reader passes over reaches from its first token to the last one taken
(`Input.Passed`), and what it gives has an outline that lies there. `Lays s r Q` says both of a
reading that starts at `s`. A reader that goes on with a tree, or reads a list, starts after other
tokens: it is given that they were passed, and what it gives lies from the first of them on.
-/

namespace MiniC

open Outline

namespace Input

/-- Where the next token starts. -/
abbrev front (s : Input) : Nat := s.current.span.start

/-- Where the token taken last ends. -/
abbrev rear (s : Input) : Nat := s.last.stop

/-- What is left are tokens of the source, in order and after the one taken last, with the end mark
as the last of them. Those before the end mark lie in the source. -/
structure Ahead (source : String) (s : Input) : Prop where
  ended : ∃ ts e, s.rest = ts ++ [e] ∧ e.kind = .eof
  mem : ∀ t ∈ s.rest, t ∈ Token.ofSource source
  range : ∀ t ∈ s.rest, t.kind ≠ .eof → t.span.InText source.toList
  ordered : s.rest.Pairwise (·.span.stop ≤ ·.span.start)
  after : ∀ t ∈ s.rest, s.rear ≤ t.span.start

/-- One or more tokens were taken from `s` to get to `t`. -/
structure Passed (source : String) (s t : Input) : Prop where
  behind : s.Ahead source
  first : s.current.span.InText source.toList
  last : t.last.InText source.toList
  start_le : s.current.span.start ≤ t.last.start
  stop_le : s.current.span.stop ≤ t.last.stop
  ahead : t.Ahead source

section

variable {source : String} {s t u : Input} {os : List Outline}

theorem Ahead.rear_le (hs : s.Ahead source) : s.rear ≤ s.front := by
  obtain ⟨last, rest⟩ := s
  cases rest with
  | nil =>
    obtain ⟨ts, e, hrest, -⟩ := hs.ended
    simp at hrest
  | cons t rest => exact hs.after t List.mem_cons_self

theorem Passed.front_lt_rear (h : s.Passed source t) : s.front < t.rear :=
  Nat.lt_of_lt_of_le h.first.start_lt h.stop_le

theorem Passed.front_le (h : s.Passed source t) : s.front ≤ t.front :=
  Nat.le_trans (Nat.le_of_lt h.front_lt_rear) h.ahead.rear_le

theorem Passed.rear_le (h : s.Passed source t) : s.rear ≤ t.rear :=
  Nat.le_trans h.behind.rear_le (Nat.le_of_lt h.front_lt_rear)

theorem Passed.rear_le_front (h : s.Passed source t) : s.rear ≤ t.front :=
  Nat.le_trans h.rear_le h.ahead.rear_le

theorem Passed.rear_le_last (h : s.Passed source t) : s.rear ≤ t.last.start :=
  Nat.le_trans h.behind.rear_le h.start_le

theorem Passed.trans (h : s.Passed source t) (h' : t.Passed source u) : s.Passed source u := by
  have hstart : s.current.span.start ≤ u.last.start := Nat.le_trans h.front_le h'.start_le
  have hstop : s.current.span.stop ≤ u.last.stop := Nat.le_trans h.stop_le h'.rear_le
  exact ⟨h.behind, h.first, h'.last, hstart, hstop, h'.ahead⟩

/-- A node from the first to the last token that was passed. -/
theorem Passed.lies (h : s.Passed source t) (hos : InRow source s.front t.rear os) :
    (node (s.current.span.join t.last) os).Lies source s.front t.rear :=
  lies_join h.first h.last h.start_le h.stop_le hos

theorem Passed.lies_nil (h : s.Passed source t) :
    (node (s.current.span.join t.last) []).Lies source s.front t.rear :=
  h.lies (Nat.le_of_lt h.front_lt_rear)

/-- A node from the first token that was passed to the end of what comes next. -/
theorem Passed.lies_upto {b : Span} (h : s.Passed source t) (hb : b.InText source.toList)
    (hstart : t.front ≤ b.start) (hos : InRow source s.front b.stop os) :
    (node (s.current.span.join b) os).Lies source s.front b.stop := by
  have hstop : s.current.span.stop ≤ b.stop := by
    have hlast := h.stop_le
    have hgap := h.ahead.rear_le
    have hlt := hb.start_lt
    simp only [rear, front] at hgap hstart
    omega
  exact lies_join h.first hb (Nat.le_trans h.front_le hstart) hstop hos

/-- A node for the first token alone. -/
theorem Passed.lies_first (h : s.Passed source t) :
    (node s.current.span []).Lies source s.front t.rear :=
  ⟨Nat.le_of_lt h.first.start_lt, h.first, Nat.le_refl _, h.stop_le⟩

end

/-- If the reading succeeds, tokens were passed, and its value and the input after it have `Q`. -/
def Lays (source : String) (s : Input) (r : Reading α n) (Q : α → Input → Prop) : Prop :=
  ∀ p, r = .ok p → s.Passed source p.input ∧ Q p.value p.input

namespace Lays

variable {source : String} {α β : Type} {n m : Nat} {o s : Input} {P : α → Input → Prop}
  {Q : β → Input → Prop}

protected theorem ok {p : Parsed α n} (hp : s.Passed source p.input) (hv : P p.value p.input) :
    Lays source s (.ok p) P := by
  rintro _ ⟨⟩
  exact ⟨hp, hv⟩

protected theorem error {e : SyntaxError} : Lays source s (.error e : Reading α n) P :=
  fun _ h => by cases h

protected theorem bind {r : Reading α n} {f : Parsed α n → Reading β m} (hr : Lays source s r P)
    (hf : ∀ p, s.Passed source p.input → P p.value p.input → Lays source o (f p) Q) :
    Lays source o (r >>= f) Q := by
  intro q hq
  cases r with
  | error e => cases hq
  | ok p =>
    obtain ⟨hp, hv⟩ := hr p rfl
    exact hf p hp hv q hq

end Lays

/-! ## Tokens -/

section

variable {source : String} {s : Input} (hs : s.Ahead source)

include hs

/-- Taking a token that is not the end mark. -/
theorem accept?_passed {α : Type} {f : Kind → Option α} (heof : f .eof = none)
    {p : Parsed α s.size} (h : s.accept? f = some p) :
    s.Passed source p.input ∧ p.input.last = s.current.span ∧
      s.current ∈ Token.ofSource source ∧ f s.current.kind = some p.value := by
  obtain ⟨last, _ | ⟨t, rest⟩⟩ := s
  · cases h
  · obtain ⟨a, ha, rfl⟩ := Option.map_eq_some_iff.1 h
    have hkind : t.kind ≠ .eof := by
      intro heq
      rw [heq, heof] at ha
      cases ha
    have hrange := hs.range t List.mem_cons_self hkind
    obtain ⟨hafter, hordered⟩ := List.pairwise_cons.1 hs.ordered
    have hended : ∃ ts e, rest = ts ++ [e] ∧ e.kind = .eof := by
      obtain ⟨ts, e, hrest, he⟩ := hs.ended
      cases ts with
      | nil =>
        obtain ⟨rfl, -⟩ := List.cons.inj hrest
        exact absurd he hkind
      | cons _ ts => exact ⟨ts, e, (List.cons.inj hrest).2, he⟩
    have hahead : Ahead source ⟨t.span, rest⟩ :=
      { ended := hended
        mem := fun u hu => hs.mem u (List.mem_cons_of_mem t hu)
        range := fun u hu => hs.range u (List.mem_cons_of_mem t hu)
        ordered := hordered
        after := hafter }
    exact ⟨⟨hs, hrange, hrange, Nat.le_refl _, Nat.le_refl _, hahead⟩, rfl,
      hs.mem t List.mem_cons_self, ha⟩

/-- Taking a token of one kind for its span. -/
theorem accept?_span {c : Kind} (hc : c ≠ .eof) {p : Parsed Span s.size}
    (h : s.accept? (fun k => if k = c then some s.current.span else none) = some p) :
    s.Passed source p.input ∧ p.value = s.current.span ∧ p.input.last = p.value := by
  obtain ⟨hp, hlast, -, hf⟩ := accept?_passed hs (if_neg (Ne.symm hc)) h
  split at hf
  · have hspan := Option.some.inj hf
    exact ⟨hp, hspan.symm, hlast.trans hspan⟩
  · cases hf

theorem mark?_passed {m : Mark} {p : Parsed Span s.size} (h : s.mark? m = some p) :
    s.Passed source p.input ∧ p.value = s.current.span ∧ p.input.last = p.value :=
  accept?_span hs (by simp) h

theorem keyword?_passed {w : Keyword} {p : Parsed Span s.size} (h : s.keyword? w = some p) :
    s.Passed source p.input ∧ p.value = s.current.span ∧ p.input.last = p.value :=
  accept?_span hs (by simp) h

theorem ident?_passed {p : Parsed Ident s.size} (h : s.ident? = some p) :
    s.Passed source p.input ∧ p.value.IsToken source ∧ p.value.span = s.current.span ∧
      p.input.last = p.value.span := by
  obtain ⟨hp, hlast, hmem, hf⟩ := accept?_passed hs rfl h
  split at hf
  · rename_i name hname
    have hid := Option.some.inj hf
    rw [← hid]
    refine ⟨hp, ?_, rfl, hlast⟩
    rw [Ident.IsToken, ← hname]
    exact hmem
  · cases hf

theorem readMark_lays (m : Mark) :
    Lays source s (s.readMark m) fun span t => span = s.current.span ∧ t.last = span := by
  unfold readMark
  split
  · rename_i p hp
    obtain ⟨hpass, hspan⟩ := mark?_passed hs hp
    exact .ok hpass hspan
  · exact .error

theorem readIdent_lays :
    Lays source s s.readIdent fun id t =>
      id.IsToken source ∧ id.span = s.current.span ∧ t.last = id.span := by
  unfold readIdent
  split
  · rename_i p hp
    obtain ⟨hpass, hid⟩ := ident?_passed hs hp
    exact .ok hpass hid
  · exact .error

theorem readInteger_lays : Lays source s s.readInteger fun _ _ => True := by
  unfold readInteger
  split
  · rename_i p hp
    exact .ok (accept?_passed hs rfl hp).1 trivial
  · exact .error

end

/-- A name that was taken from an input. -/
theorem Passed.lies_name {source : String} {s t : Input} {id : Ident} (h : s.Passed source t)
    (hid : id.IsToken source ∧ id.span = s.current.span ∧ t.last = id.span) :
    (name id).Lies source s.front t.rear := by
  obtain ⟨htoken, hspan, hlast⟩ := hid
  refine ⟨htoken, hspan ▸ h.first, by rw [hspan], by rw [← hlast]⟩

/-! ## Declarations -/

theorem readBound_lays {source : String} {s : Input} (hs : s.Ahead source) :
    Lays source s s.readBound fun size t => size.outline.Lies source s.front t.rear := by
  unfold readBound
  split
  · rename_i minus hminus
    obtain ⟨hm, hspan, -⟩ := mark?_passed hs hminus
    refine (readInteger_lays hm.ahead).bind fun digits hd _ => ?_
    have hp := hm.trans hd
    refine .ok hp ?_
    rw [hspan]
    exact hp.lies_nil
  · refine (readInteger_lays hs).bind fun digits hd _ => ?_
    exact .ok hd hd.lies_nil

theorem readArrays_lays {source : String} {o : Input} (inner : Declarator) (s : Input)
    (hos : o.Passed source s) (hinner : inner.outline.Lies source o.front s.rear) :
    Lays source o (readArrays o.current.span inner s) fun d t =>
      d.outline.Lies source o.front t.rear := by
  rw [readArrays]
  split
  · exact .ok hos hinner
  · rename_i left hleft
    obtain ⟨hl, -⟩ := mark?_passed hos.ahead hleft
    refine (readBound_lays hl.ahead).bind fun size hb hsize => ?_
    refine (readMark_lays hb.ahead _).bind fun right hr hright => ?_
    have hp := hos.trans (hl.trans (hb.trans hr))
    have harray : (Declarator.array inner size.value (o.current.span.join right.value)).outline.Lies
        source o.front right.input.rear := by
      rw [← hright.2]
      exact hp.lies (.two hinner hl.rear_le_front (hsize.mono (Nat.le_refl _) hr.rear_le))
    exact (readArrays_lays _ right.input hp harray).bind fun d hd hlies => .ok hd hlies
termination_by s.size
-- the sizes in the types of what was read decide this, none of the facts about places
decreasing_by all_goals (clear * -; grind)

theorem readDeclarator_lays {source : String} (s : Input) (hs : s.Ahead source) :
    Lays source s s.readDeclarator fun d t => d.outline.Lies source s.front t.rear := by
  rw [readDeclarator]
  split
  · rename_i star hstar
    obtain ⟨hp, hspan, -⟩ := mark?_passed hs hstar
    refine (readDeclarator_lays star.input hp.ahead).bind fun inner hi hinner => ?_
    have hpi := hp.trans hi
    refine .ok hpi ?_
    rw [hspan]
    exact hpi.lies (.one (hinner.mono hp.front_le (Nat.le_refl _)))
  · split
    · rename_i id hid
      obtain ⟨hp, hname⟩ := ident?_passed hs hid
      have hlies := hp.lies_name hname
      rw [hname.2.1]
      refine (readArrays_lays (.ident id.value) id.input hp hlies).bind fun d hd hlies => ?_
      exact .ok hd hlies
    · split
      · rename_i left hleft
        obtain ⟨hl, hspan, -⟩ := mark?_passed hs hleft
        refine (readDeclarator_lays left.input hl.ahead).bind fun inner hi hinner => ?_
        refine (readMark_lays hi.ahead _).bind fun right hr hright => ?_
        have hp := hl.trans (hi.trans hr)
        have hparen : (Declarator.paren inner.value (s.current.span.join right.value)).outline.Lies
            source s.front right.input.rear := by
          rw [← hright.2]
          exact hp.lies (.one (hinner.mono hl.front_le hr.rear_le))
        rw [hspan]
        exact (readArrays_lays _ right.input hp hparen).bind fun d hd hlies => .ok hd hlies
      · exact .error
termination_by s.size
decreasing_by all_goals (clear * -; grind)

mutual

theorem readSpecifier_lays {source : String} (s : Input) (hs : s.Ahead source) :
    Lays source s s.readSpecifier fun spec t => spec.outline.Lies source s.front t.rear := by
  rw [readSpecifier]
  split
  · rename_i int hint
    obtain ⟨hp, hspan, -⟩ := keyword?_passed hs hint
    refine .ok hp ?_
    rw [hspan]
    exact hp.lies_first
  · split
    · rename_i char hchar
      obtain ⟨hp, hspan, -⟩ := keyword?_passed hs hchar
      refine .ok hp ?_
      rw [hspan]
      exact hp.lies_first
    · split
      · exact .error
      · rename_i struct hstruct
        obtain ⟨hk, hspan, -⟩ := keyword?_passed hs hstruct
        rw [hspan]
        refine (readIdent_lays hk.ahead).bind fun tag ht htag => ?_
        have hname := ht.lies_name htag
        split
        · have hp := hk.trans ht
          refine .ok hp ?_
          rw [← htag.2.2]
          exact hp.lies (.one (hname.mono hk.front_le (Nat.le_refl _)))
        · rename_i left hleft
          obtain ⟨hl, -⟩ := mark?_passed ht.ahead hleft
          refine (readMembers_lays left.input hl).bind fun members hm hmembers => ?_
          refine (readMark_lays hm.ahead _).bind fun right hr hright => ?_
          have hp := (hk.trans ht).trans (hm.trans hr)
          refine .ok hp ?_
          rw [← hright.2]
          apply hp.lies
          exact .cons (hname.mono hk.front_le (Nat.le_refl _)) hl.rear_le
            (hmembers.mono (Nat.le_refl _) hr.rear_le)
termination_by 3 * s.size
decreasing_by all_goals (clear * -; grind)

theorem readDecl_lays {source : String} (s : Input) (hs : s.Ahead source) :
    Lays source s s.readDecl fun decl t => decl.outline.Lies source s.front t.rear := by
  rw [readDecl]
  refine (readSpecifier_lays s hs).bind fun spec hp hspec => ?_
  refine (readDeclarator_lays spec.input hp.ahead).bind fun d hd hdecl => ?_
  have hpd := hp.trans hd
  exact .ok hpd (hpd.lies (.two hspec hp.ahead.rear_le hdecl))
termination_by 3 * s.size + 1
decreasing_by all_goals (clear * -; grind)

theorem readMembers_lays {source : String} {o : Input} (s : Input) (hos : o.Passed source s) :
    Lays source o s.readMembers fun members t =>
      InRow source s.rear t.rear (declOutlines members) := by
  rw [readMembers]
  split
  · exact .ok hos (Nat.le_refl _)
  · refine (readDecl_lays s hos.ahead).bind fun decl hd hdecl => ?_
    refine (readMark_lays hd.ahead _).bind fun semi hs _ => ?_
    refine (readMembers_lays semi.input (hos.trans (hd.trans hs))).bind fun more hm hmore => ?_
    exact .ok hm (.cons (hdecl.mono hos.ahead.rear_le (Nat.le_refl _)) hs.rear_le hmore)
termination_by 3 * s.size + 2
decreasing_by all_goals (clear * -; grind)

end

/-! ## Expressions -/

mutual

theorem readExpr_lays {source : String} (least : Nat) (s : Input) (hs : s.Ahead source) :
    Lays source s (readExpr least s) fun e t => e.outline.Lies source s.front t.rear := by
  rw [readExpr]
  refine (readOperand_lays s hs).bind fun left hl hleft => ?_
  exact (readOperators_lays least _ left.input hl hleft).bind fun e he hlies => .ok he hlies
termination_by 6 * s.size + 3
decreasing_by all_goals (clear * -; grind)

theorem readOperators_lays {source : String} {o : Input} (least : Nat) (left : Expr) (s : Input)
    (hos : o.Passed source s) (hleft : left.outline.Lies source o.front s.rear) :
    Lays source o (readOperators least left s) fun e t =>
      e.outline.Lies source o.front t.rear := by
  rw [readOperators]
  split
  · exact .ok hos hleft
  · rename_i op hop
    split
    · exact .ok hos hleft
    · have ho := (accept?_passed hos.ahead rfl hop).1
      refine (readExpr_lays _ op.input ho.ahead).bind fun right hr hright => ?_
      have hbinary : (Expr.binary op.value left right.value
          (left.span.join right.value.span)).outline.Lies source o.front right.input.rear := by
        -- parentheses around an operand are not in its span, which can end before the last token
        obtain ⟨hspan, hstart, hstop⟩ := hright.span
        rw [Expr.span_eq, Expr.span_eq]
        have hle := Nat.le_trans ho.rear_le_front hstart
        have hlies := hleft.extend hspan hle (.one (hright.move hle (Nat.le_refl _)))
        exact hlies.mono (Nat.le_refl _) hstop
      exact (readOperators_lays least _ right.input (hos.trans (ho.trans hr)) hbinary).bind
        fun e he hlies => .ok he hlies
termination_by 6 * s.size + 4
decreasing_by all_goals (clear * -; grind)

theorem readOperand_lays {source : String} (s : Input) (hs : s.Ahead source) :
    Lays source s s.readOperand fun e t => e.outline.Lies source s.front t.rear := by
  rw [readOperand]
  split
  · rename_i op hop
    obtain ⟨ho, hlast, -⟩ := accept?_passed hs rfl hop
    refine (readOperand_lays op.input ho.ahead).bind fun e he hlies => ?_
    refine .ok (ho.trans he) ?_
    obtain ⟨hspan, hstart, hstop⟩ := hlies.span
    rw [hlast, Expr.span_eq]
    have hoperand := hlies.move (Nat.le_trans ho.front_le hstart) (Nat.le_refl _)
    exact (ho.lies_upto hspan hstart (.one hoperand)).mono (Nat.le_refl _) hstop
  · refine (readPrimary_lays s hs).bind fun base hb hbase => ?_
    exact (readTrailers_lays base.value base.input hb hbase).bind fun e he hlies => .ok he hlies
termination_by 6 * s.size + 2
decreasing_by all_goals (clear * -; grind)

theorem readPrimary_lays {source : String} (s : Input) (hs : s.Ahead source) :
    Lays source s s.readPrimary fun e t => e.outline.Lies source s.front t.rear := by
  rw [readPrimary]
  split
  · rename_i literal hliteral
    obtain ⟨hp, hlast, -⟩ := accept?_passed hs rfl hliteral
    refine .ok hp ?_
    rw [hlast]
    exact hp.lies_first
  · split
    · rename_i id hid
      obtain ⟨hp, hname⟩ := ident?_passed hs hid
      exact .ok hp (hp.lies_name hname)
    · split
      · rename_i left hleft
        obtain ⟨hl, -⟩ := mark?_passed hs hleft
        refine (readExpr_lays 0 left.input hl.ahead).bind fun e he hlies => ?_
        refine (readMark_lays he.ahead _).bind fun right hr _ => ?_
        have hlies' : e.value.outline.Lies source s.front right.input.rear :=
          hlies.mono hl.front_le hr.rear_le
        exact .ok (hl.trans (he.trans hr)) hlies'
      · exact .error
termination_by 6 * s.size + 1
decreasing_by all_goals (clear * -; grind)

theorem readTrailers_lays {source : String} {o : Input} (base : Expr) (s : Input)
    (hos : o.Passed source s) (hbase : base.outline.Lies source o.front s.rear) :
    Lays source o (readTrailers base s) fun e t => e.outline.Lies source o.front t.rear := by
  rw [readTrailers]
  split
  · exact .ok hos hbase
  · rename_i left hleft
    have hl := (accept?_passed hos.ahead rfl hleft).1
    rw [Expr.span_eq]
    split
    · refine (readArgs_lays left.input hl).bind fun args ha hargs => ?_
      refine (readMark_lays ha.ahead _).bind fun right hr hright => ?_
      have hcall : (Expr.call base args.value (base.outline.span.join right.value)).outline.Lies
          source o.front right.input.rear := by
        rw [← hright.2]
        exact hbase.extend hr.last (ha.trans hr).rear_le_last (hargs.mono hl.rear_le hr.rear_le)
      exact (readTrailers_lays _ right.input (hos.trans (ha.trans hr)) hcall).bind
        fun e he hlies => .ok he hlies
    · refine (readExpr_lays 0 left.input hl.ahead).bind fun offset hi hoffset => ?_
      refine (readMark_lays hi.ahead _).bind fun right hr hright => ?_
      have hindex : (Expr.index base offset.value
          (base.outline.span.join right.value)).outline.Lies source o.front right.input.rear := by
        rw [← hright.2]
        exact hbase.extend hr.last (hl.trans (hi.trans hr)).rear_le_last
          (.one (hoffset.mono hl.rear_le_front hr.rear_le))
      exact (readTrailers_lays _ right.input (hos.trans (hl.trans (hi.trans hr))) hindex).bind
        fun e he hlies => .ok he hlies
    · rename_i arrow _
      refine (readIdent_lays hl.ahead).bind fun field hf hfield => ?_
      have hname := hf.lies_name hfield
      have hmember : (Expr.member base field.value arrow
          (base.outline.span.join field.value.span)).outline.Lies source o.front
            field.input.rear := by
        rw [← hfield.2.2]
        exact hbase.extend hf.last (hl.trans hf).rear_le_last
          (.one (hname.mono hl.rear_le_front (Nat.le_refl _)))
      exact (readTrailers_lays _ field.input (hos.trans (hl.trans hf)) hmember).bind
        fun e he hlies => .ok he hlies
termination_by 6 * s.size
decreasing_by all_goals (clear * -; grind)

theorem readArgs_lays {source : String} {o : Input} (s : Input) (hos : o.Passed source s) :
    Lays source o s.readArgs fun args t => InRow source s.rear t.rear (exprOutlines args) := by
  rw [readArgs]
  split
  · exact .ok hos (Nat.le_refl _)
  · refine (readExpr_lays 0 s hos.ahead).bind fun arg ha harg => ?_
    split
    · exact .ok (hos.trans ha) (.one (harg.mono hos.ahead.rear_le (Nat.le_refl _)))
    · rename_i comma hcomma
      obtain ⟨hc, -⟩ := mark?_passed ha.ahead hcomma
      refine (readArgs_lays comma.input (hos.trans (ha.trans hc))).bind fun more hm hmore => ?_
      exact .ok hm (.cons (harg.mono hos.ahead.rear_le (Nat.le_refl _)) hc.rear_le hmore)
termination_by 6 * s.size + 5
decreasing_by all_goals (clear * -; grind)

end

/-! ## Statements -/

theorem readCondition_lays {source : String} {s : Input} (hs : s.Ahead source) :
    Lays source s s.readCondition fun cond t => cond.outline.Lies source s.front t.rear := by
  refine (readMark_lays hs _).bind fun left hl _ => ?_
  refine (readExpr_lays 0 left.input hl.ahead).bind fun cond hc hlies => ?_
  refine (readMark_lays hc.ahead _).bind fun right hr _ => ?_
  have hlies' : cond.value.outline.Lies source s.front right.input.rear :=
    hlies.mono hl.front_le hr.rear_le
  exact .ok (hl.trans (hc.trans hr)) hlies'

theorem readExprSemi_lays {source : String} {s : Input} (hs : s.Ahead source) :
    Lays source s s.readExprSemi fun value t =>
      value.1.outline.Lies source s.front t.rear ∧ t.last = value.2 := by
  refine (readExpr_lays 0 s hs).bind fun value hv hlies => ?_
  refine (readMark_lays hv.ahead _).bind fun semi hs hsemi => ?_
  have hlies' : value.value.outline.Lies source s.front semi.input.rear :=
    hlies.mono (Nat.le_refl _) hs.rear_le
  exact .ok (hv.trans hs) ⟨hlies', hsemi.2⟩

theorem readVarDecl_lays {source : String} {s : Input} (hs : s.Ahead source) :
    Lays source s s.readVarDecl fun stmt t => stmt.outline.Lies source s.front t.rear := by
  refine (readDecl_lays s hs).bind fun decl hd hdecl => ?_
  split
  · rename_i assign hassign
    obtain ⟨ha, -⟩ := mark?_passed hd.ahead hassign
    refine (readExprSemi_lays ha.ahead).bind fun init hi hinit => ?_
    have hp := hd.trans (ha.trans hi)
    refine .ok hp ?_
    rw [← hinit.2]
    exact hp.lies (.two hdecl ha.rear_le_front hinit.1)
  · refine (readMark_lays hd.ahead _).bind fun semi hs hsemi => ?_
    have hp := hd.trans hs
    refine .ok hp ?_
    rw [← hsemi.2]
    exact hp.lies (.one (hdecl.mono (Nat.le_refl _) hs.rear_le))

theorem readReturn_lays {source : String} {o s : Input} (hos : o.Passed source s) :
    Lays source o (readReturn o.current.span s) fun stmt t =>
      stmt.outline.Lies source o.front t.rear := by
  unfold readReturn
  split
  · rename_i semi hsemi
    obtain ⟨hs, -, hlast⟩ := mark?_passed hos.ahead hsemi
    have hp := hos.trans hs
    refine .ok hp ?_
    rw [← hlast]
    exact hp.lies_nil
  · refine (readExprSemi_lays hos.ahead).bind fun value hv hvalue => ?_
    have hp := hos.trans hv
    refine .ok hp ?_
    rw [← hvalue.2]
    exact hp.lies (.one (hvalue.1.mono hos.front_le (Nat.le_refl _)))

mutual

theorem readBlock_lays {source : String} (s : Input) (hs : s.Ahead source) :
    Lays source s s.readBlock fun block t => block.outline.Lies source s.front t.rear := by
  rw [readBlock]
  refine (readMark_lays hs _).bind fun left hl hleft => ?_
  refine (readStmts_lays left.input hl).bind fun stmts hb hstmts => ?_
  refine (readMark_lays hb.ahead _).bind fun right hr hright => ?_
  have hp := hb.trans hr
  refine .ok hp ?_
  rw [hleft.1, ← hright.2]
  exact hp.lies (hstmts.mono (Nat.le_of_lt hl.front_lt_rear) hr.rear_le)
termination_by 4 * s.size
decreasing_by all_goals (clear * -; grind)

theorem readStmt_lays {source : String} (s : Input) (hs : s.Ahead source) :
    Lays source s s.readStmt fun stmt t => stmt.outline.Lies source s.front t.rear := by
  rw [readStmt]
  split
  · exact readVarDecl_lays hs
  · split
    · exact (readBlock_lays s hs).bind fun block hb hblock => .ok hb hblock
    · split
      · rename_i lead hlead
        obtain ⟨hl, hlast, -⟩ := accept?_passed hs rfl hlead
        exact (readLed_lays lead.value lead.input hl hlast).bind fun stmt ht hstmt => .ok ht hstmt
      · exact (readExprSemi_lays hs).bind fun value hv hvalue => .ok hv hvalue.1
termination_by 4 * s.size + 2
decreasing_by all_goals (clear * -; grind)

/-- Only the token that started the statement was taken. -/
theorem readLed_lays {source : String} {o : Input} (lead : Lead) (s : Input)
    (hos : o.Passed source s) (hlast : s.last = o.current.span) :
    Lays source o (readLed lead s) fun stmt t => stmt.outline.Lies source o.front t.rear := by
  cases lead with
  | ret =>
    rw [readLed, hlast]
    exact (readReturn_lays hos).bind fun stmt ht hstmt => .ok ht hstmt
  | cond =>
    rw [readLed, hlast]
    refine (readCondition_lays hos.ahead).bind fun cond hc hcond => ?_
    refine (readStmt_lays cond.input hc.ahead).bind fun yes hy hyes => ?_
    split
    · rename_i alt halt
      obtain ⟨ha, -⟩ := keyword?_passed hy.ahead halt
      refine (readStmt_lays alt.input ha.ahead).bind fun no hn hno => ?_
      have hp := hos.trans (hc.trans (hy.trans (ha.trans hn)))
      refine .ok hp (hp.lies ?_)
      exact .cons (hcond.mono hos.front_le (Nat.le_refl _)) hc.ahead.rear_le
        (.two hyes ha.rear_le_front hno)
    · have hp := hos.trans (hc.trans hy)
      refine .ok hp (hp.lies ?_)
      exact .two (hcond.mono hos.front_le (Nat.le_refl _)) hc.ahead.rear_le hyes
  | loop =>
    rw [readLed, hlast]
    refine (readCondition_lays hos.ahead).bind fun cond hc hcond => ?_
    refine (readStmt_lays cond.input hc.ahead).bind fun body hb hbody => ?_
    have hp := hos.trans (hc.trans hb)
    refine .ok hp (hp.lies ?_)
    exact .two (hcond.mono hos.front_le (Nat.le_refl _)) hc.ahead.rear_le hbody
  | brk =>
    rw [readLed, hlast]
    refine (readMark_lays hos.ahead _).bind fun semi hs _ => ?_
    exact .ok (hos.trans hs) (hos.trans hs).lies_first
  | cont =>
    rw [readLed, hlast]
    refine (readMark_lays hos.ahead _).bind fun semi hs _ => ?_
    exact .ok (hos.trans hs) (hos.trans hs).lies_first
  | empty =>
    rw [readLed, hlast]
    exact .ok hos hos.lies_first
termination_by 4 * s.size + 1
decreasing_by all_goals (clear * -; grind)

theorem readStmts_lays {source : String} {o : Input} (s : Input) (hos : o.Passed source s) :
    Lays source o s.readStmts fun stmts t => InRow source s.rear t.rear (stmtOutlines stmts) := by
  rw [readStmts]
  split
  · exact .ok hos (Nat.le_refl _)
  · refine (readStmt_lays s hos.ahead).bind fun stmt ht hstmt => ?_
    refine (readStmts_lays stmt.input (hos.trans ht)).bind fun more hm hmore => ?_
    exact .ok hm (.cons (hstmt.mono hos.ahead.rear_le (Nat.le_refl _)) (Nat.le_refl _) hmore)
termination_by 4 * s.size + 3
decreasing_by all_goals (clear * -; grind)

end

/-! ## Programs -/

theorem readParams_lays {source : String} {o : Input} (s : Input) (hos : o.Passed source s) :
    Lays source o s.readParams fun params t =>
      InRow source s.rear t.rear (declOutlines params) := by
  rw [readParams]
  split
  · exact .ok hos (Nat.le_refl _)
  · refine (readDecl_lays s hos.ahead).bind fun param hd hparam => ?_
    split
    · exact .ok (hos.trans hd) (.one (hparam.mono hos.ahead.rear_le (Nat.le_refl _)))
    · rename_i comma hcomma
      obtain ⟨hc, -⟩ := mark?_passed hd.ahead hcomma
      refine (readParams_lays comma.input (hos.trans (hd.trans hc))).bind fun more hm hmore => ?_
      exact .ok hm (.cons (hparam.mono hos.ahead.rear_le (Nat.le_refl _)) hc.rear_le hmore)
termination_by s.size
decreasing_by all_goals (clear * -; grind)

/-- The header ends with the body or, without one, with the closing parenthesis. -/
theorem readFunction_lays {source : String} {o s : Input} (ret : Specifier)
    (hos : o.Passed source s) (hret : ret.outline.Lies source o.front s.rear) :
    Lays source o (readFunction o.current.span ret s) fun item t =>
      item.outline.Lies source o.front t.rear := by
  refine (readIdent_lays hos.ahead).bind fun id hn hid => ?_
  have hname := hn.lies_name hid
  refine (readMark_lays hn.ahead _).bind fun left hl _ => ?_
  refine (readParams_lays left.input hl).bind fun params hps hparams => ?_
  refine (readMark_lays hps.ahead _).bind fun right hr hright => ?_
  have hp := hos.trans (hn.trans (hps.trans hr))
  split
  · -- the span of a function ends with its body, that of a prototype with the parenthesis
    refine (readBlock_lays right.input hr.ahead).bind fun body hb hbody => ?_
    obtain ⟨hspan, hstart, hstop⟩ := hbody.span
    have hrow : InRow source o.front body.value.span.stop (ret.outline :: .name id.value ::
        (declOutlines params.value ++ [body.value.outline])) :=
      .cons hret hos.ahead.rear_le (.cons hname hl.rear_le
        (.append hparams hr.rear_le_front (.one (hbody.move hstart (Nat.le_refl _)))))
    exact .ok (hp.trans hb) ((hp.lies_upto hspan hstart hrow).mono (Nat.le_refl _) hstop)
  · refine (readMark_lays hr.ahead _).bind fun semi hs _ => ?_
    have hrow : InRow source o.front right.input.rear
        (ret.outline :: .name id.value :: declOutlines params.value) :=
      .cons hret hos.ahead.rear_le (.cons hname hl.rear_le
        (hparams.mono (Nat.le_refl _) hr.rear_le))
    refine .ok (hp.trans hs) ?_
    rw [← hright.2]
    exact (hp.lies hrow).mono (Nat.le_refl _) hs.rear_le

theorem readItem_lays {source : String} {s : Input} (hs : s.Ahead source) :
    Lays source s s.readItem fun item t => item.outline.Lies source s.front t.rear := by
  refine (readSpecifier_lays s hs).bind fun spec hp hspec => ?_
  split
  · rename_i semi hsemi
    obtain ⟨hs, -⟩ := mark?_passed hp.ahead hsemi
    have hlies : spec.value.outline.Lies source s.front semi.input.rear :=
      hspec.mono (Nat.le_refl _) hs.rear_le
    exact .ok (hp.trans hs) hlies
  · split
    · exact (readFunction_lays spec.value hp hspec).bind fun item hi hitem => .ok hi hitem
    · refine (readDeclarator_lays spec.input hp.ahead).bind fun d hd hdecl => ?_
      refine (readMark_lays hd.ahead _).bind fun semi hs hsemi => ?_
      have hpd := hp.trans (hd.trans hs)
      refine .ok hpd ?_
      rw [← hsemi.2]
      exact hpd.lies (.two hspec hp.ahead.rear_le (hdecl.mono (Nat.le_refl _) hs.rear_le))

theorem readItems_lays {source : String} (s : Input) (hs : s.Ahead source) {items : List Item}
    (h : s.readItems = .ok items) :
    ∃ j, InRow source s.rear j (items.map Item.outline) := by
  rcases eq_of_readItems h with rfl | ⟨item, more, hitem, hmore, rfl⟩
  · exact ⟨s.rear, Nat.le_refl _⟩
  · obtain ⟨hp, hlies⟩ := readItem_lays hs item hitem
    obtain ⟨j, hrow⟩ := readItems_lays item.input hp.ahead hmore
    exact ⟨j, .cons (hlies.mono hs.rear_le (Nat.le_refl _)) (Nat.le_refl _) hrow⟩
termination_by s.size
decreasing_by all_goals (clear * -; grind)

end Input

end MiniC
