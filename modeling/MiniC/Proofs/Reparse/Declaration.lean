import MiniC.Proofs.Reparse.Basic
import MiniC.Syntax.Declaration

/-!
# Reading rendered declarations

Declarators, specifiers and declarations read back from their tokens, up to spans. Brackets are read
in a loop, with the declarator so far at hand, so the induction on declarators is not on what is
read but on how far the loop has come (`Declarator.Resumes`).
-/

namespace MiniC

namespace Input

variable {s : Input} {k : List Kind}

theorem readInteger_gives {text : String} (h : s.kinds = .integer text :: k) :
    Gives s.readInteger (· = text) k := by
  unfold readInteger
  split
  · rename_i p hp
    obtain ⟨c, hf, hkinds⟩ := accept?_eq_some hp
    obtain ⟨rfl, hk⟩ := List.cons.inj (hkinds.symm.trans h)
    exact .ok (Option.some.inj hf).symm hk
  · rename_i hp
    cases accept?_eq_none hp h

theorem readBound_gives (size : Bound) (h : s.kinds = size.render ++ k) :
    Gives s.readBound (·.text = size.text) k := by
  unfold Bound.render at h
  split at h
  · rename_i digits htext
    obtain ⟨minus, hminus, hk⟩ := mark?_of_kinds h
    rw [readBound, hminus]
    refine (readInteger_gives hk).bind fun p hv hk => .ok ?_ hk
    rw [← String.toList_inj, htext]
    simp [hv]
  · have hminus : s.mark? .minus = none := mark?_of_head (by simp [h])
    rw [readBound, hminus]
    exact (readInteger_gives h).bind fun p hv hk => .ok hv hk

theorem readArrays_stop {P : Declarator → Prop} {inner : Declarator} (hinner : P inner)
    (h : s.kinds = k) (hk : k.head? ≠ some (.mark .leftBracket)) (start : Span) :
    Gives (readArrays start inner s) P k := by
  rw [readArrays, mark?_of_head (h ▸ hk)]
  exact .ok hinner h

/-- One more pair of brackets. -/
theorem readArrays_step (start : Span) (inner : Declarator) (size : Bound)
    (h : s.kinds = brackets size.render ++ k) :
    ∃ size' span t, size'.text = size.text ∧ t.kinds = k ∧
      ∀ P k', Gives (readArrays start (.array inner size' span) t) P k' →
        Gives (readArrays start inner s) P k' := by
  rw [enclosed_append] at h
  obtain ⟨left, hleft, hk⟩ := mark?_of_kinds h
  obtain ⟨size', hsize, htext, hk⟩ := readBound_gives size hk
  obtain ⟨right, hright, -, hk⟩ := readMark_gives hk
  refine ⟨size'.value, start.join right.value, right.input, htext, hk, fun P k' hnext => ?_⟩
  rw [readArrays, hleft]
  exact .bind_ok hsize (.bind_ok hright (hnext.bind fun d hd hk => .ok hd hk))

end Input

/-- Tokens that start with the declarator are read up to its end, where the loop that reads brackets
goes on with what follows. -/
def Declarator.Resumes (d : Declarator) : Prop :=
  ∀ (s : Input) (k : List Kind), s.kinds = d.render ++ k →
    ∃ start inner t, inner.erase = d.erase ∧ t.kinds = k ∧
      ∀ P k', Gives (Input.readArrays start inner t) P k' → Gives s.readDeclarator P k'

/-- Tokens that start with the declarator, and no bracket after it, are read as the declarator. -/
def Declarator.Restored (d : Declarator) : Prop :=
  ∀ (s : Input) (k : List Kind), s.kinds = d.render ++ k →
    k.head? ≠ some (.mark .leftBracket) → Gives s.readDeclarator (·.erase = d.erase) k

theorem Declarator.Resumes.restored {d : Declarator} (h : d.Resumes) : d.Restored := by
  intro s k hs hk
  obtain ⟨start, inner, t, herase, ht, hread⟩ := h s k hs
  refine hread _ _ ?_
  exact Input.readArrays_stop (P := (·.erase = d.erase)) herase ht hk start

theorem Declarator.resumes_ident (id : Ident) : (Declarator.ident id).Resumes := by
  intro s k hs
  have hstar : s.mark? .star = none := Input.mark?_of_head (by simp [hs, render])
  obtain ⟨p, hp, hv, hk⟩ := Input.ident?_of_kinds hs
  refine ⟨p.value.span, .ident p.value, p.input, ?_, hk, fun P k' h => ?_⟩
  · simp [relabel, Ident.erase_eq hv]
  · rw [Input.readDeclarator, hstar, hp]
    exact h.bind fun d hd hk => .ok hd hk

theorem Declarator.Restored.resumes_paren {d : Declarator} (h : d.Restored) (span : Span) :
    (Declarator.paren d span).Resumes := by
  intro s k hs
  rw [render, enclosed_append] at hs
  have hstar : s.mark? .star = none := Input.mark?_of_head (by simp [hs])
  have hid : s.ident? = none := Input.ident?_of_head (by simp [hs])
  obtain ⟨left, hleft, hk⟩ := Input.mark?_of_kinds hs
  obtain ⟨inner, hinner, herase, hk⟩ := h left.input _ hk (by simp)
  obtain ⟨right, hright, -, hk⟩ := Input.readMark_gives hk
  refine ⟨left.value, .paren inner.value (left.value.join right.value), right.input, ?_, hk,
    fun P k' h => ?_⟩
  · simp [relabel, herase]
  · rw [Input.readDeclarator, hstar, hid, hleft]
    exact .bind_ok hinner (.bind_ok hright (h.bind fun d hd hk => .ok hd hk))

theorem Declarator.Resumes.array {d : Declarator} (h : d.Resumes) (size : Bound) (span : Span) :
    (Declarator.array d size span).Resumes := by
  intro s k hs
  rw [render, List.append_assoc] at hs
  obtain ⟨start, inner, t, herase, ht, hread⟩ := h s _ hs
  obtain ⟨size', span', t', htext, ht', hstep⟩ := Input.readArrays_step start inner size ht
  refine ⟨start, .array inner size' span', t', ?_, ht', fun P k' h => hread P k' (hstep P k' h)⟩
  simp [relabel, herase, Bound.erase_eq htext]

theorem Declarator.Restored.pointer {d : Declarator} (h : d.Restored) (span : Span) :
    (Declarator.pointer d span).Restored := by
  intro s k hs hk
  obtain ⟨star, hstar, hrest⟩ := Input.mark?_of_kinds hs
  rw [Input.readDeclarator, hstar]
  refine (h star.input k hrest hk).bind fun inner herase hk => .ok ?_ hk
  simp [Parsed.value_chain, Parsed.value_give, relabel, herase]

theorem Declarator.restored (d : Declarator) (hc : d.Canonical) :
    (d.isPointer = false → d.Resumes) ∧ d.Restored := by
  induction d with
  | ident id => exact ⟨fun _ => resumes_ident id, (resumes_ident id).restored⟩
  | array inner size span ih =>
    -- the brackets go to the inner declarator, which is therefore no bare pointer
    have h := ((ih hc.2.1).1 hc.1).array size span
    exact ⟨fun _ => h, h.restored⟩
  | pointer inner span ih =>
    exact ⟨fun hno => absurd hno (by simp [isPointer]), (ih hc).2.pointer span⟩
  | paren inner span ih =>
    have h := (ih hc).2.resumes_paren span
    exact ⟨fun _ => h, h.restored⟩

/-- What a declarator starts with. -/
theorem Declarator.head_render (d : Declarator) (k : List Kind) :
    (d.render ++ k).head? = some (.mark .star) ∨ (d.render ++ k).head? = some (.mark .leftParen) ∨
      ∃ name, (d.render ++ k).head? = some (.ident name) := by
  induction d generalizing k with
  | ident id => exact .inr (.inr ⟨id.name, rfl⟩)
  | array inner size _ ih =>
    rw [render, List.append_assoc]
    exact ih _
  | pointer _ _ => exact .inl rfl
  | paren _ _ => exact .inr (.inl rfl)

theorem Declarator.head_render_ne (d : Declarator) (k : List Kind) {m : Mark}
    (hstar : m ≠ .star) (hparen : m ≠ .leftParen) : (d.render ++ k).head? ≠ some (.mark m) := by
  rcases d.head_render k with h | h | ⟨name, h⟩ <;> rw [h]
  · simpa using hstar.symm
  · simpa using hparen.symm
  · simp

theorem Specifier.render_eq_cons (spec : Specifier) :
    ∃ c r, spec.render = c :: r ∧ c.beginsSpecifier = true := by
  cases spec with
  | int _ | char _ | structRef _ _ | structDef _ _ _ => exact ⟨_, _, by rw [render], rfl⟩

theorem Decl.render_eq_cons (decl : Decl) :
    ∃ c r, decl.render = c :: r ∧ c.beginsSpecifier = true := by
  obtain ⟨spec, d, _⟩ := decl
  obtain ⟨c, r, hr, hc⟩ := spec.render_eq_cons
  exact ⟨c, r ++ d.render, by rw [render, hr, List.cons_append], hc⟩

theorem Input.stopsAt_of_begins {s : Input} {c : Kind} {k : List Kind} (h : s.kinds = c :: k)
    (hc : c.beginsSpecifier = true) (m : Mark) : s.stopsAt m = false := by
  rw [stopsAt, kind_of_kinds h]
  cases c <;> simp_all [Kind.beginsSpecifier]

namespace Input

mutual

theorem readSpecifier_gives {s : Input} {k : List Kind} (hk : k.head? ≠ some (.mark .leftBrace)) :
    (spec : Specifier) → spec.Canonical → s.kinds = spec.render ++ k →
      Gives s.readSpecifier (·.erase = spec.erase) k
  | .int _, _, h => by
    obtain ⟨int, hint, hk⟩ := keyword?_of_kinds h
    rw [readSpecifier, hint]
    exact .ok rfl hk
  | .char _, _, h => by
    have hint : s.keyword? .int = none := keyword?_of_head (by simp [h, Specifier.render])
    obtain ⟨char, hchar, hk⟩ := keyword?_of_kinds h
    rw [readSpecifier, hint, hchar]
    exact .ok rfl hk
  | .structRef tag _, _, h => by
    have hint : s.keyword? .int = none := keyword?_of_head (by simp [h, Specifier.render])
    have hchar : s.keyword? .char = none := keyword?_of_head (by simp [h, Specifier.render])
    obtain ⟨struct, hstruct, hrest⟩ := keyword?_of_kinds h
    rw [readSpecifier, hint, hchar, hstruct]
    refine (readIdent_gives hrest).bind fun tag' htag hrest => ?_
    rw [mark?_of_head (hrest ▸ hk)]
    refine .ok ?_ hrest
    simp [Parsed.value_chain, Parsed.value_give, Specifier.relabel, Ident.erase_eq htag]
  | .structDef tag members _, hc, h => by
    have hint : s.keyword? .int = none := keyword?_of_head (by simp [h, Specifier.render])
    have hchar : s.keyword? .char = none := keyword?_of_head (by simp [h, Specifier.render])
    obtain ⟨struct, hstruct, hrest⟩ := keyword?_of_kinds h
    rw [readSpecifier, hint, hchar, hstruct]
    refine (readIdent_gives hrest).bind fun tag' htag hrest => ?_
    rw [List.append_eq, enclosed_append] at hrest
    obtain ⟨left, hleft, hrest⟩ := mark?_of_kinds hrest
    simp only [hleft]
    refine (readMembers_gives members hc.2 hrest).bind fun members' hmembers hrest => ?_
    refine (readMark_gives hrest).bind fun right _ hrest => .ok ?_ hrest
    simp [Parsed.value_chain, Parsed.value_loopChain, Parsed.value_give, Specifier.relabel,
      Ident.erase_eq htag, relabelDecls_blank .member, hmembers]

theorem readDecl_gives {s : Input} {k : List Kind} (hk : k.head? ≠ some (.mark .leftBracket)) :
    (decl : Decl) → decl.Canonical → s.kinds = decl.render ++ k →
      Gives s.readDecl (·.erase = decl.erase) k
  | ⟨spec, d, _⟩, hc, h => by
    rw [Decl.render, List.append_assoc] at h
    rw [readDecl]
    have hbrace := d.head_render_ne k (m := .leftBrace) (by decide) (by decide)
    refine (readSpecifier_gives hbrace spec hc.1 h).bind fun spec' hspec hrest => ?_
    refine ((d.restored hc.2).2 _ _ hrest hk).bind fun d' hd hrest => .ok ?_ hrest
    simp [Parsed.value_chain, Parsed.value_give, Decl.relabel, hspec, hd]

theorem readMembers_gives {s : Input} {k : List Kind} :
    (members : List Decl) → canonicalDecls members →
      s.kinds = renderMembers members ++ .mark .rightBrace :: k →
      Gives s.readMembers (eraseDecls · = eraseDecls members) (.mark .rightBrace :: k)
  | [], _, h => by
    rw [readMembers, if_pos (stopsAt_of_kinds h)]
    exact .ok rfl h
  | decl :: more, hc, h => by
    rw [renderMembers, List.append_assoc, List.cons_append] at h
    obtain ⟨c, r, hr, hbegins⟩ := decl.render_eq_cons
    have hstop := stopsAt_of_begins (h.trans (by rw [hr, List.cons_append])) hbegins .rightBrace
    rw [readMembers, if_neg (by simp [hstop])]
    refine (readDecl_gives (by simp) decl hc.1 h).bind fun decl' hdecl hrest => ?_
    refine (readMark_gives hrest).bind fun semi _ hrest => ?_
    refine (readMembers_gives more hc.2 hrest).bind fun more' hmore hrest => .ok ?_ hrest
    simp [Parsed.value_loosen, Parsed.value_chain, Parsed.value_chainLoop, Parsed.value_give,
      relabelDecls, hdecl, hmore]

end

end Input

end MiniC
