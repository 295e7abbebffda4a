import MiniC.Proofs.Faultless.Readers
import MiniC.Proofs.Reparse.Basic
import MiniC.Proofs.Words

/-!
# Reading by index never faults

A position in a list of tokens with an end mark says what is left of the list and which token was
taken last (`Input.At`). From there a reader by index and the reader of the grammar do the same
(`Realizes`): both read the same value and go on at positions that fit again, or both fail with the
same error. In particular the reader by index does not fault. As for all readers this is shown for
the steps, and `Realizes.bind` puts the steps together.

Some steps only one of the two readers makes: where the one keeps the span of a token that it has
taken, the other looks it up in the list afterwards.
-/

namespace MiniC

open Reader

/-- What is left at the position `i`: the tokens from there on, up to an end mark. The token before
them is the one taken last. -/
structure Input.At (s : Input) (tokens : List Token) (i : Nat) : Prop where
  rest : s.rest = tokens.drop i
  ended : ∃ w, s.kinds = w ++ [.eof]
  last : 0 < i → ∃ t, tokens[i - 1]? = some t ∧ t.span = s.last

namespace Input.At

variable {s t : Input} {tokens : List Token} {i j : Nat}

theorem exists_eq_cons (h : s.At tokens i) : ∃ t w, s.rest = t :: w := by
  obtain ⟨last, _ | ⟨t, w⟩⟩ := s
  · obtain ⟨w, hw⟩ := h.ended
    simp [Input.kinds] at hw
  · exact ⟨t, w, rfl⟩

theorem getElem?_eq (h : s.At tokens i) : tokens[i]? = some s.current := by
  obtain ⟨t, w, hs⟩ := h.exists_eq_cons
  have hdrop : tokens.drop i = t :: w := h.rest.symm.trans hs
  rw [← List.head?_drop, hdrop, Input.current, hs]
  rfl

theorem lt_length (h : s.At tokens i) : i < tokens.length :=
  (List.getElem?_eq_some_iff.1 h.getElem?_eq).1

theorem size_add (h : s.At tokens i) : s.size + i = tokens.length := by
  have hlt := h.lt_length
  rw [Input.size, h.rest, List.length_drop]
  omega

/-- Fewer tokens are left at later positions only. -/
theorem pos_of_lt (h : s.At tokens i) (ht : t.At tokens j) (hlt : t.size < s.size) : 0 < j := by
  have hs := h.size_add
  have ht := ht.size_add
  omega

/-- The token after one that is not the end mark. -/
theorem succ (h : s.At tokens i) (hkind : s.kind ≠ .eof) :
    Input.At ⟨s.current.span, s.rest.tail⟩ tokens (i + 1) := by
  refine ⟨?_, ?_, fun _ => ⟨s.current, h.getElem?_eq, rfl⟩⟩
  · rw [h.rest, List.tail_drop]
  · obtain ⟨t, w, hs⟩ := h.exists_eq_cons
    obtain ⟨u, hu⟩ := h.ended
    rw [Input.kinds, hs, List.map_cons] at hu
    cases u with
    | nil =>
      rw [Input.kind, Input.current, hs] at hkind
      exact absurd (List.cons.inj hu).1 hkind
    | cons c u => exact ⟨u, by rw [Input.kinds, hs]; exact (List.cons.inj hu).2⟩

end Input.At

namespace Indexed

section

variable {α β : Type} {tokens : List Token} {i j : Nat}

theorem run_bind (g : Indexed α) (f : α → Indexed β) :
    (g >>= f).run tokens i = match g.run tokens i with
      | some (.ok (a, j)) => (f a).run tokens j
      | some (.error e) => some (.error e)
      | none => none := by
  change (ExceptT.bind (g tokens i) fun p => f p.1 tokens p.2 : ExceptT _ Option _) = _
  unfold ExceptT.bind ExceptT.mk ExceptT.bindCont
  rcases h : g.run tokens i with _ | _ | ⟨a, j⟩ <;> rw [run] at h <;> rw [h] <;> rfl

theorem run_bind_ok {g : Indexed α} {f : α → Indexed β} {a : α}
    (h : g.run tokens i = some (.ok (a, j))) : (g >>= f).run tokens i = (f a).run tokens j := by
  rw [run_bind, h]

theorem run_bind_error {g : Indexed α} {f : α → Indexed β} {e : SyntaxError}
    (h : g.run tokens i = some (.error e)) : (g >>= f).run tokens i = some (.error e) := by
  rw [run_bind, h]

theorem run_token {t : Token} {k : Nat} (h : tokens[k]? = some t) :
    (token k).run tokens i = some (.ok (t, i)) := by
  have hread : (read : Indexed (List Token)).run tokens i = some (.ok (tokens, i)) := rfl
  rw [token, run_bind_ok hread, h]
  rfl

theorem run_lastIndex (h : i < tokens.length) :
    lastIndex.run tokens j = some (.ok (tokens.length - 1, j)) := by
  have hread : (read : Indexed (List Token)).run tokens j = some (.ok (tokens, j)) := rfl
  rw [lastIndex, run_bind_ok hread]
  cases hlen : tokens.length with
  | zero => omega
  | succ n => rfl

theorem run_advance (h : i + 1 < tokens.length) :
    advance.run tokens i = some (.ok ((), i + 1)) := by
  have hget : (get : Indexed Nat).run tokens i = some (.ok (i, i)) := rfl
  have hlt : i < tokens.length - 1 := by omega
  rw [advance, run_bind_ok hget, run_bind_ok (run_lastIndex h), if_pos hlt]
  rfl

end

section

variable {s : Input} {tokens : List Token} {i : Nat} (h : s.At tokens i)
include h

theorem run_current : current.run tokens i = some (.ok (s.current, i)) := by
  have hget : (get : Indexed Nat).run tokens i = some (.ok (i, i)) := rfl
  have hmin : min i (tokens.length - 1) = i := by
    have hlt := h.lt_length
    omega
  rw [current, run_bind_ok hget, run_bind_ok (run_lastIndex h.lt_length), hmin]
  exact run_token h.getElem?_eq

theorem run_here : here.run tokens i = some (.ok (s.current.span, i)) := by
  rw [here, run_bind_ok (run_current h)]
  rfl

theorem run_kind : kind.run tokens i = some (.ok (s.kind, i)) := by
  rw [kind, run_bind_ok (run_current h)]
  rfl

theorem run_stopsAt (m : Mark) : (stopsAt m).run tokens i = some (.ok (s.stopsAt m, i)) := by
  rw [stopsAt, run_bind_ok (run_kind h)]
  rfl

theorem run_last (hpos : 0 < i) : last.run tokens i = some (.ok (s.last, i)) := by
  have hget : (get : Indexed Nat).run tokens i = some (.ok (i, i)) := rfl
  obtain ⟨t, ht, hspan⟩ := h.last hpos
  rw [last, run_bind_ok hget, run_bind_ok (run_token ht), ← hspan]
  rfl

theorem run_startsFunction :
    startsFunction.run tokens i = some (.ok (s.startsFunction, i)) := by
  have hpeek : peek?.run tokens i = some (.ok (s.peek?, i)) := by
    rw [Input.peek?, h.rest, List.getElem?_drop]
    rfl
  rw [startsFunction, run_bind_ok (run_kind h), Input.startsFunction]
  cases s.kind with
  | ident name => exact run_bind_ok hpeek
  | _ => rfl

theorem run_fail {α : Type} (f : Token → SyntaxError) :
    (fail f : Indexed α).run tokens i = some (.error (f s.current)) := by
  rw [fail, run_bind_ok (run_current h)]
  rfl

theorem run_refuse {α : Type} (cause : Kind → SyntaxError.Cause) :
    (refuse cause : Indexed α).run tokens i = some (.error (s.fault (cause s.kind))) := by
  rw [refuse, run_fail h, Input.fault, Input.kind]
  cases s.current.kind <;> rfl

theorem run_take?_none {α : Type} {q : Token → Option α} (hq : q s.current = none) :
    (take? q).run tokens i = some (.ok (none, i)) := by
  rw [take?, run_bind_ok (run_current h), hq]
  rfl

theorem run_take?_some {α : Type} {q : Token → Option α} {a : α} (hq : q s.current = some a)
    (hlt : i + 1 < tokens.length) : (take? q).run tokens i = some (.ok (some a, i + 1)) := by
  rw [take?, run_bind_ok (run_current h), hq]
  exact run_bind_ok (run_advance hlt)

end

/-- Only marks that stand for an operator have a precedence, and it is that of the operator. -/
theorem precedence?_eq (k : Kind) : precedence? k = k.binOp?.map BinOp.precedence := by
  cases k with
  | mark m => cases m <;> rfl
  | _ => rfl

/-- The operator of a token whose precedence is known is never missed. -/
theorem operator?_eq (least : Nat) :
    operator? least = kind? fun k => k.binOp?.filter (least ≤ ·.precedence) := by
  rw [operator?, kind, bind_assoc, kind?, take?]
  congr 1
  funext t
  rw [pure_bind, precedence?_eq]
  cases hop : t.kind.binOp? with
  | none => rfl
  | some op =>
    by_cases hlt : op.precedence < least
    · rw [Option.filter_some_neg (by simpa using hlt)]
      exact if_pos hlt
    · rw [Option.filter_some_pos (by simpa using hlt)]
      exact if_neg hlt

end Indexed

/-- How a reader by index ends at the position `i` and a reader at what is left there: with the same
value, or with the same error. -/
inductive Realizes (g : Indexed α) (m : Reader α) (tokens : List Token) (s : Input) (i : Nat) : Prop
  | reads (a : α) (t : Input) (j : Nat) : g.run tokens i = some (.ok (a, j)) → m s = .ok (a, t) →
      t.At tokens j → Realizes g m tokens s i
  | fails (e : SyntaxError) : g.run tokens i = some (.error e) → m s = .error e →
      Realizes g m tokens s i

namespace Realizes

variable {α β : Type} {tokens : List Token} {s : Input} {i : Nat}

protected theorem pure {a : α} (h : s.At tokens i) : Realizes (pure a) (pure a) tokens s i :=
  .reads a s i rfl rfl h

/-- Readers that go on at `t` as others start there. -/
theorem after {g g' : Indexed α} {m m' : Reader α} {t : Input} {j : Nat}
    (hg : g.run tokens i = g'.run tokens j) (hm : m s = m' t) (h : Realizes g' m' tokens t j) :
    Realizes g m tokens s i := by
  cases h with
  | reads a u k hrun hrun' hu => exact .reads a u k (hg.trans hrun) (hm.trans hrun') hu
  | fails e hrun hrun' => exact .fails e (hg.trans hrun) (hm.trans hrun')

protected theorem bind {g : Indexed α} {m : Reader α} {f : α → Indexed β} {f' : α → Reader β}
    (hg : Realizes g m tokens s i)
    (hf : ∀ a t j, m s = .ok (a, t) → t.At tokens j → Realizes (f a) (f' a) tokens t j) :
    Realizes (g >>= f) (m >>= f') tokens s i := by
  cases hg with
  | reads a t j hrun hrun' ht =>
    exact .after (Indexed.run_bind_ok hrun) (bind_ok hrun') (hf a t j hrun' ht)
  | fails e hrun hrun' => exact .fails e (Indexed.run_bind_error hrun) (bind_error hrun')

/-! Steps of one reader only. -/

theorem look {φ : Input → α} {g : Indexed β} {f : α → Reader β}
    (hf : Realizes g (f (φ s)) tokens s i) : Realizes g (Reader.look φ >>= f) tokens s i := by
  have hrun : (Reader.look φ >>= f) s = f (φ s) s := rfl
  exact .after rfl hrun hf

section

variable {m : Reader β}

theorem here {f : Span → Indexed β} (h : s.At tokens i)
    (hf : Realizes (f s.current.span) m tokens s i) : Realizes (Indexed.here >>= f) m tokens s i :=
  .after (Indexed.run_bind_ok (Indexed.run_here h)) rfl hf

theorem kind {f : Kind → Indexed β} (h : s.At tokens i) (hf : Realizes (f s.kind) m tokens s i) :
    Realizes (Indexed.kind >>= f) m tokens s i :=
  .after (Indexed.run_bind_ok (Indexed.run_kind h)) rfl hf

theorem stopsAt {f : Bool → Indexed β} {c : Mark} (h : s.At tokens i)
    (hf : Realizes (f (s.stopsAt c)) m tokens s i) :
    Realizes (Indexed.stopsAt c >>= f) m tokens s i :=
  .after (Indexed.run_bind_ok (Indexed.run_stopsAt h c)) rfl hf

theorem last {f : Span → Indexed β} (h : s.At tokens i) (hpos : 0 < i)
    (hf : Realizes (f s.last) m tokens s i) : Realizes (Indexed.last >>= f) m tokens s i :=
  .after (Indexed.run_bind_ok (Indexed.run_last h hpos)) rfl hf

theorem startsFunction {f : Bool → Indexed β} (h : s.At tokens i)
    (hf : Realizes (f s.startsFunction) m tokens s i) :
    Realizes (Indexed.startsFunction >>= f) m tokens s i :=
  .after (Indexed.run_bind_ok (Indexed.run_startsFunction h)) rfl hf

end

/-! Tokens that may come next. -/

theorem refuse (h : s.At tokens i) (cause : Kind → SyntaxError.Cause) :
    Realizes (Indexed.refuse cause : Indexed β) (fail fun s => s.fault (cause s.kind)) tokens s i :=
  .fails _ (Indexed.run_refuse h cause) rfl

/-- Taking the next token, if it is accepted, which the end mark is not. -/
theorem take? {q : Token → Option α} {f : Option α → Indexed β} {f' : Option α → Reader β}
    (h : s.At tokens i) (heof : ∀ t, t.kind = .eof → q t = none)
    (hsome : ∀ a t, q s.current = some a → t.last = s.current.span → t.size < s.size →
      t.At tokens (i + 1) → Realizes (f (some a)) (f' (some a)) tokens t (i + 1))
    (hnone : Realizes (f none) (f' none) tokens s i) :
    Realizes (Indexed.take? q >>= f) (Reader.take? q >>= f') tokens s i := by
  obtain ⟨t, w, hs⟩ := h.exists_eq_cons
  have hcurrent : s.current = t := by rw [Input.current, hs]; rfl
  cases hq : q s.current with
  | none =>
    have hrun : Reader.take? q s = .ok (none, s) := by simp [Reader.take?, hs, ← hcurrent, hq]
    exact .after (Indexed.run_bind_ok (Indexed.run_take?_none h hq)) (bind_ok hrun) hnone
  | some a =>
    have hkind : s.kind ≠ .eof := fun hend => by cases (heof s.current hend).symm.trans hq
    have hnext : Input.At ⟨s.current.span, s.rest.tail⟩ tokens (i + 1) := h.succ hkind
    have hrun : Reader.take? q s = .ok (some a, ⟨s.current.span, s.rest.tail⟩) := by
      simp [Reader.take?, hs, ← hcurrent, hq]
    refine .after (Indexed.run_bind_ok (Indexed.run_take?_some h hq hnext.lt_length))
      (bind_ok hrun) (hsome a _ hq rfl ?_ hnext)
    simp [Input.size, hs]

theorem kind? {q : Kind → Option α} {f : Option α → Indexed β} {f' : Option α → Reader β}
    (h : s.At tokens i) (heof : q .eof = none)
    (hsome : ∀ a t, t.last = s.current.span → t.size < s.size → t.At tokens (i + 1) →
      Realizes (f (some a)) (f' (some a)) tokens t (i + 1))
    (hnone : Realizes (f none) (f' none) tokens s i) :
    Realizes (Indexed.kind? q >>= f) (Reader.kind? q >>= f') tokens s i :=
  take? h (fun t ht => by rw [ht, heof]) (fun a t _ => hsome a t) hnone

theorem ident? {f : Option Ident → Indexed β} {f' : Option Ident → Reader β}
    (h : s.At tokens i)
    (hsome : ∀ id t, id.span = t.last → t.size < s.size → t.At tokens (i + 1) →
      Realizes (f (some id)) (f' (some id)) tokens t (i + 1))
    (hnone : Realizes (f none) (f' none) tokens s i) :
    Realizes (Indexed.ident? >>= f) (Reader.ident? >>= f') tokens s i := by
  refine take? h (fun t ht => by simp [ht]) (fun id t hid hlast => hsome id t ?_) hnone
  rw [hlast]
  split at hid
  · cases hid
    rfl
  · cases hid

section

variable {f : Option Span → Indexed β} {f' : Option Span → Reader β}

/-- The span of a token that has been taken is that of the last one. -/
theorem span? {c : Kind} (h : s.At tokens i) (heof : c ≠ .eof)
    (hsome : ∀ t, t.last = s.current.span → t.size < s.size → t.At tokens (i + 1) →
      Realizes (f (some t.last)) (f' (some t.last)) tokens t (i + 1))
    (hnone : Realizes (f none) (f' none) tokens s i) :
    Realizes (Indexed.take? (fun t => if t.kind = c then some t.span else none) >>= f)
      (Reader.take? (fun t => if t.kind = c then some t.span else none) >>= f') tokens s i := by
  refine take? h (fun t ht => by simp [ht, heof.symm]) (fun span t hspan hlast => ?_) hnone
  split at hspan
  · cases hspan
    rw [← hlast]
    exact hsome t hlast
  · cases hspan

theorem mark? {c : Mark} (h : s.At tokens i)
    (hsome : ∀ t, t.last = s.current.span → t.size < s.size → t.At tokens (i + 1) →
      Realizes (f (some t.last)) (f' (some t.last)) tokens t (i + 1))
    (hnone : Realizes (f none) (f' none) tokens s i) :
    Realizes (Indexed.mark? c >>= f) (Reader.mark? c >>= f') tokens s i :=
  span? h nofun hsome hnone

theorem keyword? {w : Keyword} (h : s.At tokens i)
    (hsome : ∀ t, t.last = s.current.span → t.size < s.size → t.At tokens (i + 1) →
      Realizes (f (some t.last)) (f' (some t.last)) tokens t (i + 1))
    (hnone : Realizes (f none) (f' none) tokens s i) :
    Realizes (Indexed.keyword? w >>= f) (Reader.keyword? w >>= f') tokens s i :=
  span? h nofun hsome hnone

end

/-! Tokens that must come next. -/

/-- The span of a token that was accepted is that of the last one. -/
theorem last_of_accept? (span : α → Span) {q : Kind → Option α}
    (hq : ∀ k a, q k = some a → span a = s.current.span) {p : Parsed α s.size}
    (h : s.accept? q = some p) : span p.value = p.input.last := by
  obtain ⟨before, _ | ⟨u, w⟩⟩ := s
  · cases h
  · obtain ⟨a, ha, rfl⟩ := Option.map_eq_some_iff.1 h
    exact hq u.kind a ha

theorem last_of_mark {c : Mark} {span : Span} {t : Input} (h : Reader.mark c s = .ok (span, t)) :
    span = t.last := by
  obtain ⟨p, hread, rfl, rfl⟩ := Reading.of_plain h
  unfold Input.readMark at hread
  split at hread
  · rename_i p' hmark
    cases hread
    refine last_of_accept? id (fun k a ha => ?_) hmark
    split at ha <;> cases ha
    rfl
  · cases hread

theorem last_of_ident {id : Ident} {t : Input} (h : Reader.ident s = .ok (id, t)) :
    id.span = t.last := by
  obtain ⟨p, hread, rfl, rfl⟩ := Reading.of_plain h
  unfold Input.readIdent at hread
  split at hread
  · rename_i p' hident
    cases hread
    refine last_of_accept? Ident.span (fun k a ha => ?_) hident
    split at ha <;> cases ha
    rfl
  · cases hread

theorem mark {c : Mark} {f : Span → Indexed β} {f' : Span → Reader β} (h : s.At tokens i)
    (hf : ∀ t j, t.size < s.size → t.At tokens j → 0 < j →
      Realizes (f t.last) (f' t.last) tokens t j) :
    Realizes (Indexed.mark c >>= f) (Reader.mark c >>= f') tokens s i := by
  have hm : Realizes (Indexed.mark c) (Reader.mark c) tokens s i := by
    rw [mark_eq]
    exact .mark? h (fun t _ _ ht => .pure ht) (.refuse h fun k => .unexpected (.mark c) k)
  refine hm.bind fun span t j hrun ht => ?_
  have hlt : t.size < s.size := Reading.size_lt hrun
  rw [last_of_mark hrun]
  exact hf t j hlt ht (h.pos_of_lt ht hlt)

theorem ident {f : Ident → Indexed β} {f' : Ident → Reader β} (h : s.At tokens i)
    (hf : ∀ id t j, id.span = t.last → t.size < s.size → t.At tokens j → 0 < j →
      Realizes (f id) (f' id) tokens t j) :
    Realizes (Indexed.ident >>= f) (Reader.ident >>= f') tokens s i := by
  have hm : Realizes Indexed.ident Reader.ident tokens s i := by
    rw [ident_eq]
    exact .ident? h (fun id t _ _ ht => .pure ht) (.refuse h fun _ => .expectedIdent)
  refine hm.bind fun id t j hrun ht => ?_
  have hlt : t.size < s.size := Reading.size_lt hrun
  exact hf id t j (last_of_ident hrun) hlt ht (h.pos_of_lt ht hlt)

theorem integer {f : String → Indexed β} {f' : String → Reader β} (h : s.At tokens i)
    (hf : ∀ text t j, t.size < s.size → t.At tokens j → 0 < j →
      Realizes (f text) (f' text) tokens t j) :
    Realizes (Indexed.integer >>= f) (Reader.integer >>= f') tokens s i := by
  have hm : Realizes Indexed.integer Reader.integer tokens s i := by
    rw [integer_eq]
    refine .kind? h rfl (fun text t _ _ ht => .pure ht) ?_
    exact .fails _ (Indexed.run_fail h _) rfl
  refine hm.bind fun text t j hrun ht => ?_
  have hlt : t.size < s.size := Reading.size_lt hrun
  exact hf text t j hlt ht (h.pos_of_lt ht hlt)

end Realizes

/-! ## Declarations -/

section

variable {tokens : List Token} {s : Input} {i : Nat}

theorem bound_realizes (h : s.At tokens i) : Realizes Indexed.bound bound tokens s i := by
  rw [bound_eq]
  refine .look (.here h (.mark? h (fun t hlast _ ht => ?_) ?_))
  · rw [hlast]
    exact .integer ht fun digits t₁ j _ ht₁ hpos => .look (.last ht₁ hpos (.pure ht₁))
  · exact .integer h fun digits t j _ ht hpos => .look (.last ht hpos (.pure ht))

end

theorem arrays_realizes {tokens : List Token} {s : Input} {i n : Nat} (start : Span)
    (inner : Declarator) (hn : s.size < n) (h : s.At tokens i) :
    Realizes (Indexed.arrays n start inner) (arrays start inner) tokens s i := by
  induction n generalizing s i inner with
  | zero => exact absurd hn (Nat.not_lt_zero _)
  | succ n ih =>
    rw [arrays_eq, Indexed.arrays]
    refine .mark? h (fun t _ hlt ht => ?_) (.pure h)
    refine (bound_realizes ht).bind fun size t₁ j₁ hrun ht₁ => ?_
    have hlt₁ : t₁.size < t.size := Reading.size_lt hrun
    refine .mark ht₁ fun t₂ j₂ hlt₂ ht₂ hpos => .last ht₂ hpos ?_
    exact ih _ (by omega) ht₂

theorem declarator_realizes {tokens : List Token} {s : Input} {i n : Nat} (hn : s.size < n)
    (h : s.At tokens i) : Realizes (Indexed.declarator n) declarator tokens s i := by
  induction n generalizing s i with
  | zero => exact absurd hn (Nat.not_lt_zero _)
  | succ n ih =>
    rw [declarator_eq, Indexed.declarator]
    refine .mark? h (fun t _ hlt ht => ?_) (.ident? h (fun id t _ hlt ht => ?_)
      (.mark? h (fun t _ hlt ht => ?_) ?_))
    · refine (ih (by omega) ht).bind fun inner t₁ j₁ hrun ht₁ => ?_
      have hpos : 0 < j₁ := ht.pos_of_lt ht₁ (Reading.size_lt hrun)
      exact .look (.last ht₁ hpos (.pure ht₁))
    · exact arrays_realizes _ _ (by omega) ht
    · refine (ih (by omega) ht).bind fun inner t₁ j₁ hrun ht₁ => ?_
      have hlt₁ : t₁.size < t.size := Reading.size_lt hrun
      refine .mark ht₁ fun t₂ j₂ hlt₂ ht₂ hpos => .last ht₂ hpos ?_
      exact arrays_realizes _ _ (by omega) ht₂
    · exact .refuse h fun _ => .expectedDeclarator

mutual

theorem specifier_realizes {tokens : List Token} {s : Input} {i : Nat} :
    (n : Nat) → 3 * s.size < n → s.At tokens i →
      Realizes (Indexed.specifier n) specifier tokens s i
  | 0, hn, _ => absurd hn (Nat.not_lt_zero _)
  | n + 1, hn, h => by
    rw [specifier_eq, Indexed.specifier]
    refine .keyword? h (fun t _ _ ht => .pure ht) (.keyword? h (fun t _ _ ht => .pure ht)
      (.keyword? h (fun t _ hlt ht => ?_) (.refuse h fun _ => .expectedSpecifier)))
    refine .ident ht fun tag t₁ j₁ htag hlt₁ ht₁ hpos₁ => ?_
    refine .mark? ht₁ (fun t₂ _ hlt₂ ht₂ => ?_) (.last ht₁ hpos₁ ?_)
    · refine (members_realizes n (by omega) ht₂).bind fun fields t₃ j₃ _ ht₃ => ?_
      exact .mark ht₃ fun t₄ j₄ _ ht₄ hpos₄ => .last ht₄ hpos₄ (.pure ht₄)
    · rw [htag]
      exact .pure ht₁
termination_by structural n => n

theorem decl_realizes {tokens : List Token} {s : Input} {i : Nat} :
    (n : Nat) → 3 * s.size + 1 < n → s.At tokens i → Realizes (Indexed.decl n) decl tokens s i
  | 0, hn, _ => absurd hn (Nat.not_lt_zero _)
  | n + 1, hn, h => by
    rw [decl_eq, Indexed.decl]
    refine .look (.here h ((specifier_realizes n (by omega) h).bind fun spec t j hrun ht => ?_))
    have hlt : t.size < s.size := Reading.size_lt hrun
    refine (declarator_realizes (by omega) ht).bind fun d t₁ j₁ hrun₁ ht₁ => ?_
    have hpos : 0 < j₁ := ht.pos_of_lt ht₁ (Reading.size_lt hrun₁)
    exact .look (.last ht₁ hpos (.pure ht₁))
termination_by structural n => n

theorem members_realizes {tokens : List Token} {s : Input} {i : Nat} :
    (n : Nat) → 3 * s.size + 2 < n → s.At tokens i →
      Realizes (Indexed.members n) members tokens s i
  | 0, hn, _ => absurd hn (Nat.not_lt_zero _)
  | n + 1, hn, h => by
    rw [members_eq, Indexed.members]
    refine .look (.stopsAt h ?_)
    split
    · exact .pure h
    · refine (decl_realizes n (by omega) h).bind fun d t j hrun ht => ?_
      have hlt : t.size < s.size := Reading.size_lt hrun
      refine .mark ht fun t₁ j₁ hlt₁ ht₁ _ => ?_
      exact (members_realizes n (by omega) ht₁).bind fun more t₂ j₂ _ ht₂ => .pure ht₂
termination_by structural n => n

end

/-! ## Expressions -/

mutual

theorem expr_realizes {tokens : List Token} {s : Input} {i : Nat} (least : Nat) :
    (n : Nat) → 6 * s.size + 3 < n → s.At tokens i →
      Realizes (Indexed.expr n least) (expr least) tokens s i
  | 0, hn, _ => absurd hn (Nat.not_lt_zero _)
  | n + 1, hn, h => by
    rw [expr_eq, Indexed.expr]
    refine (operand_realizes n (by omega) h).bind fun left t j hrun ht => ?_
    have hlt : t.size < s.size := Reading.size_lt hrun
    exact operators_realizes least left n (by omega) ht
termination_by structural n => n

theorem operators_realizes {tokens : List Token} {s : Input} {i : Nat} (least : Nat)
    (left : Expr) : (n : Nat) → 6 * s.size + 4 < n → s.At tokens i →
      Realizes (Indexed.operators n least left) (operators least left) tokens s i
  | 0, hn, _ => absurd hn (Nat.not_lt_zero _)
  | n + 1, hn, h => by
    rw [operators_eq, Indexed.operators, Indexed.operator?_eq]
    refine .kind? h rfl (fun op t _ hlt ht => ?_) (.pure h)
    refine (expr_realizes _ n (by omega) ht).bind fun right t₁ j₁ hrun ht₁ => ?_
    have hlt₁ : t₁.size < t.size := Reading.size_lt hrun
    exact operators_realizes least _ n (by omega) ht₁
termination_by structural n => n

theorem operand_realizes {tokens : List Token} {s : Input} {i : Nat} :
    (n : Nat) → 6 * s.size + 2 < n → s.At tokens i →
      Realizes (Indexed.operand n) operand tokens s i
  | 0, hn, _ => absurd hn (Nat.not_lt_zero _)
  | n + 1, hn, h => by
    rw [operand_eq, Indexed.operand]
    refine .here h (.kind? h rfl (fun op t hlast hlt ht => .look ?_) ?_)
    · rw [hlast]
      exact (operand_realizes n (by omega) ht).bind fun e t₁ j₁ _ ht₁ => .pure ht₁
    · refine (primary_realizes n (by omega) h).bind fun base t j hrun ht => ?_
      have hlt : t.size < s.size := Reading.size_lt hrun
      exact trailers_realizes base n (by omega) ht
termination_by structural n => n

theorem primary_realizes {tokens : List Token} {s : Input} {i : Nat} :
    (n : Nat) → 6 * s.size + 1 < n → s.At tokens i →
      Realizes (Indexed.primary n) primary tokens s i
  | 0, hn, _ => absurd hn (Nat.not_lt_zero _)
  | n + 1, hn, h => by
    rw [primary_eq, Indexed.primary]
    refine .here h (.kind? h rfl (fun value t hlast _ ht => .look ?_)
      (.ident? h (fun id t _ _ ht => .pure ht) (.mark? h (fun t _ hlt ht => ?_) ?_)))
    · rw [hlast]
      exact .pure ht
    · refine (expr_realizes 0 n (by omega) ht).bind fun e t₁ j₁ _ ht₁ => ?_
      exact .mark ht₁ fun t₂ j₂ _ ht₂ _ => .pure ht₂
    · exact .refuse h fun _ => .expectedExpr
termination_by structural n => n

theorem trailers_realizes {tokens : List Token} {s : Input} {i : Nat} (base : Expr) :
    (n : Nat) → 6 * s.size < n → s.At tokens i →
      Realizes (Indexed.trailers n base) (trailers base) tokens s i
  | 0, hn, _ => absurd hn (Nat.not_lt_zero _)
  | n + 1, hn, h => by
    rw [trailers_eq, Indexed.trailers]
    refine .kind? h rfl (fun trailer t _ hlt ht => ?_) (.pure h)
    cases trailer with
    | call =>
      refine (args_realizes n (by omega) ht).bind fun values t₁ j₁ hrun ht₁ => ?_
      have hlt₁ : t₁.size < t.size + 1 := Reading.size_lt hrun
      refine .mark ht₁ fun t₂ j₂ hlt₂ ht₂ hpos => .last ht₂ hpos ?_
      exact trailers_realizes _ n (by omega) ht₂
    | index =>
      refine (expr_realizes 0 n (by omega) ht).bind fun offset t₁ j₁ hrun ht₁ => ?_
      have hlt₁ : t₁.size < t.size := Reading.size_lt hrun
      refine .mark ht₁ fun t₂ j₂ hlt₂ ht₂ hpos => .last ht₂ hpos ?_
      exact trailers_realizes _ n (by omega) ht₂
    | member arrow =>
      refine .ident ht fun field t₁ j₁ _ hlt₁ ht₁ _ => ?_
      exact trailers_realizes _ n (by omega) ht₁
termination_by structural n => n

theorem args_realizes {tokens : List Token} {s : Input} {i : Nat} :
    (n : Nat) → 6 * s.size + 5 < n → s.At tokens i → Realizes (Indexed.args n) args tokens s i
  | 0, hn, _ => absurd hn (Nat.not_lt_zero _)
  | n + 1, hn, h => by
    rw [args_eq, Indexed.args]
    refine .look (.stopsAt h ?_)
    split
    · exact .pure h
    · refine (expr_realizes 0 n (by omega) h).bind fun first t j hrun ht => ?_
      have hlt : t.size < s.size := Reading.size_lt hrun
      refine .mark? ht (fun t₁ _ hlt₁ ht₁ => ?_) (.pure ht)
      exact (args_realizes n (by omega) ht₁).bind fun rest t₂ j₂ _ ht₂ => .pure ht₂
termination_by structural n => n

end

/-! ## Statements -/

section

variable {tokens : List Token} {s : Input} {i n : Nat}

theorem exprSemi_realizes (hn : 6 * s.size + 3 < n) (h : s.At tokens i) :
    Realizes (Indexed.exprSemi n) exprSemi tokens s i := by
  rw [exprSemi_eq]
  refine (expr_realizes 0 n hn h).bind fun value t j _ ht => ?_
  exact .mark ht fun t₁ j₁ _ ht₁ hpos => .last ht₁ hpos (.pure ht₁)

theorem condition_realizes (hn : 6 * s.size < n) (h : s.At tokens i) :
    Realizes (Indexed.condition n) condition tokens s i := by
  rw [condition_eq]
  refine .mark h fun t j hlt ht _ => ?_
  refine (expr_realizes 0 n (by omega) ht).bind fun cond t₁ j₁ _ ht₁ => ?_
  exact .mark ht₁ fun t₂ j₂ _ ht₂ _ => .pure ht₂

theorem varDecl_realizes (hn : 6 * s.size + 1 < n) (h : s.At tokens i) :
    Realizes (Indexed.varDecl n) varDecl tokens s i := by
  rw [varDecl_eq]
  refine .look (.here h ((decl_realizes n (by omega) h).bind fun d t j hrun ht => ?_))
  have hlt : t.size < s.size := Reading.size_lt hrun
  refine .mark? ht (fun t₁ _ hlt₁ ht₁ => ?_) ?_
  · exact (exprSemi_realizes (by omega) ht₁).bind fun init t₂ j₂ _ ht₂ => .pure ht₂
  · exact .mark ht fun t₁ j₁ _ ht₁ hpos => .last ht₁ hpos (.pure ht₁)

theorem returned_realizes (start : Span) (hn : 6 * s.size + 3 < n) (h : s.At tokens i) :
    Realizes (Indexed.returned n start) (returned start) tokens s i := by
  rw [returned_eq]
  refine .mark? h (fun t _ _ ht => .last ht (Nat.succ_pos i) (.pure ht)) ?_
  exact (exprSemi_realizes hn h).bind fun value t j _ ht => .pure ht

end

mutual

theorem block_realizes {tokens : List Token} {s : Input} {i : Nat} :
    (n : Nat) → 6 * s.size + 1 < n → s.At tokens i → Realizes (Indexed.block n) block tokens s i
  | 0, hn, _ => absurd hn (Nat.not_lt_zero _)
  | n + 1, hn, h => by
    rw [block_eq, Indexed.block]
    refine .mark h fun t j hlt ht _ => ?_
    refine (stmts_realizes n (by omega) ht).bind fun body t₁ j₁ _ ht₁ => ?_
    exact .mark ht₁ fun t₂ j₂ _ ht₂ hpos => .last ht₂ hpos (.pure ht₂)
termination_by structural n => n

theorem stmt_realizes {tokens : List Token} {s : Input} {i : Nat} :
    (n : Nat) → 6 * s.size + 4 < n → s.At tokens i → Realizes (Indexed.stmt n) stmt tokens s i
  | 0, hn, _ => absurd hn (Nat.not_lt_zero _)
  | n + 1, hn, h => by
    rw [stmt_eq, Indexed.stmt]
    refine .look (.here h (.kind h ?_))
    split
    · exact varDecl_realizes (by omega) h
    · split
      · exact (block_realizes n (by omega) h).bind fun body t j _ ht => .pure ht
      · refine .kind? h rfl (fun lead t hlast hlt ht => ?_) ?_
        · rw [← hlast]
          exact led_realizes lead n (by omega) ht
        · exact (exprSemi_realizes (by omega) h).bind fun value t j _ ht => .pure ht
termination_by structural n => n

/-- The first token of the statement is the last one taken. -/
theorem led_realizes {tokens : List Token} {s : Input} {i : Nat} (lead : Lead) :
    (n : Nat) → 6 * s.size + 4 < n → s.At tokens i →
      Realizes (Indexed.led n s.last lead) (led lead) tokens s i
  | 0, hn, _ => absurd hn (Nat.not_lt_zero _)
  | n + 1, hn, h => by
    rw [led_eq]
    refine .look ?_
    cases lead with
    | ret =>
      rw [Indexed.led]
      exact returned_realizes _ (by omega) h
    | cond =>
      rw [Indexed.led]
      refine (condition_realizes (by omega) h).bind fun cond t j hrun ht => ?_
      have hlt : t.size < s.size := Reading.size_lt hrun
      refine (stmt_realizes n (by omega) ht).bind fun yes t₁ j₁ hrun₁ ht₁ => ?_
      have hlt₁ : t₁.size < t.size := Reading.size_lt hrun₁
      refine .keyword? ht₁ (fun t₂ _ hlt₂ ht₂ => ?_) ?_
      · refine (stmt_realizes n (by omega) ht₂).bind fun no t₃ j₃ hrun₃ ht₃ => ?_
        have hpos₃ : 0 < j₃ := ht₂.pos_of_lt ht₃ (Reading.size_lt hrun₃)
        exact .look (.last ht₃ hpos₃ (.pure ht₃))
      · exact .look (.last ht₁ (ht.pos_of_lt ht₁ hlt₁) (.pure ht₁))
    | loop =>
      rw [Indexed.led]
      refine (condition_realizes (by omega) h).bind fun cond t j hrun ht => ?_
      have hlt : t.size < s.size := Reading.size_lt hrun
      refine (stmt_realizes n (by omega) ht).bind fun body t₁ j₁ hrun₁ ht₁ => ?_
      have hpos₁ : 0 < j₁ := ht.pos_of_lt ht₁ (Reading.size_lt hrun₁)
      exact .look (.last ht₁ hpos₁ (.pure ht₁))
    | brk =>
      rw [Indexed.led]
      exact .mark h fun t j _ ht _ => .pure ht
    | cont =>
      rw [Indexed.led]
      exact .mark h fun t j _ ht _ => .pure ht
    | empty =>
      rw [Indexed.led]
      exact .pure h
termination_by structural n => n

theorem stmts_realizes {tokens : List Token} {s : Input} {i : Nat} :
    (n : Nat) → 6 * s.size + 5 < n → s.At tokens i → Realizes (Indexed.stmts n) stmts tokens s i
  | 0, hn, _ => absurd hn (Nat.not_lt_zero _)
  | n + 1, hn, h => by
    rw [stmts_eq, Indexed.stmts]
    refine .look (.stopsAt h ?_)
    split
    · exact .pure h
    · refine (stmt_realizes n (by omega) h).bind fun first t j hrun ht => ?_
      have hlt : t.size < s.size := Reading.size_lt hrun
      exact (stmts_realizes n (by omega) ht).bind fun more t₁ j₁ _ ht₁ => .pure ht₁
termination_by structural n => n

end

/-! ## Items -/

theorem params_realizes {tokens : List Token} {s : Input} {i n : Nat} (hn : 3 * s.size + 2 < n)
    (h : s.At tokens i) : Realizes (Indexed.params n) params tokens s i := by
  induction n generalizing s i with
  | zero => exact absurd hn (Nat.not_lt_zero _)
  | succ n ih =>
    rw [params_eq, Indexed.params]
    refine .look (.stopsAt h ?_)
    split
    · exact .pure h
    · refine (decl_realizes n (by omega) h).bind fun first t j hrun ht => ?_
      have hlt : t.size < s.size := Reading.size_lt hrun
      refine .mark? ht (fun t₁ _ hlt₁ ht₁ => ?_) (.pure ht)
      exact (ih (by omega) ht₁).bind fun rest t₂ j₂ _ ht₂ => .pure ht₂

/-- An item, where the reader looks two tokens ahead for a function. -/
theorem item_eq_ahead : item = (do
    let start ← here
    let spec ← specifier
    match ← mark? .semicolon with
    | some _ => return .tagOnly spec
    | none => do
      if ← look (·.startsFunction) then do
        let name ← ident
        function start spec name
      else do
        let d ← declarator
        global start spec d) := by
  funext s
  refine eq_bind (m := here) rfl (plain_bind rfl fun spec => ?_)
  cases hsemi : spec.input.mark? .semicolon with
  | some semi => exact eq_bind (mark?_some hsemi) rfl
  | none =>
    refine eq_bind (mark?_none hsemi) (eq_bind (m := look _) rfl ?_)
    by_cases hfunction : spec.input.startsFunction
    · simp only [if_pos hfunction]
      exact plain_last (function_eq _ _ _) fun e => ⟨rfl, rfl⟩
    · simp only [if_neg hfunction]
      exact plain_bind rfl fun d => plain_bind rfl fun semi => rfl

section

variable {tokens : List Token} {s : Input} {i n : Nat}

theorem function_realizes (start : Span) (ret : Specifier) (hn : 6 * s.size < n)
    (h : s.At tokens i) :
    Realizes (Indexed.function n start ret) (do let name ← ident; function start ret name)
      tokens s i := by
  refine .ident h fun name t j _ hlt ht _ => .mark ht fun t₁ j₁ hlt₁ ht₁ _ => ?_
  refine (params_realizes (by omega) ht₁).bind fun ps t₂ j₂ hrun ht₂ => ?_
  have hlt₂ : t₂.size < t₁.size + 1 := Reading.size_lt hrun
  refine .mark ht₂ fun t₃ j₃ hlt₃ ht₃ hpos => .last ht₃ hpos (.look (.kind ht₃ ?_))
  split
  · exact (block_realizes n (by omega) ht₃).bind fun body t₄ j₄ _ ht₄ => .pure ht₄
  · exact .mark ht₃ fun t₄ j₄ _ ht₄ _ => .pure ht₄

theorem item_realizes (hn : 6 * s.size < n) (h : s.At tokens i) :
    Realizes (Indexed.item n) item tokens s i := by
  rw [item_eq_ahead]
  refine .look (.here h ((specifier_realizes n (by omega) h).bind fun spec t j hrun ht => ?_))
  have hlt : t.size < s.size := Reading.size_lt hrun
  refine .mark? ht (fun t₁ _ _ ht₁ => .pure ht₁) (.look (.startsFunction ht ?_))
  split
  · exact function_realizes _ spec (by omega) ht
  · refine (declarator_realizes (by omega) ht).bind fun d t₁ j₁ _ ht₁ => ?_
    exact .mark ht₁ fun t₂ j₂ _ ht₂ hpos => .last ht₂ hpos (.pure ht₂)

end

/-- The items left at a position, read by index. -/
theorem run_items {tokens : List Token} {s : Input} {i n : Nat} (hn : 6 * s.size + 1 < n)
    (h : s.At tokens i) :
    ∃ j, (Indexed.items n).run tokens i = some (s.readItems.map fun items => (items, j)) := by
  induction n generalizing s i with
  | zero => exact absurd hn (Nat.not_lt_zero _)
  | succ n ih =>
    rw [Indexed.items, Indexed.run_bind_ok (Indexed.run_kind h)]
    by_cases hkind : s.kind = .eof
    · rw [if_pos hkind, Input.readItems, if_pos hkind]
      exact ⟨i, rfl⟩
    · rw [if_neg hkind]
      cases item_realizes (n := n) (by omega) h with
      | fails e hrun hrun' =>
        rw [Indexed.run_bind_error hrun, readItems_of_error hkind hrun']
        exact ⟨i, rfl⟩
      | reads first t j hrun hrun' ht =>
        have hlt : t.size < s.size := Reading.size_lt hrun'
        obtain ⟨k, hmore⟩ := ih (by omega) ht
        rw [Indexed.run_bind_ok hrun, readItems_of_ok hkind hrun']
        refine ⟨k, ?_⟩
        cases hitems : t.readItems with
        | error e =>
          rw [hitems] at hmore
          exact Indexed.run_bind_error hmore
        | ok more =>
          rw [hitems] at hmore
          exact Indexed.run_bind_ok hmore

/-- Tokens with an end mark are read by index as they are read from the front. -/
theorem Program.ofTokens?_eq {tokens : List Token} {w : List Kind}
    (h : tokens.map (·.kind) = w ++ [.eof]) : ofTokens? tokens = some (ofTokens tokens) := by
  have hat : (Input.ofTokens tokens).At tokens 0 :=
    ⟨rfl, ⟨w, h⟩, fun hpos => absurd hpos (Nat.lt_irrefl 0)⟩
  have hn : 6 * (Input.ofTokens tokens).size + 1 < 6 * (tokens.length + 1) := by
    change 6 * tokens.length + 1 < _
    omega
  obtain ⟨j, hrun⟩ := run_items hn hat
  rw [ofTokens?, hrun, ofTokens]
  cases (Input.ofTokens tokens).readItems <;> rfl

-- without an end mark there may be no token to look at
example : Indexed.current.run [] 0 = none := rfl

end MiniC
