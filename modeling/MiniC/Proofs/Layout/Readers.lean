import MiniC.Proofs.Grammar.Settles

/-!
# Readers do not look at spans

Two inputs are `Paired` if their tokens are of the same kinds, wherever they stand. A reader does
the same with both (`Tracks`): it takes as many tokens from the one as from the other, and its
values are the same but for their spans; or it fails with the same cause, at the tokens with the
same number. Every reader is a row of steps, so this is shown for the steps and put together by
`Tracks.bind`.
-/

namespace MiniC

open Reader

/-- Tokens of the same kinds, up to an end mark. -/
structure Input.Paired (s s' : Input) : Prop where
  kinds : s.kinds = s'.kinds
  ended : ∃ w, s.kinds = w ++ [.eof]

theorem Input.Paired.exists_eq_cons {s s' : Input} (h : s.Paired s') :
    ∃ t w t' w', s.rest = t :: w ∧ s'.rest = t' :: w' ∧ t.kind = t'.kind ∧
      w.map (·.kind) = w'.map (·.kind) := by
  obtain ⟨last, _ | ⟨t, w⟩⟩ := s
  · obtain ⟨w, hw⟩ := h.ended
    simp [Input.kinds] at hw
  · obtain ⟨last', _ | ⟨t', w'⟩⟩ := s'
    · cases h.kinds
    · obtain ⟨hkind, hmore⟩ := List.cons.inj h.kinds
      exact ⟨t, w, t', w', rfl, rfl, hkind, hmore⟩

theorem Input.Paired.kind {s s' : Input} (h : s.Paired s') : s.kind = s'.kind := by
  obtain ⟨t, w, t', w', hs, hs', hkind, -⟩ := h.exists_eq_cons
  rw [Input.kind, Input.kind, Input.current, Input.current, hs, hs']
  exact hkind

theorem Input.Paired.stopsAt {s s' : Input} (h : s.Paired s') (m : Mark) :
    s.stopsAt m = s'.stopsAt m := by
  rw [Input.stopsAt, Input.stopsAt, h.kind]

/-- Errors with the same cause at the tokens of the same number. -/
def SyntaxError.Matches (tokens tokens' : List Token) (e e' : SyntaxError) : Prop :=
  e.cause = e'.cause ∧ ∃ (n : Nat) (t t' : Token), tokens[n]? = some t ∧ tokens'[n]? = some t' ∧
    e.span = t.span ∧ e'.span = t'.span

theorem SyntaxError.Matches.of_drop {tokens tokens' : List Token} {e e' : SyntaxError} {n : Nat}
    (h : e.Matches (tokens.drop n) (tokens'.drop n) e') : e.Matches tokens tokens' e' := by
  obtain ⟨hcause, k, t, t', ht, ht', hspan, hspan'⟩ := h
  rw [List.getElem?_drop] at ht ht'
  exact ⟨hcause, n + k, t, t', ht, ht', hspan, hspan'⟩

/-- How two readers end, each with its input: with values related by `R`, or with errors. -/
inductive Tracks (m m' : Reader α) (R : α → α → Prop) (s s' : Input) : Prop
  | reads (n : Nat) (a a' : α) (t t' : Input) : m s = .ok (a, t) → m' s' = .ok (a', t') →
      R a a' → t.Paired t' → t.rest = s.rest.drop n → t'.rest = s'.rest.drop n →
      Tracks m m' R s s'
  | fails (e e' : SyntaxError) : m s = .error e → m' s' = .error e' →
      e.Matches s.rest s'.rest e' → Tracks m m' R s s'

namespace Tracks

variable {α β : Type} {R : α → α → Prop} {Q : β → β → Prop} {s s' : Input}

protected theorem pure {a a' : α} (h : s.Paired s') (ha : R a a') :
    Tracks (pure a) (pure a') R s s' :=
  .reads 0 a a' s s' rfl rfl ha h rfl rfl

/-- Readers that go on at `t` and `t'` as others start there. -/
theorem after {m m' k k' : Reader α} {t t' : Input} {n : Nat} (hm : m s = k t) (hm' : m' s' = k' t')
    (hrest : t.rest = s.rest.drop n) (hrest' : t'.rest = s'.rest.drop n) (h : Tracks k k' R t t') :
    Tracks m m' R s s' := by
  cases h with
  | fails e e' hrun hrun' h =>
    rw [hrest, hrest'] at h
    exact .fails e e' (hm.trans hrun) (hm'.trans hrun') h.of_drop
  | reads j a a' u u' hrun hrun' ha hu hdrop hdrop' =>
    rw [hrest, List.drop_drop] at hdrop
    rw [hrest', List.drop_drop] at hdrop'
    exact .reads (n + j) a a' u u' (hm.trans hrun) (hm'.trans hrun') ha hu hdrop hdrop'

protected theorem bind {m m' : Reader α} {f f' : α → Reader β} (hm : Tracks m m' R s s')
    (hf : ∀ a a' t t', m s = .ok (a, t) → t.Paired t' → R a a' → Tracks (f a) (f' a') Q t t') :
    Tracks (m >>= f) (m' >>= f') Q s s' := by
  cases hm with
  | fails e e' hrun hrun' h => exact .fails e e' (bind_error hrun) (bind_error hrun') h
  | reads n a a' t t' hrun hrun' ha ht hrest hrest' =>
    exact .after (bind_ok hrun) (bind_ok hrun') hrest hrest' (hf a a' t t' hrun ht ha)

theorem look {φ : Input → α} {f f' : α → Reader β} (hf : Tracks (f (φ s)) (f' (φ s')) Q s s') :
    Tracks (look φ >>= f) (look φ >>= f') Q s s' := by
  have hrun : (Reader.look φ >>= f) s = f (φ s) s := rfl
  have hrun' : (Reader.look φ >>= f') s' = f' (φ s') s' := rfl
  exact .after (n := 0) hrun hrun' rfl rfl hf

/-- An error at the token that comes next. -/
protected theorem fail {φ : Input → SyntaxError} (h : s.Paired s')
    (hcause : (φ s).cause = (φ s').cause) (hspan : ∀ t, (φ t).span = t.current.span) :
    Tracks (fail φ : Reader β) (fail φ) Q s s' := by
  obtain ⟨t, w, t', w', hs, hs', -, -⟩ := h.exists_eq_cons
  refine .fails _ _ rfl rfl ⟨hcause, 0, t, t', by simp [hs], by simp [hs'], ?_, ?_⟩
  · rw [hspan, Input.current, hs]
    rfl
  · rw [hspan, Input.current, hs']
    rfl

theorem fault (h : s.Paired s') (cause : Kind → SyntaxError.Cause) :
    Tracks (Reader.fail (fun t => t.fault (cause t.kind)) : Reader β)
      (Reader.fail fun t => t.fault (cause t.kind)) Q s s' := by
  refine .fail h ?_ fun t => fault_span t _
  simp only [Input.fault, h.kind]
  split <;> rfl

/-- Taking the next token, if it is accepted, which the end mark is not. -/
theorem take? {q : Token → Option α} {f f' : Option α → Reader β} (h : s.Paired s')
    (heof : ∀ t, t.kind = .eof → q t = none)
    (hq : ∀ t t', t.kind = t'.kind → Option.Rel R (q t) (q t'))
    (hsome : ∀ a a' t t', t.size < s.size → t.Paired t' → R a a' →
      Tracks (f (some a)) (f' (some a')) Q t t')
    (hnone : Tracks (f none) (f' none) Q s s') :
    Tracks (take? q >>= f) (take? q >>= f') Q s s' := by
  obtain ⟨t, w, t', w', hs, hs', hkind, hmore⟩ := h.exists_eq_cons
  have hrel := hq t t' hkind
  generalize ho : q t = o, ho' : q t' = o' at hrel
  cases hrel with
  | none =>
    have hrun : Reader.take? q s = .ok (none, s) := by simp [Reader.take?, hs, ho]
    have hrun' : Reader.take? q s' = .ok (none, s') := by simp [Reader.take?, hs', ho']
    exact .after (n := 0) (bind_ok hrun) (bind_ok hrun') rfl rfl hnone
  | some hR =>
    rename_i a a'
    have hrun : Reader.take? q s = .ok (some a, ⟨t.span, w⟩) := by simp [Reader.take?, hs, ho]
    have hrun' : Reader.take? q s' = .ok (some a', ⟨t'.span, w'⟩) := by
      simp [Reader.take?, hs', ho']
    refine .after (n := 1) (bind_ok hrun) (bind_ok hrun') (by simp [hs]) (by simp [hs']) ?_
    refine hsome a a' _ _ (by simp [Input.size, hs]) ⟨hmore, ?_⟩ hR
    obtain ⟨u, hu⟩ := h.ended
    rw [Input.kinds, hs] at hu
    cases u with
    | nil =>
      obtain ⟨hend, -⟩ := List.cons.inj hu
      cases (heof t hend).symm.trans ho
    | cons c u => exact ⟨u, (List.cons.inj hu).2⟩

theorem kind? {q : Kind → Option α} {f f' : Option α → Reader β} (h : s.Paired s')
    (heof : q .eof = none)
    (hsome : ∀ a t t', t.size < s.size → t.Paired t' → Tracks (f (some a)) (f' (some a)) Q t t')
    (hnone : Tracks (f none) (f' none) Q s s') :
    Tracks (Reader.kind? q >>= f) (Reader.kind? q >>= f') Q s s' := by
  refine take? (R := Eq) h (fun t ht => by rw [ht, heof]) (fun t t' hkind => ?_) ?_ hnone
  · rw [hkind]
    cases q t'.kind with
    | none => exact .none
    | some a => exact .some rfl
  · rintro a _ t t' hlt ht rfl
    exact hsome a t t' hlt ht

theorem ident? {f f' : Option Ident → Reader β} (h : s.Paired s')
    (hsome : ∀ id id' t t', t.size < s.size → t.Paired t' → id.erase = id'.erase →
      Tracks (f (some id)) (f' (some id')) Q t t')
    (hnone : Tracks (f none) (f' none) Q s s') :
    Tracks (Reader.ident? >>= f) (Reader.ident? >>= f') Q s s' := by
  refine take? h (fun t ht => by simp [ht]) (fun t t' hkind => ?_) hsome hnone
  rw [hkind]
  cases t'.kind with
  | ident name => exact .some rfl
  | _ => exact .none

section

variable {f f' : Option Span → Reader β}

/-- Two spans say nothing of each other. -/
theorem span? {c : Kind} (h : s.Paired s') (heof : c ≠ .eof)
    (hsome : ∀ span span' t t', t.size < s.size → t.Paired t' →
      Tracks (f (some span)) (f' (some span')) Q t t')
    (hnone : Tracks (f none) (f' none) Q s s') :
    Tracks (Reader.take? (fun t => if t.kind = c then some t.span else none) >>= f)
      (Reader.take? (fun t => if t.kind = c then some t.span else none) >>= f') Q s s' := by
  refine take? (R := fun _ _ => True) h (fun t ht => by simp [ht, heof.symm])
    (fun t t' hkind => ?_) (fun a a' t t' hlt ht _ => hsome a a' t t' hlt ht) hnone
  rw [hkind]
  by_cases hc : t'.kind = c
  · rw [if_pos hc, if_pos hc]
    exact .some trivial
  · rw [if_neg hc, if_neg hc]
    exact .none

theorem mark? {m : Mark} (h : s.Paired s')
    (hsome : ∀ span span' t t', t.size < s.size → t.Paired t' →
      Tracks (f (some span)) (f' (some span')) Q t t')
    (hnone : Tracks (f none) (f' none) Q s s') :
    Tracks (Reader.mark? m >>= f) (Reader.mark? m >>= f') Q s s' :=
  span? h nofun hsome hnone

theorem keyword? {w : Keyword} (h : s.Paired s')
    (hsome : ∀ span span' t t', t.size < s.size → t.Paired t' →
      Tracks (f (some span)) (f' (some span')) Q t t')
    (hnone : Tracks (f none) (f' none) Q s s') :
    Tracks (Reader.keyword? w >>= f) (Reader.keyword? w >>= f') Q s s' :=
  span? h nofun hsome hnone

end

/-! Tokens that must come next. -/

theorem mark {m : Mark} {f f' : Span → Reader β} (h : s.Paired s')
    (hf : ∀ span span' t t', t.size < s.size → t.Paired t' → Tracks (f span) (f' span') Q t t') :
    Tracks (Reader.mark m >>= f) (Reader.mark m >>= f') Q s s' := by
  have hm : Tracks (Reader.mark m) (Reader.mark m) (fun _ _ => True) s s' := by
    rw [mark_eq]
    refine .mark? h (fun span span' t t' _ ht => .pure ht trivial) ?_
    exact .fault h fun k => .unexpected (.mark m) k
  exact hm.bind fun span span' t t' hrun ht _ => hf span span' t t' (Reading.size_lt hrun) ht

theorem ident {f f' : Ident → Reader β} (h : s.Paired s')
    (hf : ∀ id id' t t', t.size < s.size → t.Paired t' → id.erase = id'.erase →
      Tracks (f id) (f' id') Q t t') :
    Tracks (Reader.ident >>= f) (Reader.ident >>= f') Q s s' := by
  have hm : Tracks Reader.ident Reader.ident (fun id id' => id.erase = id'.erase) s s' := by
    rw [ident_eq]
    refine .ident? h (fun id id' t t' _ ht hid => .pure ht hid) ?_
    exact .fault h fun _ => .expectedIdent
  exact hm.bind fun id id' t t' hrun ht hid => hf id id' t t' (Reading.size_lt hrun) ht hid

theorem integer {f f' : String → Reader β} (h : s.Paired s')
    (hf : ∀ text t t', t.size < s.size → t.Paired t' → Tracks (f text) (f' text) Q t t') :
    Tracks (Reader.integer >>= f) (Reader.integer >>= f') Q s s' := by
  have hm : Tracks Reader.integer Reader.integer Eq s s' := by
    rw [integer_eq]
    refine .kind? h rfl (fun text t t' _ ht => .pure ht rfl) ?_
    exact .fail h rfl fun _ => rfl
  refine hm.bind ?_
  rintro text _ t t' hrun ht rfl
  exact hf text t t' (Reading.size_lt hrun) ht

end Tracks

/-! ## Declarations -/

section

variable {s s' : Input}

theorem bound_tracks (h : s.Paired s') :
    Tracks bound bound (fun b b' => b.erase = b'.erase) s s' := by
  rw [bound_eq]
  refine .look (.mark? h (fun minus minus' t t' _ ht => ?_) ?_)
  · exact .integer ht fun digits t t' _ ht => .look (.pure ht rfl)
  · exact .integer h fun digits t t' _ ht => .look (.pure ht rfl)

end

theorem arrays_tracks {s s' : Input} {start start' : Span} {inner inner' : Declarator}
    (hinner : inner.erase = inner'.erase) (h : s.Paired s') :
    Tracks (arrays start inner) (arrays start' inner') (fun d d' => d.erase = d'.erase) s s' := by
  rw [arrays_eq start inner, arrays_eq start' inner']
  refine .mark? h (fun _ _ t t' hlt ht => ?_) (.pure h hinner)
  refine (bound_tracks ht).bind fun size size' t₁ t₁' hrun ht₁ hsize => ?_
  have hlt₁ : t₁.size < t.size := Reading.size_lt hrun
  refine .mark ht₁ fun right right' t₂ t₂' hlt₂ ht₂ => ?_
  exact arrays_tracks (by simp [Declarator.relabel, hinner, hsize]) ht₂
termination_by s.size

theorem declarator_tracks {s s' : Input} (h : s.Paired s') :
    Tracks declarator declarator (fun d d' => d.erase = d'.erase) s s' := by
  rw [declarator_eq]
  refine .mark? h (fun star star' t t' hlt ht => ?_) (.ident? h (fun id id' t t' _ ht hid => ?_)
    (.mark? h (fun left left' t t' hlt ht => ?_) ?_))
  · refine (declarator_tracks ht).bind fun inner inner' t₁ t₁' _ ht₁ hinner => ?_
    exact .look (.pure ht₁ (by simp [Declarator.relabel, hinner]))
  · exact arrays_tracks (by simp [Declarator.relabel, hid]) ht
  · refine (declarator_tracks ht).bind fun inner inner' t₁ t₁' _ ht₁ hinner => ?_
    refine .mark ht₁ fun right right' t₂ t₂' _ ht₂ => ?_
    exact arrays_tracks (by simp [Declarator.relabel, hinner]) ht₂
  · exact .fault h fun _ => .expectedDeclarator
termination_by s.size

mutual

theorem specifier_tracks {s s' : Input} (h : s.Paired s') :
    Tracks specifier specifier (fun d d' => d.erase = d'.erase) s s' := by
  rw [specifier_eq]
  refine .keyword? h (fun _ _ t t' _ ht => .pure ht (by simp [Specifier.relabel]))
    (.keyword? h (fun _ _ t t' _ ht => .pure ht (by simp [Specifier.relabel]))
    (.keyword? h (fun struct struct' t t' hlt ht => ?_) (.fault h fun _ => .expectedSpecifier)))
  refine .ident ht fun tag tag' t₁ t₁' hlt₁ ht₁ htag => ?_
  refine .mark? ht₁ (fun left left' t₂ t₂' hlt₂ ht₂ => ?_)
    (.pure ht₁ (by simp [Specifier.relabel, htag]))
  refine (members_tracks ht₂).bind fun fields fields' t₃ t₃' _ ht₃ hfields => ?_
  refine .mark ht₃ fun right right' t₄ t₄' _ ht₄ => ?_
  exact .pure ht₄ (by simp [Specifier.relabel, htag, relabelDecls_blank .member, hfields])
termination_by 3 * s.size

theorem decl_tracks {s s' : Input} (h : s.Paired s') :
    Tracks decl decl (fun d d' => d.erase = d'.erase) s s' := by
  rw [decl_eq]
  refine .look ((specifier_tracks h).bind fun spec spec' t t' _ ht hspec => ?_)
  refine (declarator_tracks ht).bind fun d d' t₁ t₁' _ ht₁ hd => ?_
  exact .look (.pure ht₁ (by simp [Decl.relabel, hspec, hd]))
termination_by 3 * s.size + 1

theorem members_tracks {s s' : Input} (h : s.Paired s') :
    Tracks members members (fun ds ds' => eraseDecls ds = eraseDecls ds') s s' := by
  rw [members_eq]
  refine .look ?_
  rw [h.stopsAt]
  split
  · exact .pure h rfl
  · refine (decl_tracks h).bind fun d d' t t' hrun ht hd => ?_
    have hlt : t.size < s.size := Reading.size_lt hrun
    refine .mark ht fun _ _ t₁ t₁' hlt₁ ht₁ => ?_
    refine (members_tracks ht₁).bind fun more more' t₂ t₂' _ ht₂ hmore => ?_
    exact .pure ht₂ (by simp [relabelDecls, hd, hmore])
termination_by 3 * s.size + 2

end

/-- A list of elements with commas, whose relation `Rs` goes by its elements. -/
theorem commaList_tracks {α : Type} {R : α → α → Prop} {Rs : List α → List α → Prop}
    {element : Reader α} {more : Reader (List α)} {s s' : Input} (hnil : Rs [] [])
    (hcons : ∀ a a' as as', R a a' → Rs as as' → Rs (a :: as) (a' :: as')) (h : s.Paired s')
    (he : Tracks element element R s s')
    (hlt : ∀ a t, element s = .ok (a, t) → t.size < s.size)
    (hmore : ∀ t t', t.size < s.size → t.Paired t' → Tracks more more Rs t t') :
    Tracks (commaList element more) (commaList element more) Rs s s' := by
  refine .look ?_
  rw [h.stopsAt]
  split
  · exact .pure h hnil
  · refine he.bind fun first first' t t' hrun ht hfirst => ?_
    have hlt := hlt first t hrun
    refine .mark? ht (fun _ _ t₁ t₁' hlt₁ ht₁ => ?_) (.pure ht (hcons _ _ _ _ hfirst hnil))
    refine (hmore t₁ t₁' (by omega) ht₁).bind fun rest rest' t₂ t₂' _ ht₂ hrest => ?_
    exact .pure ht₂ (hcons _ _ _ _ hfirst hrest)

/-! ## Expressions -/

mutual

theorem expr_tracks {s s' : Input} (least : Nat) (h : s.Paired s') :
    Tracks (expr least) (expr least) (fun e e' => e.erase = e'.erase) s s' := by
  rw [expr_eq]
  refine (operand_tracks h).bind fun left left' t t' hrun ht hleft => ?_
  have hlt : t.size < s.size := Reading.size_lt hrun
  exact operators_tracks least hleft ht
termination_by 6 * s.size + 3

theorem operators_tracks {s s' : Input} {left left' : Expr} (least : Nat)
    (hleft : left.erase = left'.erase) (h : s.Paired s') :
    Tracks (operators least left) (operators least left') (fun e e' => e.erase = e'.erase)
      s s' := by
  rw [operators_eq least left, operators_eq least left']
  refine .kind? h rfl (fun op t t' hlt ht => ?_) (.pure h hleft)
  refine (expr_tracks _ ht).bind fun right right' t₁ t₁' hrun ht₁ hright => ?_
  have hlt₁ : t₁.size < t.size := Reading.size_lt hrun
  exact operators_tracks least (by simp [Expr.relabel, hleft, hright]) ht₁
termination_by 6 * s.size + 4

theorem operand_tracks {s s' : Input} (h : s.Paired s') :
    Tracks operand operand (fun e e' => e.erase = e'.erase) s s' := by
  rw [operand_eq]
  refine .kind? h rfl (fun op t t' hlt ht => ?_) ?_
  · refine .look ((operand_tracks ht).bind fun e e' t₁ t₁' _ ht₁ he => ?_)
    exact .pure ht₁ (by simp [Expr.relabel, he])
  · refine (primary_tracks h).bind fun base base' t t' hrun ht hbase => ?_
    have hlt : t.size < s.size := Reading.size_lt hrun
    exact trailers_tracks hbase ht
termination_by 6 * s.size + 2

theorem primary_tracks {s s' : Input} (h : s.Paired s') :
    Tracks primary primary (fun e e' => e.erase = e'.erase) s s' := by
  rw [primary_eq]
  refine .kind? h rfl (fun value t t' _ ht => .look (.pure ht (by simp [Expr.relabel])))
    (.ident? h (fun id id' t t' _ ht hid => .pure ht (by simp [Expr.relabel, hid]))
    (.mark? h (fun left left' t t' hlt ht => ?_) (.fault h fun _ => .expectedExpr)))
  refine (expr_tracks 0 ht).bind fun e e' t₁ t₁' _ ht₁ he => ?_
  exact .mark ht₁ fun right right' t₂ t₂' _ ht₂ => .pure ht₂ he
termination_by 6 * s.size + 1

theorem trailers_tracks {s s' : Input} {base base' : Expr} (hbase : base.erase = base'.erase)
    (h : s.Paired s') :
    Tracks (trailers base) (trailers base') (fun e e' => e.erase = e'.erase) s s' := by
  rw [trailers_eq base, trailers_eq base']
  refine .kind? h rfl (fun trailer t t' hlt ht => ?_) (.pure h hbase)
  cases trailer with
  | call =>
    refine (args_tracks ht).bind fun values values' t₁ t₁' hrun ht₁ hvalues => ?_
    have hlt₁ : t₁.size < t.size + 1 := Reading.size_lt hrun
    refine .mark ht₁ fun right right' t₂ t₂' hlt₂ ht₂ => ?_
    exact trailers_tracks (by simp [Expr.relabel, hbase, hvalues]) ht₂
  | index =>
    refine (expr_tracks 0 ht).bind fun offset offset' t₁ t₁' hrun ht₁ hoffset => ?_
    have hlt₁ : t₁.size < t.size := Reading.size_lt hrun
    refine .mark ht₁ fun right right' t₂ t₂' hlt₂ ht₂ => ?_
    exact trailers_tracks (by simp [Expr.relabel, hbase, hoffset]) ht₂
  | member arrow =>
    refine .ident ht fun field field' t₁ t₁' hlt₁ ht₁ hfield => ?_
    exact trailers_tracks (by simp [Expr.relabel, hbase, hfield]) ht₁
termination_by 6 * s.size

theorem args_tracks {s s' : Input} (h : s.Paired s') :
    Tracks args args (fun es es' => eraseExprs es = eraseExprs es') s s' := by
  rw [args_eq]
  refine commaList_tracks rfl (fun e e' es es' he hes => ?_) h (expr_tracks 0 h)
    (fun _ _ hrun => Reading.size_lt hrun) fun t t' hlt ht => args_tracks ht
  simp [relabelExprs, he, hes]
termination_by 6 * s.size + 5

end

/-! ## Statements -/

section

variable {s s' : Input}

theorem exprSemi_tracks (h : s.Paired s') :
    Tracks exprSemi exprSemi (fun e e' => e.1.erase = e'.1.erase) s s' := by
  rw [exprSemi_eq]
  refine (expr_tracks 0 h).bind fun e e' t t' _ ht he => ?_
  exact .mark ht fun semi semi' t₁ t₁' _ ht₁ => .pure ht₁ he

theorem condition_tracks (h : s.Paired s') :
    Tracks condition condition (fun e e' => e.erase = e'.erase) s s' := by
  rw [condition_eq]
  refine .mark h fun left left' t t' _ ht => ?_
  refine (expr_tracks 0 ht).bind fun e e' t₁ t₁' _ ht₁ he => ?_
  exact .mark ht₁ fun right right' t₂ t₂' _ ht₂ => .pure ht₂ he

theorem varDecl_tracks (h : s.Paired s') :
    Tracks varDecl varDecl (fun st st' => st.erase = st'.erase) s s' := by
  rw [varDecl_eq]
  refine .look ((decl_tracks h).bind fun d d' t t' _ ht hd => ?_)
  refine .mark? ht (fun assign assign' t₁ t₁' _ ht₁ => ?_) ?_
  · refine (exprSemi_tracks ht₁).bind fun init init' t₂ t₂' _ ht₂ hinit => ?_
    exact .pure ht₂ (by simp [Stmt.relabel, hd, hinit])
  · refine .mark ht fun semi semi' t₁ t₁' _ ht₁ => ?_
    exact .pure ht₁ (by simp [Stmt.relabel, hd])

theorem returned_tracks (start start' : Span) (h : s.Paired s') :
    Tracks (returned start) (returned start') (fun st st' => st.erase = st'.erase) s s' := by
  rw [returned_eq start, returned_eq start']
  refine .mark? h (fun semi semi' t t' _ ht => .pure ht ?_) ?_
  · simp [Stmt.relabel]
  · refine (exprSemi_tracks h).bind fun value value' t t' _ ht hvalue => ?_
    exact .pure ht (by simp [Stmt.relabel, hvalue])

end

mutual

theorem block_tracks {s s' : Input} (h : s.Paired s') :
    Tracks block block (fun b b' => b.erase = b'.erase) s s' := by
  rw [block_eq]
  refine .mark h fun left left' t t' hlt ht => ?_
  refine (stmts_tracks ht).bind fun body body' t₁ t₁' _ ht₁ hbody => ?_
  refine .mark ht₁ fun right right' t₂ t₂' _ ht₂ => ?_
  exact .pure ht₂ (by simp [Block.relabel, hbody])
termination_by 4 * s.size

theorem stmt_tracks {s s' : Input} (h : s.Paired s') :
    Tracks stmt stmt (fun st st' => st.erase = st'.erase) s s' := by
  rw [stmt_eq]
  refine .look ?_
  rw [h.kind]
  split
  · exact varDecl_tracks h
  · split
    · refine (block_tracks h).bind fun body body' t t' _ ht hbody => ?_
      have hstmts : eraseStmts body.stmts = eraseStmts body'.stmts := congrArg Block.stmts hbody
      exact .pure ht (by simp [Stmt.relabel, hstmts])
    · refine .kind? h rfl (fun lead t t' hlt ht => led_tracks lead ht) ?_
      refine (exprSemi_tracks h).bind fun value value' t t' _ ht hvalue => ?_
      exact .pure ht (by simp [Stmt.relabel, hvalue])
termination_by 4 * s.size + 2

theorem led_tracks {s s' : Input} (lead : Lead) (h : s.Paired s') :
    Tracks (led lead) (led lead) (fun st st' => st.erase = st'.erase) s s' := by
  rw [led_eq]
  refine .look ?_
  cases lead with
  | ret => exact returned_tracks _ _ h
  | cond =>
    refine (condition_tracks h).bind fun cond cond' t t' hrun ht hcond => ?_
    have hlt : t.size < s.size := Reading.size_lt hrun
    refine (stmt_tracks ht).bind fun yes yes' t₁ t₁' hrun₁ ht₁ hyes => ?_
    have hlt₁ : t₁.size < t.size := Reading.size_lt hrun₁
    refine .keyword? ht₁ (fun alt alt' t₂ t₂' hlt₂ ht₂ => ?_) (.look (.pure ht₁ ?_))
    · refine (stmt_tracks ht₂).bind fun no no' t₃ t₃' _ ht₃ hno => .look (.pure ht₃ ?_)
      simp [Stmt.relabel, hcond, hyes, hno]
    · simp [Stmt.relabel, hcond, hyes]
  | loop =>
    refine (condition_tracks h).bind fun cond cond' t t' hrun ht hcond => ?_
    have hlt : t.size < s.size := Reading.size_lt hrun
    refine (stmt_tracks ht).bind fun body body' t₁ t₁' _ ht₁ hbody => .look (.pure ht₁ ?_)
    simp [Stmt.relabel, hcond, hbody]
  | brk => exact .mark h fun semi semi' t t' _ ht => .pure ht (by simp [Stmt.relabel])
  | cont => exact .mark h fun semi semi' t t' _ ht => .pure ht (by simp [Stmt.relabel])
  | empty => exact .pure h (by simp [Stmt.relabel])
termination_by 4 * s.size + 1

theorem stmts_tracks {s s' : Input} (h : s.Paired s') :
    Tracks stmts stmts (fun sts sts' => eraseStmts sts = eraseStmts sts') s s' := by
  rw [stmts_eq]
  refine .look ?_
  rw [h.stopsAt]
  split
  · exact .pure h rfl
  · refine (stmt_tracks h).bind fun first first' t t' hrun ht hfirst => ?_
    have hlt : t.size < s.size := Reading.size_lt hrun
    refine (stmts_tracks ht).bind fun more more' t₁ t₁' _ ht₁ hmore => ?_
    exact .pure ht₁ (by simp [relabelStmts, hfirst, hmore])
termination_by 4 * s.size + 3

end

/-! ## Items -/

theorem params_tracks {s s' : Input} (h : s.Paired s') :
    Tracks params params (fun ds ds' => eraseDecls ds = eraseDecls ds') s s' := by
  rw [params_eq]
  refine commaList_tracks rfl (fun d d' ds ds' hd hds => ?_) h (decl_tracks h)
    (fun _ _ hrun => Reading.size_lt hrun) fun t t' hlt ht => params_tracks ht
  simp [relabelDecls, hd, hds]
termination_by s.size

section

variable {s s' : Input} {start start' : Span} {spec spec' : Specifier}

theorem function_tracks {name name' : Ident} (hspec : spec.erase = spec'.erase)
    (hname : name.erase = name'.erase) (h : s.Paired s') :
    Tracks (function start spec name) (function start' spec' name')
      (fun i i' => i.erase = i'.erase) s s' := by
  refine .mark h fun left left' t t' _ ht => ?_
  refine (params_tracks ht).bind fun ps ps' t₁ t₁' _ ht₁ hps => ?_
  refine .mark ht₁ fun right right' t₂ t₂' _ ht₂ => .look ?_
  rw [ht₂.kind]
  split
  · refine (block_tracks ht₂).bind fun body body' t₃ t₃' _ ht₃ hbody => ?_
    exact .pure ht₃ (by simp [Item.relabel, Signature.relabel, hspec, hname, hps, hbody])
  · refine .mark ht₂ fun semi semi' t₃ t₃' _ ht₃ => ?_
    exact .pure ht₃ (by simp [Item.relabel, Signature.relabel, hspec, hname, hps])

theorem global_tracks {d d' : Declarator} (hspec : spec.erase = spec'.erase)
    (hd : d.erase = d'.erase) (h : s.Paired s') :
    Tracks (global start spec d) (global start' spec' d') (fun i i' => i.erase = i'.erase)
      s s' := by
  refine .mark h fun semi semi' t t' _ ht => .pure ht ?_
  simp [Item.relabel, Decl.relabel, hspec, hd]

theorem named_tracks (hspec : spec.erase = spec'.erase) (h : s.Paired s') :
    Tracks (named start spec) (named start' spec') (fun i i' => i.erase = i'.erase) s s' := by
  refine .ident? h (fun name name' t t' _ ht hname => .look ?_) ?_
  · rw [ht.kind]
    split
    · exact function_tracks hspec hname ht
    · have hinner : (Declarator.ident name).erase = (Declarator.ident name').erase := by
        simp [Declarator.relabel, hname]
      refine (arrays_tracks hinner ht).bind fun d d' t₁ t₁' _ ht₁ hd => ?_
      exact global_tracks hspec hd ht₁
  · refine (declarator_tracks h).bind fun d d' t t' _ ht hd => ?_
    exact global_tracks hspec hd ht

theorem item_tracks (h : s.Paired s') :
    Tracks item item (fun i i' => i.erase = i'.erase) s s' := by
  rw [item_eq]
  refine .look ((specifier_tracks h).bind fun spec spec' t t' _ ht hspec => ?_)
  refine .mark? ht (fun semi semi' t₁ t₁' _ ht₁ => .pure ht₁ ?_) (named_tracks hspec ht)
  simp [Item.relabel, hspec]

end

/-- The items of paired inputs are the same but for spans, or the errors match. -/
theorem readItems_tracks {s s' : Input} (h : s.Paired s') :
    (∃ e e', s.readItems = .error e ∧ s'.readItems = .error e' ∧ e.Matches s.rest s'.rest e') ∨
      ∃ items items', s.readItems = .ok items ∧ s'.readItems = .ok items' ∧
        items.map Item.erase = items'.map Item.erase := by
  by_cases hkind : s.kind = .eof
  · right
    refine ⟨[], [], ?_, ?_, rfl⟩
    · rw [Input.readItems, if_pos hkind]
    · rw [Input.readItems, if_pos (h.kind ▸ hkind)]
  · have hkind' : s'.kind ≠ .eof := h.kind ▸ hkind
    cases item_tracks h with
    | fails e e' hrun hrun' hmatch =>
      exact .inl ⟨e, e', readItems_of_error hkind hrun, readItems_of_error hkind' hrun', hmatch⟩
    | reads n i i' t t' hrun hrun' hi ht hrest hrest' =>
      have hlt : t.size < s.size := Reading.size_lt hrun
      rw [readItems_of_ok hkind hrun, readItems_of_ok hkind' hrun']
      rcases readItems_tracks ht with ⟨e, e', he, he', hmatch⟩ | ⟨items, items', hok, hok', heq⟩
      · rw [hrest, hrest'] at hmatch
        exact .inl ⟨e, e', by rw [he]; rfl, by rw [he']; rfl, hmatch.of_drop⟩
      · refine .inr ⟨i :: items, i' :: items', by rw [hok]; rfl, by rw [hok']; rfl, ?_⟩
        rw [List.map_cons, List.map_cons, hi, heq]
termination_by s.size

end MiniC
