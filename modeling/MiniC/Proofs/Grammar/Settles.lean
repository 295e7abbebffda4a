import Mathlib.Data.List.Infix
import MiniC.Proofs.Grammar.Basic
import MiniC.Proofs.Reading.Steps
import MiniC.Proofs.Words

/-!
# What a reader settles

Readers look one token ahead. So when a reader stops, at its end or at a syntax error, the tokens
before the one it stopped at and that token decide what it did, whatever comes after them. `Settles`
says this, and for each of the two outcomes what the tokens before are: after a value `a`, they are
related to `a` by `G`, and before an error, they can be completed to tokens of the language `L`.
-/

namespace MiniC

open Reader

/-- Tokens as they come from a source: words are words of the language, and the end mark stands at
the end only. Unless `lax`, no comma stands right before a closing parenthesis. -/
structure Lexed (lax : Bool) (k : List Kind) : Prop where
  ended : ∃ w, k = w ++ [.eof] ∧ .eof ∉ w
  proper : ∀ c ∈ k, c.Proper
  strict : lax = false → ¬ [.mark .comma, .mark .rightParen] <:+: k

theorem Lexed.of_append {lax : Bool} {u k : List Kind} (h : Lexed lax (u ++ k)) (hk : k ≠ []) :
    Lexed lax k := by
  obtain ⟨⟨w, hw, heof⟩, hproper, hstrict⟩ := h
  refine ⟨?_, fun c hc => hproper c (List.mem_append_right u hc), fun hlax hin =>
    hstrict hlax (hin.trans (List.suffix_append u k).isInfix)⟩
  obtain ⟨k', c, rfl⟩ := (List.eq_nil_or_concat' k).resolve_left hk
  rw [← List.append_assoc] at hw
  obtain ⟨rfl, hc⟩ := List.append_inj' hw rfl
  exact ⟨k', by rw [hc], fun hmem => heof (List.mem_append_right u hmem)⟩

section

variable {s t : Input} {u : List Kind} {c : Kind}

theorem Input.size_eq (s : Input) : s.size = s.kinds.length := List.length_map _ |>.symm

theorem Input.size_lt_of_cons (h : s.kinds = c :: t.kinds) : t.size < s.size := by
  rw [size_eq, size_eq, h, List.length_cons]
  omega

theorem Input.size_le_of_append (h : s.kinds = u ++ t.kinds) : t.size ≤ s.size := by
  rw [size_eq, size_eq, h, List.length_append]
  omega

end

/-- The function looks no further than the token that comes next. -/
def Local (φ : Input → α) : Prop :=
  ∀ s t : Input, s.last = t.last → s.rest.head? = t.rest.head? → φ s = φ t

theorem Local.of_current (g : Token → Span → α) : Local fun s => g s.current s.last := by
  intro s t hlast hhead
  simp only [Input.current, List.headD_eq_head?_getD, hlast, hhead]

theorem local_here : Local fun s => s.current.span := .of_current fun t _ => t.span

theorem local_last : Local fun s => s.last := .of_current fun _ last => last

theorem local_kind : Local fun s => s.kind := .of_current fun t _ => t.kind

theorem local_stopsAt (m : Mark) : Local fun s => s.stopsAt m :=
  .of_current fun t _ => t.kind = .mark m || t.kind = .eof

theorem local_fault (cause : Kind → SyntaxError.Cause) :
    Local fun s => s.fault (cause s.kind) := by
  intro s t hlast hhead
  have hcurrent : s.current = t.current := Local.of_current (fun t _ => t) s t hlast hhead
  simp only [Input.fault, Input.kind, hcurrent]

theorem fault_span (s : Input) (cause : SyntaxError.Cause) :
    (s.fault cause).span = s.current.span := by
  unfold Input.fault
  split <;> rfl

/-- How a reader ends. -/
inductive Settles (m : Reader α) (G : α → List Kind → Kind → Prop) (L : List Kind → Prop)
    (s : Input) : Prop
  | reads (u : List Token) (t : Token) (w : List Token) (a : α) (last : Span) :
      s.rest = u ++ t :: w → G a (u.map (·.kind)) t.kind →
      (∀ w', m ⟨s.last, u ++ t :: w'⟩ = .ok (a, ⟨last, t :: w'⟩)) → Settles m G L s
  | fails (u : List Token) (t : Token) (w : List Token) (e : SyntaxError) :
      s.rest = u ++ t :: w → (∃ v, L (u.map (·.kind) ++ v)) → e.span = t.span →
      (∀ w', m ⟨s.last, u ++ t :: w'⟩ = .error e) → Settles m G L s

namespace Settles

variable {α β : Type} {lax : Bool} {m : Reader α} {f : α → Reader β} {s : Input}
  {G₁ : α → List Kind → Kind → Prop} {G : β → List Kind → Kind → Prop} {L₁ L : List Kind → Prop}

theorem exists_eq_cons (hs : Lexed lax s.kinds) :
    ∃ t w, s.rest = t :: w ∧ s.current = t ∧ s.kind = t.kind := by
  obtain ⟨last, _ | ⟨t, w⟩⟩ := s
  · obtain ⟨w, hw, -⟩ := hs.ended
    simp [Input.kinds] at hw
  · exact ⟨t, w, rfl, rfl, rfl⟩

protected theorem pure {b : β} (hs : Lexed lax s.kinds) (hG : G b [] s.kind) :
    Settles (pure b) G L s := by
  obtain ⟨t, w, hrest, -, hkind⟩ := exists_eq_cons hs
  exact .reads [] t w b s.last hrest (hkind ▸ hG) fun w' => rfl

/-- What comes next is still the same when only the tokens after a later one change. -/
theorem cons_of_append {u w w₁ : List Token} {t t₁ : Token} (h : t₁ :: w₁ = u ++ t :: w)
    (w' : List Token) : ∃ w₁', u ++ t :: w' = t₁ :: w₁' := by
  cases u with
  | nil =>
    obtain ⟨rfl, -⟩ := List.cons.inj h
    exact ⟨w', rfl⟩
  | cons t' u =>
    obtain ⟨rfl, -⟩ := List.cons.inj h
    exact ⟨u ++ t :: w', rfl⟩

protected theorem bind (hs : Lexed lax s.kinds) (hm : Settles m G₁ L₁ s)
    (hL : ∀ w, L₁ w → ∃ v, L (w ++ v))
    (hf : ∀ a t u, m s = .ok (a, t) → Lexed lax t.kinds → s.kinds = u ++ t.kinds →
      G₁ a u t.kind → Settles (f a) (fun b v c => G b (u ++ v) c) (fun v => L (u ++ v)) t) :
    Settles (m >>= f) G L s := by
  obtain ⟨last, rest⟩ := s
  cases hm with
  | fails u t w e hrest hv hspan hrun =>
    obtain ⟨v, hv⟩ := hv
    obtain ⟨v', hv'⟩ := hL _ hv
    refine .fails u t w e hrest ⟨v ++ v', ?_⟩ hspan fun w' => bind_error (hrun w')
    rw [← List.append_assoc]
    exact hv'
  | reads u t w a last₁ hrest hG hrun =>
    obtain rfl : rest = u ++ t :: w := hrest
    have hkinds : Input.kinds ⟨last, u ++ t :: w⟩ =
        u.map (·.kind) ++ Input.kinds ⟨last₁, t :: w⟩ := List.map_append
    have hnext := hf a ⟨last₁, t :: w⟩ _ (hrun w) ((hkinds ▸ hs).of_append (by simp [Input.kinds]))
      hkinds hG
    -- the second step goes on from the token where the first one stopped
    have hgo {u₂ : List Token} {t₂ : Token} {w₂ : List Token} (h : t :: w = u₂ ++ t₂ :: w₂)
        (w' : List Token) : (m >>= f) ⟨last, u ++ u₂ ++ t₂ :: w'⟩ =
          f a ⟨last₁, u₂ ++ t₂ :: w'⟩ := by
      obtain ⟨w₁, hw₁⟩ := cons_of_append h w'
      rw [List.append_assoc, hw₁, bind_ok (hrun w₁)]
    cases hnext with
    | fails u₂ t₂ w₂ e hrest₂ hv hspan hrun₂ =>
      refine .fails (u ++ u₂) t₂ w₂ e ?_ (by simpa using hv) hspan fun w' => ?_
      · exact (congrArg (u ++ ·) hrest₂).trans (List.append_assoc ..).symm
      · exact (hgo hrest₂ w').trans (hrun₂ w')
    | reads u₂ t₂ w₂ b last₂ hrest₂ hG₂ hrun₂ =>
      refine .reads (u ++ u₂) t₂ w₂ b last₂ ?_ (by simpa using hG₂) fun w' => ?_
      · exact (congrArg (u ++ ·) hrest₂).trans (List.append_assoc ..).symm
      · exact (hgo hrest₂ w').trans (hrun₂ w')

/-- A step that makes the tokens whole: nothing needs to come after it. -/
theorem bind_whole (hs : Lexed lax s.kinds) (hm : Settles m G₁ L₁ s) (hL : ∀ w, L₁ w → L w)
    (hf : ∀ a t u, m s = .ok (a, t) → Lexed lax t.kinds → s.kinds = u ++ t.kinds →
      G₁ a u t.kind → Settles (f a) (fun b v c => G b (u ++ v) c) (fun v => L (u ++ v)) t) :
    Settles (m >>= f) G L s :=
  .bind hs hm (fun w hw => ⟨[], (List.append_nil w).symm ▸ hL w hw⟩) hf

theorem mono {m : Reader β} {G₁ : β → List Kind → Kind → Prop} (hm : Settles m G₁ L₁ s)
    (hG : ∀ b u c, G₁ b u c → G b u c) (hL : ∀ w, L₁ w → L w) : Settles m G L s := by
  cases hm with
  | fails u t w e hrest hv hspan hrun =>
    obtain ⟨v, hv⟩ := hv
    exact .fails u t w e hrest ⟨v, hL _ hv⟩ hspan hrun
  | reads u t w b last hrest h hrun => exact .reads u t w b last hrest (hG b _ _ h) hrun

theorem look {φ : Input → α} (hφ : Local φ) (hf : Settles (f (φ s)) G L s) :
    Settles (look φ >>= f) G L s := by
  have hgo {u : List Token} {t : Token} {w : List Token} (h : s.rest = u ++ t :: w)
      (w' : List Token) : (Reader.look φ >>= f) ⟨s.last, u ++ t :: w'⟩ =
        f (φ s) ⟨s.last, u ++ t :: w'⟩ := by
    have hsame : φ ⟨s.last, u ++ t :: w'⟩ = φ s := by
      refine hφ _ _ rfl ?_
      rw [h]
      cases u <;> rfl
    rw [← hsame]
    exact bind_ok rfl
  cases hf with
  | fails u t w e hrest hv hspan hrun =>
    exact .fails u t w e hrest hv hspan fun w' => (hgo hrest w').trans (hrun w')
  | reads u t w b last hrest hG hrun =>
    exact .reads u t w b last hrest hG fun w' => (hgo hrest w').trans (hrun w')

/-- An error at the token that comes next. -/
protected theorem fail {φ : Input → SyntaxError} (hs : Lexed lax s.kinds) (hL : ∃ v, L v)
    (hspan : (φ s).span = s.current.span) (hφ : Local φ) :
    Settles (fail φ : Reader β) G L s := by
  obtain ⟨t, w, hrest, hcurrent, -⟩ := exists_eq_cons hs
  refine .fails [] t w (φ s) hrest hL (hspan.trans (by rw [hcurrent])) fun w' => ?_
  exact congrArg Except.error (hφ _ _ rfl (by rw [hrest]; rfl))

theorem fault (hs : Lexed lax s.kinds) (hL : ∃ v, L v) (cause : SyntaxError.Cause) :
    Settles (Reader.fail (·.fault cause) : Reader β) G L s :=
  .fail hs hL (fault_span s cause) (local_fault fun _ => cause)

/-- Taking the next token, if it is accepted, which the end mark is not. -/
theorem taken {q : Token → Option α} (hs : Lexed lax s.kinds)
    (heof : ∀ t, t.kind = .eof → q t = none) :
    Settles (Reader.take? q) (fun o u _ => ∀ a ∈ o, ∃ t, q t = some a ∧ u = [t.kind])
      (fun _ => False) s := by
  obtain ⟨last, rest⟩ := s
  obtain ⟨t, w, rfl, -, -⟩ := exists_eq_cons hs
  cases hq : q t with
  | none => exact .reads [] t w none last rfl (by simp) fun w' => by simp [Reader.take?, hq]
  | some a =>
    obtain ⟨k, hk, hmem⟩ := hs.ended
    cases w with
    | nil =>
      have ht : [] ++ [t.kind] = k ++ [.eof] := hk
      obtain ⟨-, ht⟩ := List.append_inj' ht rfl
      cases (heof t (List.cons.inj ht).1).symm.trans hq
    | cons t₂ w₂ =>
      refine .reads [t] t₂ w₂ (some a) t.span rfl ?_ fun w' => by simp [Reader.take?, hq]
      rintro _ ⟨⟩
      exact ⟨t, hq, rfl⟩

section

variable {f : Option α → Reader β}

theorem take? {q : Token → Option α} (hs : Lexed lax s.kinds)
    (heof : ∀ t, t.kind = .eof → q t = none)
    (hsome : ∀ tok a t, q tok = some a → tok.kind.Proper → s.kinds = tok.kind :: t.kinds →
      Lexed lax t.kinds → Settles (f (some a)) (fun b v c => G b (tok.kind :: v) c)
        (fun v => L (tok.kind :: v)) t)
    (hnone : q s.current = none → Settles (f none) G L s) :
    Settles (Reader.take? q >>= f) G L s := by
  refine .bind hs (taken hs heof) (by simp) fun o t u hrun ht hk hG => ?_
  cases o with
  | some a =>
    obtain ⟨tok, hq, rfl⟩ := hG a rfl
    have hproper : tok.kind.Proper := hs.proper _ (by rw [hk]; exact List.mem_cons_self)
    exact hsome tok a t hq hproper hk ht
  | none =>
    obtain ⟨tok, w, hrest, hcurrent, -⟩ := exists_eq_cons hs
    cases hq : q tok with
    | some a => simp [Reader.take?, hrest, hq] at hrun
    | none =>
      obtain rfl : s = t := by simpa [Reader.take?, hrest, hq] using hrun
      obtain rfl : u = [] := List.append_left_eq_self.1 hk.symm
      exact hnone (hcurrent ▸ hq)

theorem kind? {q : Kind → Option α} (hs : Lexed lax s.kinds) (heof : q .eof = none)
    (hsome : ∀ c a t, q c = some a → c.Proper → s.kinds = c :: t.kinds → Lexed lax t.kinds →
      Settles (f (some a)) (fun b v c' => G b (c :: v) c') (fun v => L (c :: v)) t)
    (hnone : q s.kind = none → Settles (f none) G L s) : Settles (Reader.kind? q >>= f) G L s :=
  .take? hs (fun t ht => by rw [ht, heof]) (fun tok a t hq => hsome tok.kind a t hq) hnone

theorem ident? {f : Option Ident → Reader β} (hs : Lexed lax s.kinds)
    (hsome : ∀ id t, isName id.name = true → s.kinds = .ident id.name :: t.kinds →
      Lexed lax t.kinds → Settles (f (some id)) (fun b v c => G b (.ident id.name :: v) c)
        (fun v => L (.ident id.name :: v)) t)
    (hnone : (∀ name, s.kind ≠ .ident name) → Settles (f none) G L s) :
    Settles (Reader.ident? >>= f) G L s := by
  refine .take? hs (fun t ht => by simp [ht]) (fun tok id t hq hproper hk ht => ?_) fun hq => ?_
  · split at hq
    · rename_i name hname
      cases hq
      rw [hname] at hproper hk ⊢
      exact hsome ⟨name, tok.span⟩ t hproper hk ht
    · cases hq
  · refine hnone fun name hname => ?_
    have hname : s.current.kind = .ident name := hname
    simp [hname] at hq

end

section

variable {f : Option Span → Reader β}

theorem mark? {m : Mark} (hs : Lexed lax s.kinds)
    (hsome : ∀ span t, s.kinds = .mark m :: t.kinds → Lexed lax t.kinds →
      Settles (f (some span)) (fun b v c => G b (.mark m :: v) c) (fun v => L (.mark m :: v)) t)
    (hnone : s.kind ≠ .mark m → Settles (f none) G L s) : Settles (Reader.mark? m >>= f) G L s := by
  refine .take? hs (fun t ht => by simp [ht]) (fun tok span t hq _ hk ht => ?_) fun hq => ?_
  · obtain ⟨hm, -⟩ := Option.ite_none_right_eq_some.1 hq
    rw [hm] at hk ⊢
    exact hsome span t hk ht
  · exact hnone fun hm : s.current.kind = _ => by simp [hm] at hq

theorem keyword? {w : Keyword} (hs : Lexed lax s.kinds)
    (hsome : ∀ span t, s.kinds = .keyword w :: t.kinds → Lexed lax t.kinds →
      Settles (f (some span)) (fun b v c => G b (.keyword w :: v) c)
        (fun v => L (.keyword w :: v)) t)
    (hnone : s.kind ≠ .keyword w → Settles (f none) G L s) :
    Settles (Reader.keyword? w >>= f) G L s := by
  refine .take? hs (fun t ht => by simp [ht]) (fun tok span t hq _ hk ht => ?_) fun hq => ?_
  · obtain ⟨hm, -⟩ := Option.ite_none_right_eq_some.1 hq
    rw [hm] at hk ⊢
    exact hsome span t hk ht
  · exact hnone fun hm : s.current.kind = _ => by simp [hm] at hq

end

/-! Tokens that must come next: before an error, nothing has been taken. -/

theorem mark {m : Mark} {f : Span → Reader β} (hs : Lexed lax s.kinds)
    (hL : s.kind ≠ .mark m → ∃ v, L v)
    (hf : ∀ span t, s.kinds = .mark m :: t.kinds → Lexed lax t.kinds →
      Settles (f span) (fun b v c => G b (.mark m :: v) c) (fun v => L (.mark m :: v)) t) :
    Settles (Reader.mark m >>= f) G L s := by
  have hm : Settles (Reader.mark m) (fun _ u _ => u = [.mark m])
      (fun w => w = [] ∧ s.kind ≠ .mark m) s := by
    rw [mark_eq]
    refine .mark? hs (fun span t _ ht => .pure ht rfl) fun hne => ?_
    exact .fail hs ⟨[], rfl, hne⟩ (fault_span s _) (local_fault fun k => .unexpected (.mark m) k)
  refine .bind hs hm ?_ fun span t u _ ht hk hu => ?_
  · rintro _ ⟨rfl, hne⟩
    exact hL hne
  · subst hu
    exact hf span t hk ht

theorem ident {f : Ident → Reader β} (hs : Lexed lax s.kinds) (hL : ∃ v, L v)
    (hf : ∀ id t, isName id.name = true → s.kinds = .ident id.name :: t.kinds →
      Lexed lax t.kinds → Settles (f id) (fun b v c => G b (.ident id.name :: v) c)
        (fun v => L (.ident id.name :: v)) t) :
    Settles (Reader.ident >>= f) G L s := by
  have hm : Settles Reader.ident (fun id u _ => isName id.name = true ∧ u = [.ident id.name])
      (fun w => w = []) s := by
    rw [ident_eq]
    refine .ident? hs (fun id t hid _ ht => .pure ht ⟨hid, rfl⟩) fun _ => ?_
    refine .fault hs ?_ _
    exact ⟨[], rfl⟩
  refine .bind hs hm ?_ fun id t u _ ht hk hu => ?_
  · rintro _ rfl
    exact hL
  · obtain ⟨hid, rfl⟩ := hu
    exact hf id t hid hk ht

theorem integer {f : String → Reader β} (hs : Lexed lax s.kinds) (hL : ∃ v, L v)
    (hf : ∀ text t, isInteger text = true → s.kinds = .integer text :: t.kinds →
      Lexed lax t.kinds → Settles (f text) (fun b v c => G b (.integer text :: v) c)
        (fun v => L (.integer text :: v)) t) :
    Settles (Reader.integer >>= f) G L s := by
  have hm : Settles Reader.integer (fun text u _ => isInteger text = true ∧ u = [.integer text])
      (fun w => w = []) s := by
    rw [integer_eq]
    refine .kind? hs rfl (fun c text t hc hproper _ ht => ?_) fun _ => ?_
    · unfold integer? at hc
      split at hc <;> cases hc
      exact .pure ht ⟨hproper, rfl⟩
    · exact .fail hs ⟨[], rfl⟩ rfl (.of_current fun t _ => SyntaxError.mk .expectedArraySize t.span)
  refine .bind hs hm ?_ fun text t u _ ht hk hu => ?_
  · rintro _ rfl
    exact hL
  · obtain ⟨htext, rfl⟩ := hu
    exact hf text t htext hk ht

end Settles

end MiniC
