import Mathlib.Data.List.Chain
import MiniC.Proofs.Grammar.Basic
import MiniC.Proofs.Words

/-!
# The tokens of phrases

Which tokens phrases have, what is left of them, and where the commas of strict phrases stand.
-/

namespace MiniC

theorem Phrase.proper (h : Phrase lax x w v) : ∀ c ∈ w, c.Proper ∧ c ≠ .eof := by
  induction h <;> simp_all [enclosed, Kind.Proper, or_imp, forall_and]

/-- Parentheses and commas, which are all that a phrase can drop. -/
def Kind.isFraming : Kind → Bool
  | .mark .leftParen | .mark .rightParen | .mark .comma => true
  | _ => false

theorem Phrase.sublist (h : Phrase lax x w v) : v.Sublist w := by
  induction h <;> simp_all [enclosed, List.Sublist.append]

theorem Phrase.filter_eq (h : Phrase lax x w v) :
    v.filter (!·.isFraming) = w.filter (!·.isFraming) := by
  induction h with
  | paren _ ih | closingComma _ _ ih => simpa [enclosed, Kind.isFraming] using ih
  | _ => simp_all [enclosed, List.filter_cons]

/-- A program ends with a semicolon or a closing brace, as its items do. -/
theorem Phrase.closed (h : Phrase lax x w v) (hx : x = .item ∨ x = .program) :
    ∀ c ∈ w.getLast?, c = .mark .semicolon ∨ c = .mark .rightBrace := by
  induction h with
  | noItem => simp
  | oneItem _ _ ih ih' =>
    intro c hc
    rw [List.getLast?_append] at hc
    rcases Option.or_eq_some_iff.1 hc with hc | ⟨-, hc⟩
    · exact ih' (.inr rfl) c hc
    · exact ih (.inl rfl) c hc
  | function | prototype | global | tagOnly => simp [enclosed, List.getLast?_cons]
  | _ => simp at hx

/-! ## Commas -/

/-- No comma stands right before a closing parenthesis, nor at the end. -/
def Tidy (w : List Kind) : Prop :=
  w.IsChain (fun c c' => c = .mark .comma → c' ≠ .mark .rightParen) ∧
    w.getLast? ≠ some (.mark .comma)

@[simp] theorem tidy_nil : Tidy [] := ⟨.nil, by simp⟩

theorem Tidy.no_closingComma (h : Tidy w) : ¬ [.mark .comma, .mark .rightParen] <:+: w := by
  rintro ⟨u, v, rfl⟩
  have hpair := h.1.left_of_append.right_of_append
  simp at hpair

theorem tidy_append (h : Tidy w) : Tidy (w ++ v) ↔ Tidy v := by
  have hlast : ∀ c ∈ w.getLast?, ∀ c' ∈ v.head?, c = .mark .comma → c' ≠ .mark .rightParen := by
    rintro c hc c' _ rfl
    exact absurd hc h.2
  unfold Tidy
  rw [List.isChain_append, List.getLast?_append]
  cases hv : v.getLast? with
  | none =>
    obtain rfl : v = [] := List.getLast?_eq_none_iff.1 hv
    simp [h.1, h.2]
  | some c => exact ⟨fun hw => ⟨hw.1.2.1, hw.2⟩, fun hv => ⟨⟨h.1, hv.1, hlast⟩, hv.2⟩⟩

theorem tidy_cons (hc : c ≠ .mark .comma) : Tidy (c :: w) ↔ Tidy w := by
  have h : Tidy [c] := ⟨List.isChain_singleton _, by simpa using hc⟩
  exact tidy_append (w := [c]) h

theorem Tidy.comma (hw : Tidy w) (hv : Tidy v)
    (hstart : ∃ c k, v = c :: k ∧ c ≠ .mark .rightParen) : Tidy (w ++ .mark .comma :: v) := by
  obtain ⟨c, k, rfl, hc⟩ := hstart
  rw [tidy_append hw]
  refine ⟨List.isChain_cons_cons.2 ⟨fun _ => hc, hv.1⟩, ?_⟩
  rw [List.getLast?_cons_cons]
  exact hv.2

/-- The commas of strict phrases stand before elements. -/
theorem Phrase.tidy (h : Phrase false x w v) : Tidy w := by
  induction h with
  | @more l _ _ _ _ hw hv ihw ihv =>
    obtain ⟨c, k, rfl, hc⟩ := hv.opens rfl
    refine ihw.comma ihv ⟨c, k, rfl, ?_⟩
    rintro rfl
    cases l <;> cases hc
  | @binary _ m _ _ _ _ hm _ _ ihw ihv =>
    have hne : m ≠ .comma := by
      rintro rfl
      obtain ⟨op, hop, -⟩ := of_mem_levelMarks hm
      cases hop
    simp_all [tidy_cons, tidy_append]
  | @unary m _ _ hm _ ih =>
    have hne : m ≠ .comma := by
      rintro rfl
      obtain ⟨op, hop, -⟩ := of_mem_unaryMarks hm
      cases hop
    simp_all [tidy_cons]
  | member _ hm _ ih =>
    rcases hm with rfl | rfl <;> simp_all [tidy_cons, tidy_append]
  | _ => simp_all [enclosed, tidy_cons, tidy_append]

end MiniC
