import MiniC.Proofs.Rendering
import MiniC.Syntax.Input

/-!
# Readings that succeed

What the reading steps do with tokens of given kinds. `Gives r P k` says that the reading `r`
succeeds with a value that has `P` and leaves tokens of the kinds `k`, and `Gives.bind` puts
readings in a row.
-/

namespace MiniC

namespace Input

/-- The kinds of the tokens that are left. -/
def kinds (s : Input) : List Kind := s.rest.map (·.kind)

section

variable {s : Input} {c : Kind} {k : List Kind} {α : Type}

theorem kind_of_kinds (h : s.kinds = c :: k) : s.kind = c := by
  obtain ⟨last, _ | ⟨t, rest⟩⟩ := s
  · cases h
  · exact (List.cons.inj h).1

/-- A token that is taken was accepted. -/
theorem accept?_eq_some {f : Kind → Option α} {p : Parsed α s.size} (h : s.accept? f = some p) :
    ∃ c, f c = some p.value ∧ s.kinds = c :: p.input.kinds := by
  obtain ⟨last, _ | ⟨t, rest⟩⟩ := s
  · cases h
  · obtain ⟨a, ha, rfl⟩ := Option.map_eq_some_iff.1 h
    exact ⟨t.kind, ha, rfl⟩

/-- The token that comes next is taken if it is accepted. -/
theorem accept?_of_some (h : s.kinds = c :: k) {f : Kind → Option α} {a : α} (hf : f c = some a) :
    ∃ p, s.accept? f = some p ∧ p.value = a ∧ p.input.kinds = k := by
  obtain ⟨last, _ | ⟨t, rest⟩⟩ := s
  · cases h
  · obtain ⟨rfl, rfl⟩ := List.cons.inj h
    exact ⟨⟨a, ⟨t.span, rest⟩, Nat.lt_succ_self _⟩, by simp [accept?, hf], rfl, rfl⟩

theorem accept?_eq_none {f : Kind → Option α} (h : s.accept? f = none) (hk : s.kinds = c :: k) :
    f c = none := by
  cases hf : f c with
  | none => rfl
  | some a =>
    obtain ⟨p, hp, -⟩ := accept?_of_some hk hf
    cases h.symm.trans hp

theorem accept?_of_none {f : Kind → Option α} (hf : ∀ c ∈ s.kinds.head?, f c = none) :
    s.accept? f = none := by
  obtain ⟨last, _ | ⟨t, rest⟩⟩ := s
  · rfl
  · have ht : f t.kind = none := hf t.kind rfl
    simp [accept?, ht]

theorem mark?_of_kinds {m : Mark} (h : s.kinds = .mark m :: k) :
    ∃ p, s.mark? m = some p ∧ p.input.kinds = k := by
  obtain ⟨p, hp, -, hk⟩ := accept?_of_some h
    (f := fun k => if k = .mark m then some s.current.span else none) (if_pos rfl)
  exact ⟨p, hp, hk⟩

theorem mark?_of_head {m : Mark} (h : s.kinds.head? ≠ some (.mark m)) : s.mark? m = none :=
  accept?_of_none fun c hc => if_neg fun heq : c = .mark m => h (heq ▸ hc)

theorem keyword?_of_kinds {w : Keyword} (h : s.kinds = .keyword w :: k) :
    ∃ p, s.keyword? w = some p ∧ p.input.kinds = k := by
  obtain ⟨p, hp, -, hk⟩ := accept?_of_some h
    (f := fun k => if k = .keyword w then some s.current.span else none) (if_pos rfl)
  exact ⟨p, hp, hk⟩

theorem keyword?_of_head {w : Keyword} (h : s.kinds.head? ≠ some (.keyword w)) :
    s.keyword? w = none :=
  accept?_of_none fun c hc => if_neg fun heq : c = .keyword w => h (heq ▸ hc)

theorem ident?_of_kinds {name : String} (h : s.kinds = .ident name :: k) :
    ∃ p, s.ident? = some p ∧ p.value.name = name ∧ p.input.kinds = k := by
  obtain ⟨p, hp, hv, hk⟩ : ∃ p, s.ident? = some p ∧ p.value = ⟨name, s.current.span⟩ ∧
      p.input.kinds = k := accept?_of_some h rfl
  exact ⟨p, hp, by rw [hv], hk⟩

theorem ident?_of_head (h : ∀ name, s.kinds.head? ≠ some (.ident name)) : s.ident? = none := by
  refine accept?_of_none fun c hc => ?_
  split
  · exact absurd hc (h _)
  · rfl

theorem stopsAt_of_kinds {m : Mark} (h : s.kinds = .mark m :: k) : s.stopsAt m = true := by
  simp [stopsAt, kind_of_kinds h]

end

end Input

/-! ## Readings that succeed -/

/-- The reading succeeds with a value that has `P`, and leaves tokens of the kinds `k`. -/
def Gives (r : Reading α n) (P : α → Prop) (k : List Kind) : Prop :=
  ∃ p, r = .ok p ∧ P p.value ∧ p.input.kinds = k

namespace Gives

variable {α β : Type} {n m : Nat} {P : α → Prop} {Q : β → Prop} {k k' : List Kind}

protected theorem ok {p : Parsed α n} (hv : P p.value) (hk : p.input.kinds = k) :
    Gives (.ok p) P k :=
  ⟨p, rfl, hv, hk⟩

protected theorem bind {r : Reading α n} {f : Parsed α n → Reading β m} (hr : Gives r P k)
    (hf : ∀ p, P p.value → p.input.kinds = k → Gives (f p) Q k') : Gives (r >>= f) Q k' := by
  obtain ⟨p, rfl, hv, hk⟩ := hr
  exact hf p hv hk

theorem bind_ok {r : Reading α n} {f : Parsed α n → Reading β m} {p : Parsed α n}
    (hr : r = .ok p) (hf : Gives (f p) Q k) : Gives (r >>= f) Q k := by
  subst hr
  exact hf

end Gives

namespace Input

variable {s : Input} {k : List Kind}

theorem readMark_gives {m : Mark} (h : s.kinds = .mark m :: k) :
    Gives (s.readMark m) (fun _ => True) k := by
  obtain ⟨p, hp, hk⟩ := mark?_of_kinds h
  rw [readMark, hp]
  exact .ok trivial hk

theorem readIdent_gives {name : String} (h : s.kinds = .ident name :: k) :
    Gives s.readIdent (·.name = name) k := by
  obtain ⟨p, hp, hv, hk⟩ := ident?_of_kinds h
  rw [readIdent, hp]
  exact .ok hv hk

end Input

end MiniC
