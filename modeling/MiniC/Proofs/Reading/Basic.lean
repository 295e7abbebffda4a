import MiniC.Syntax.Program

/-!
# Readers as a monad

A reading carries the fact that it left fewer tokens, which its recursion needs. Without that fact
(`Reading.plain`) readers are the steps of a state monad over what is left of the tokens, and each
of them is a few steps in a row. Properties of whole readings can then be put together from those
of single steps.
-/

namespace MiniC

/-- A reading step: a value and what is left after it, or a syntax error. -/
def Reader (α : Type) : Type := Input → Except SyntaxError (α × Input)

/-- What was read and what is left. -/
def Reading.plain (r : Reading α n) : Except SyntaxError (α × Input) :=
  r.map fun p => (p.value, p.input)

theorem Reading.of_plain {r : Reading α n} {a : α} {t : Input} (h : r.plain = .ok (a, t)) :
    ∃ p, r = .ok p ∧ p.value = a ∧ p.input = t := by
  cases r with
  | error e => cases h
  | ok p =>
    obtain ⟨rfl, rfl⟩ := Prod.mk.inj (Except.ok.inj h)
    exact ⟨p, rfl, rfl, rfl⟩

theorem Reading.of_plain_error {r : Reading α n} {e : SyntaxError} (h : r.plain = .error e) :
    r = .error e := by
  cases r with
  | error e' => exact congrArg Except.error (Except.error.inj h)
  | ok p => cases h

theorem Reading.size_lt {r : Reading α n} {a : α} {t : Input} (h : r.plain = .ok (a, t)) :
    t.size < n := by
  obtain ⟨p, -, -, rfl⟩ := Reading.of_plain h
  exact p.size_lt

/-- A condition on what a token is taken as, put to the taken one. -/
theorem Input.accept?_filter (s : Input) (f : Kind → Option α) (q : α → Bool) :
    s.accept? (fun k => (f k).filter q) = (s.accept? f).filter (q ·.value) := by
  obtain ⟨last, _ | ⟨t, rest⟩⟩ := s
  · rfl
  · cases h : f t.kind with
    | none => simp [accept?, h]
    | some a => cases hq : q a <;> simp [accept?, h, hq, Option.filter]

namespace Reader

instance : Monad Reader where
  pure a := fun s => .ok (a, s)
  bind m f := fun s =>
    match m s with
    | .ok (a, t) => f a t
    | .error e => .error e

/-- Looks at what is left and takes nothing. -/
def look (f : Input → α) : Reader α := fun s => .ok (f s, s)

/-- Fails at what is left. -/
def fail (f : Input → SyntaxError) : Reader α := fun s => .error (f s)

/-- Takes the next token if `f` accepts it. -/
def take? (f : Token → Option α) : Reader (Option α) := fun s =>
  match s.rest with
  | [] => .ok (none, s)
  | t :: r =>
    match f t with
    | some a => .ok (some a, ⟨t.span, r⟩)
    | none => .ok (none, s)

/-- The span of the next token. -/
def here : Reader Span := look (·.current.span)

/-- The span of the token taken last. -/
def last : Reader Span := look (·.last)

def kind? (f : Kind → Option α) : Reader (Option α) := take? fun t => f t.kind

def mark? (m : Mark) : Reader (Option Span) :=
  take? fun t => if t.kind = .mark m then some t.span else none

def keyword? (w : Keyword) : Reader (Option Span) :=
  take? fun t => if t.kind = .keyword w then some t.span else none

def ident? : Reader (Option Ident) := take? fun t =>
  match t.kind with
  | .ident name => some ⟨name, t.span⟩
  | _ => none

def mark (m : Mark) : Reader Span := fun s => (s.readMark m).plain

def ident : Reader Ident := fun s => s.readIdent.plain

def integer : Reader String := fun s => s.readInteger.plain

section

variable {α β : Type} {s : Input}

theorem bind_ok {m : Reader α} {f : α → Reader β} {a : α} {t : Input} (h : m s = .ok (a, t)) :
    (m >>= f) s = f a t := by
  change (match m s with | .ok (a, t) => f a t | .error e => .error e) = _
  rw [h]

theorem bind_error {m : Reader α} {f : α → Reader β} {e : SyntaxError} (h : m s = .error e) :
    (m >>= f) s = .error e := by
  change (match m s with | .ok (a, t) => f a t | .error e => .error e) = _
  rw [h]

/-- What comes to the rest of the steps after the first comes to all of them. -/
theorem eq_bind {m : Reader α} {f : α → Reader β} {a : α} {t : Input}
    {e : Except SyntaxError (β × Input)} (h : m s = .ok (a, t)) (hf : e = f a t) :
    e = (m >>= f) s :=
  hf.trans (bind_ok h).symm

theorem current_of_head {t : Token} (h : t ∈ s.rest.head?) : s.current = t := by
  obtain ⟨last, _ | ⟨t', rest⟩⟩ := s
  · cases h
  · exact Option.some.inj h

section

-- `f` and `g` say the same of the token that comes next
variable {f : Token → Option α} {g : Kind → Option α} (hfg : ∀ t ∈ s.rest.head?, f t = g t.kind)
include hfg

theorem take?_some {p : Parsed α s.size} (h : s.accept? g = some p) :
    take? f s = .ok (some p.value, p.input) := by
  obtain ⟨last, _ | ⟨t, rest⟩⟩ := s
  · cases h
  · obtain ⟨a, ha, rfl⟩ := Option.map_eq_some_iff.1 h
    have hf : f t = some a := (hfg t rfl).trans ha
    simp only [take?, hf]

theorem take?_none (h : s.accept? g = none) : take? f s = .ok (none, s) := by
  obtain ⟨last, _ | ⟨t, rest⟩⟩ := s
  · rfl
  · have hf : f t = none := (hfg t rfl).trans (Option.map_eq_none_iff.1 h)
    simp only [take?, hf]

end

theorem kind?_some {f : Kind → Option α} {p : Parsed α s.size} (h : s.accept? f = some p) :
    kind? f s = .ok (some p.value, p.input) :=
  take?_some (fun _ _ => rfl) h

theorem kind?_none {f : Kind → Option α} (h : s.accept? f = none) : kind? f s = .ok (none, s) :=
  take?_none (fun _ _ => rfl) h

theorem mark?_some {m : Mark} {p : Parsed Span s.size} (h : s.mark? m = some p) :
    mark? m s = .ok (some p.value, p.input) :=
  take?_some (fun t ht => by rw [current_of_head ht]) h

theorem mark?_none {m : Mark} (h : s.mark? m = none) : mark? m s = .ok (none, s) :=
  take?_none (fun t ht => by rw [current_of_head ht]) h

theorem keyword?_some {w : Keyword} {p : Parsed Span s.size} (h : s.keyword? w = some p) :
    keyword? w s = .ok (some p.value, p.input) :=
  take?_some (fun t ht => by rw [current_of_head ht]) h

theorem keyword?_none {w : Keyword} (h : s.keyword? w = none) : keyword? w s = .ok (none, s) :=
  take?_none (fun t ht => by rw [current_of_head ht]) h

theorem ident?_some {p : Parsed Ident s.size} (h : s.ident? = some p) :
    ident? s = .ok (some p.value, p.input) := by
  refine take?_some (fun t ht => ?_) h
  obtain rfl := current_of_head ht
  rfl

theorem ident?_none (h : s.ident? = none) : ident? s = .ok (none, s) := by
  refine take?_none (fun t ht => ?_) h
  obtain rfl := current_of_head ht
  rfl

/-- Readings in a row are steps in a row. -/
theorem plain_bind {n k : Nat} {r : Reading α n} {f : Parsed α n → Reading β k} {m : Reader α}
    {g : α → Reader β} (hr : r.plain = m s) (hf : ∀ p, (f p).plain = g p.value p.input) :
    Reading.plain (r >>= f) = (m >>= g) s := by
  cases r with
  | error e => exact (bind_error hr.symm).symm
  | ok p => exact (hf p).trans (bind_ok hr.symm).symm

/-- The last reading in a row, whose outcome is only counted anew. -/
theorem plain_last {n k : Nat} {r : Reading α n} {f : Parsed α n → Parsed α k}
    {e : Except SyntaxError (α × Input)} (hr : r.plain = e)
    (hf : ∀ p, (f p).value = p.value ∧ (f p).input = p.input) :
    Reading.plain (do let p ← r; return f p) = e := by
  rw [← hr]
  cases r with
  | error e => rfl
  | ok p => exact congrArg Except.ok (Prod.ext (hf p).1 (hf p).2)

end

end Reader

end MiniC
