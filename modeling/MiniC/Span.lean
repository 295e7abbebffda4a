/-! # Spans of source text

A span is a half-open range of character offsets together with the line and column of its
first character. Spans of larger constructs arise by `Span.join`, which covers both ranges
and keeps the coordinates of the one that starts first. -/

namespace MiniC

/-- The characters from offset `start` up to `stop`, the first of them at `line` and `column`
(both counted from one). -/
structure Span where
  start : Nat
  stop : Nat
  line : Nat
  column : Nat
  deriving DecidableEq, Repr

namespace Span

/-- The span from the earlier start to the later end, with the coordinates of the span that
starts first; of two that start together, those of `a`. -/
def join (a b : Span) : Span where
  start := min a.start b.start
  stop := max a.stop b.stop
  line := if b.start < a.start then b.line else a.line
  column := if b.start < a.start then b.column else a.column

/-- Joining keeps the coordinates of a span that starts no later. -/
theorem join_of_le {a b : Span} (h : a.start ≤ b.start) :
    a.join b = ⟨a.start, max a.stop b.stop, a.line, a.column⟩ := by
  simp [join, Nat.min_eq_left h, Nat.not_lt.2 h]

end Span

end MiniC
