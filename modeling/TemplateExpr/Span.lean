/-!
# Spans

A span is a range of byte positions in the source of a template. Spans come from outside, so a span whose end lies
before its start is legal; it is empty.
-/

namespace TemplateExpr

/-- Byte range from `start` up to, not including, `stop`. -/
structure Span where
  start : Nat
  stop : Nat
  deriving DecidableEq, Inhabited

namespace Span

/-- The span of code that belongs to no place in the source. -/
def dummy : Span := ⟨0, 0⟩

/-- Smallest span that covers both. -/
def merge (a b : Span) : Span := ⟨min a.start b.start, max a.stop b.stop⟩

def length (s : Span) : Nat := s.stop - s.start

def isEmpty (s : Span) : Bool := s.length == 0

/-- Written as its two ends with two dots between them. -/
def text (s : Span) : String := toString s.start ++ ".." ++ toString s.stop

theorem isEmpty_iff (s : Span) : s.isEmpty = true ↔ s.stop ≤ s.start := by
  simp [isEmpty, length, Nat.sub_eq_zero_iff_le]

end Span

end TemplateExpr
