/-!
# Spans

A span is a range of byte offsets into the UTF-8 form of a source text, together
with the line on which the range starts.
-/

namespace LoxLang

structure Span where
  start : Nat
  stop : Nat
  line : Nat
deriving DecidableEq

namespace Span

/-- The span of the one byte at `offset`. -/
def single (offset line : Nat) : Span := ⟨offset, offset + 1, line⟩

/-- The empty span behind `span`, on its line. -/
def after (span : Span) : Span := ⟨span.stop, span.stop, span.line⟩

/-- The least range that covers both spans, on the line of the first. -/
def cover (first second : Span) : Span :=
  ⟨min first.start second.start, max first.stop second.stop, first.line⟩

end Span

end LoxLang
