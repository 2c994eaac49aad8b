/-!
# Spans: half-open ranges of character offsets

Every token and every error says where it stands in the source. A span counts **characters**
(code points), not bytes, and is half open: `start` is the first character covered and `stop`
the first one after it.

Nothing here asks for `start ≤ stop`. Spans also arrive from outside, read from serialized
tokens, and such a span may well run backwards; the operations below give every pair of offsets
a meaning, and `length?` is the one that has none for a span running backwards.
-/

set_option autoImplicit false

namespace FormulaSyntax

/-- The characters from offset `start` up to, but not including, offset `stop`. -/
structure Span where
  start : Nat
  stop : Nat
deriving DecidableEq, Inhabited

namespace Span

/-- The smallest span that covers both. -/
def merge (a b : Span) : Span := ⟨min a.start b.start, max a.stop b.stop⟩

/-- The number of characters covered; a span that runs backwards has none. -/
def length? (s : Span) : Option Nat :=
  if s.start ≤ s.stop then some (s.stop - s.start) else none

/-- A span is empty when it stops where it starts. One that runs backwards is not. -/
def isEmpty (s : Span) : Bool := s.start == s.stop

/-- The part of a text that a span covers. Offsets past the end are cut to the end, and a span
    that runs backwards covers nothing. -/
def slice (s : Span) (text : List Char) : List Char :=
  (text.drop s.start).take (s.stop - s.start)

/-- A span is written with two dots between its offsets. -/
instance : ToString Span := ⟨fun s => toString s.start ++ ".." ++ toString s.stop⟩

@[simp] theorem start_merge (a b : Span) : (a.merge b).start = min a.start b.start := rfl

@[simp] theorem stop_merge (a b : Span) : (a.merge b).stop = max a.stop b.stop := rfl

theorem merge_self (a : Span) : a.merge a = a := by
  cases a; simp [merge]

end Span

end FormulaSyntax
