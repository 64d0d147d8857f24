/-
# Spans

A `Span` is a range of bytes of a text together with the line and column of its first byte.  The
empty span at offset zero, line zero (`default`) stands for "not in the text": it is the span of
a node that was built rather than parsed.

* `Span.contains` is half open: the byte at the end is not contained, and an empty span contains
  nothing (`contains_eq_true_iff`);
* `Span.merge` is the smallest span that covers two non-empty ones; an empty span is neutral
  (`merge_of_isEmpty_left`, `merge_of_isEmpty_right`).

The four numbers have no bound here; the spans that the program hands out have 32 bits for each, and
are cut to them in `Recast.Narrow`.
-/
import Recast.Text.Bytes

namespace Recast

/-- A range of bytes, with the place of its first byte. -/
structure Span where
  offset : Nat
  len : Nat
  line : Nat
  col : Nat
  deriving DecidableEq

namespace Span

instance : Inhabited Span := ⟨⟨0, 0, 0, 0⟩⟩

/-- The span of no bytes at a place. -/
def point (offset line col : Nat) : Span := ⟨offset, 0, line, col⟩

/-- The span from one position up to a later one. -/
def between (start stop : Position) : Span :=
  ⟨start.offset, stop.offset - start.offset, start.line, start.col⟩

/-- Whether the span covers no byte. -/
def isEmpty (s : Span) : Bool := s.len = 0

/-- The offset just past the last byte. -/
def stop (s : Span) : Nat := s.offset + s.len

/-- Whether the byte at `offset` lies in the span. -/
def contains (s : Span) (offset : Nat) : Bool := s.offset ≤ offset && offset < s.stop

/-- The span that covers both spans; its line and column are those of the one that starts first. -/
def merge (a b : Span) : Span :=
  if a.isEmpty then b
  else if b.isEmpty then a
  else
    let first := if a.offset ≤ b.offset then a else b
    ⟨first.offset, max a.stop b.stop - first.offset, first.line, first.col⟩

/-- The place of a span as shown to a user: `line:column`. -/
def text (s : Span) : String := toString s.line ++ ":" ++ toString s.col

/-- The place and the range of a span: `line:column@offset+length`. -/
def detail (s : Span) : String :=
  s.text ++ "@" ++ toString s.offset ++ "+" ++ toString s.len

theorem contains_eq_true_iff (s : Span) (offset : Nat) :
    s.contains offset = true ↔ s.offset ≤ offset ∧ offset < s.stop := by
  simp [contains]

theorem merge_of_isEmpty_left {a : Span} (h : a.isEmpty = true) (b : Span) : a.merge b = b := by
  simp [merge, h]

theorem merge_of_isEmpty_right {b : Span} (h : b.isEmpty = true) {a : Span}
    (ha : a.isEmpty = false) : a.merge b = a := by
  simp [merge, h, ha]

end Span

end Recast
