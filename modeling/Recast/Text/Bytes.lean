/-
# Texts measured in bytes

A text is a list of characters; places in it are counted in the bytes of its UTF-8 form.

* `Text.byteSize` is the number of bytes of a text, and `Text.splitAtByte?` cuts a text at a
  byte offset, which succeeds exactly where the offset falls between two characters;
* a `Position` is the offset, line and column of the next character.  Reading a character moves
  it (`Position.step`), reading a text moves it by each character in turn (`Position.after`).

A position counts without a bound, as the cursor counts its bytes; what is handed out of it has 32
bits (`Recast.Narrow`).
-/
namespace Recast

namespace Text

/-! ## 1. Sizes and cuts -/

/-- The number of bytes of a text in UTF-8. -/
def byteSize : List Char → Nat
  | [] => 0
  | c :: cs => c.utf8Size + byteSize cs

@[simp] theorem byteSize_nil : byteSize [] = 0 := rfl

@[simp] theorem byteSize_cons (c : Char) (cs : List Char) :
    byteSize (c :: cs) = c.utf8Size + byteSize cs := rfl

@[simp] theorem byteSize_append (xs ys : List Char) :
    byteSize (xs ++ ys) = byteSize xs + byteSize ys := by
  induction xs with
  | nil => simp
  | cons c cs ih => simp [ih, Nat.add_assoc]

/-- Cut a text after its first `n` bytes.  There is no such cut when `n` exceeds the size of the
text or falls inside a character. -/
def splitAtByte? : List Char → Nat → Option (List Char × List Char)
  | [], n => if n = 0 then some ([], []) else none
  | c :: cs, n =>
    if n = 0 then some ([], c :: cs)
    else if c.utf8Size ≤ n then
      (splitAtByte? cs (n - c.utf8Size)).map fun (before, after) => (c :: before, after)
    else none

theorem splitAtByte?_byteSize (before after : List Char) :
    splitAtByte? (before ++ after) (byteSize before) = some (before, after) := by
  induction before with
  | nil => cases after <;> simp [splitAtByte?]
  | cons c before ih =>
    have hpos := c.utf8Size_pos
    rw [List.cons_append, byteSize_cons, splitAtByte?, if_neg (by omega), if_pos (by omega),
      Nat.add_sub_cancel_left, ih]
    rfl

theorem of_splitAtByte?_eq_some : ∀ {cs before after : List Char} {n : Nat},
    splitAtByte? cs n = some (before, after) → before ++ after = cs ∧ byteSize before = n
  | [], before, after, n, h => by
    unfold splitAtByte? at h
    split at h
    · rename_i hn
      cases h
      exact ⟨rfl, hn.symm⟩
    · cases h
  | c :: cs, before, after, n, h => by
    unfold splitAtByte? at h
    split at h
    · rename_i hn
      cases h
      exact ⟨rfl, hn.symm⟩
    · split at h
      · rename_i hle
        obtain ⟨⟨front, back⟩, hcut, he⟩ := Option.map_eq_some_iff.mp h
        cases he
        obtain ⟨happ, hsize⟩ := of_splitAtByte?_eq_some hcut
        refine ⟨congrArg (c :: ·) happ, ?_⟩
        rw [byteSize_cons, hsize]
        omega
      · cases h

/-- Cutting a text succeeds exactly where so many bytes are the size of a whole number of
characters, and then gives the two parts. -/
theorem splitAtByte?_eq_some_iff {cs before after : List Char} {n : Nat} :
    splitAtByte? cs n = some (before, after) ↔ before ++ after = cs ∧ byteSize before = n := by
  constructor
  · exact of_splitAtByte?_eq_some
  · rintro ⟨rfl, rfl⟩
    exact splitAtByte?_byteSize before after

end Text

/-! ## 2. Positions -/

/-- A place between two characters: the number of bytes before it, its line and its column.
Lines and columns count from one, and a column is counted in bytes. -/
structure Position where
  offset : Nat
  line : Nat
  col : Nat
  deriving DecidableEq

namespace Position

/-- The place before the first character. -/
def start : Position := ⟨0, 1, 1⟩

/-- The place after one more character: a newline opens the next line. -/
def step (p : Position) (c : Char) : Position :=
  if c = '\n' then ⟨p.offset + c.utf8Size, p.line + 1, 1⟩
  else ⟨p.offset + c.utf8Size, p.line, p.col + c.utf8Size⟩

/-- The place after the characters of a text. -/
def after (p : Position) (cs : List Char) : Position := cs.foldl step p

@[simp] theorem after_nil (p : Position) : p.after [] = p := rfl

@[simp] theorem after_cons (p : Position) (c : Char) (cs : List Char) :
    p.after (c :: cs) = (p.step c).after cs := rfl

@[simp] theorem after_append (p : Position) (xs ys : List Char) :
    p.after (xs ++ ys) = (p.after xs).after ys := by
  simp [after]

end Position

end Recast
