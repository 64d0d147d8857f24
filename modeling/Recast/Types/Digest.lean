/-
# The XXH64 digest

`Digest.xxh64 seed bytes` is the 64-bit XXH64 digest of a list of bytes.  The bytes are taken as
little-endian words of eight bytes; four words at a time drive four accumulators, the words and
bytes that are left over are mixed in one by one, and a last round spreads every bit.
-/
namespace Recast.Digest

/-- The five multipliers of the digest. -/
def prime1 : UInt64 := 0x9E3779B185EBCA87

@[inherit_doc prime1] def prime2 : UInt64 := 0xC2B2AE3D27D4EB4F

@[inherit_doc prime1] def prime3 : UInt64 := 0x165667B19E3779F9

@[inherit_doc prime1] def prime4 : UInt64 := 0x85EBCA77C2B2AE63

@[inherit_doc prime1] def prime5 : UInt64 := 0x27D4EB2F165667C5

/-- Rotate a word to the left by `n` of its 64 bits, for `0 < n < 64`. -/
def rotate (w n : UInt64) : UInt64 := (w <<< n) ||| (w >>> (64 - n))

/-- The number that bytes spell, the first byte being the lowest. -/
def littleEndian : List UInt8 → UInt64
  | [] => 0
  | b :: bs => b.toUInt64 ||| (littleEndian bs <<< 8)

/-- The words of eight bytes at the front of a list, and the bytes after the last whole word. -/
def words : List UInt8 → List UInt64 × List UInt8
  | a :: b :: c :: d :: e :: f :: g :: h :: rest =>
    let (ws, tail) := words rest
    (littleEndian [a, b, c, d, e, f, g, h] :: ws, tail)
  | tail => ([], tail)

/-- One step of an accumulator. -/
def round (acc word : UInt64) : UInt64 := rotate (acc + word * prime2) 31 * prime1

/-- The four accumulators. -/
structure Lanes where
  a : UInt64
  b : UInt64
  c : UInt64
  d : UInt64

/-- The accumulators before the first word. -/
def Lanes.init (seed : UInt64) : Lanes :=
  ⟨seed + prime1 + prime2, seed + prime2, seed, seed - prime1⟩

/-- Feed words to the accumulators, four at a time; fewer than four words are left over. -/
def Lanes.feed : Lanes → List UInt64 → Lanes × List UInt64
  | l, w :: x :: y :: z :: ws =>
    Lanes.feed ⟨round l.a w, round l.b x, round l.c y, round l.d z⟩ ws
  | l, ws => (l, ws)

/-- Join an accumulator to the digest. -/
def join (h lane : UInt64) : UInt64 := (h ^^^ round 0 lane) * prime1 + prime4

/-- The digest of the four accumulators. -/
def Lanes.converge (l : Lanes) : UInt64 :=
  join (join (join (join
    (rotate l.a 1 + rotate l.b 7 + rotate l.c 12 + rotate l.d 18) l.a) l.b) l.c) l.d

/-- Mix a left-over word into the digest. -/
def mixWord (h w : UInt64) : UInt64 := rotate (h ^^^ round 0 w) 27 * prime1 + prime4

/-- Mix a left-over byte into the digest. -/
def mixByte (h : UInt64) (b : UInt8) : UInt64 := rotate (h ^^^ (b.toUInt64 * prime5)) 11 * prime1

/-- Mix the last, fewer than eight, bytes into the digest: four of them at once if there are so
many, then one by one. -/
def mixTail (h : UInt64) : List UInt8 → UInt64
  | a :: b :: c :: d :: rest =>
    rest.foldl mixByte
      (rotate (h ^^^ (littleEndian [a, b, c, d] * prime1)) 23 * prime2 + prime3)
  | rest => rest.foldl mixByte h

/-- Spread every bit over the whole word. -/
def avalanche (h : UInt64) : UInt64 :=
  let h := (h ^^^ (h >>> 33)) * prime2
  let h := (h ^^^ (h >>> 29)) * prime3
  h ^^^ (h >>> 32)

/-- The XXH64 digest of bytes. -/
def xxh64 (seed : UInt64) (bytes : List UInt8) : UInt64 :=
  let (ws, tail) := words bytes
  let (lanes, rest) := (Lanes.init seed).feed ws
  let h := if bytes.length < 32 then seed + prime5 else lanes.converge
  avalanche (mixTail (rest.foldl mixWord (h + bytes.length.toUInt64)) tail)

/-- The digest of the UTF-8 form of a text, with seed zero. -/
def ofText (s : String) : UInt64 := xxh64 0 s.toUTF8.data.toList

end Recast.Digest
