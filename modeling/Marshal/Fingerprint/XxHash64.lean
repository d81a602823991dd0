/-! # The xxHash64 digest

A 64-bit digest of a list of bytes, with a seed. The bytes are read as little-endian words of eight.
Four words at a time go through four independent lanes; the words, the half word and the single bytes
that are left over are mixed in one after the other, and a last scramble spreads every bit. All
arithmetic is modulo `2 ^ 64`. -/

namespace Marshal.XxHash64

/-! ### Words -/

def prime1 : UInt64 := 0x9E3779B185EBCA87
def prime2 : UInt64 := 0xC2B2AE3D27D4EB4F
def prime3 : UInt64 := 0x165667B19E3779F9
def prime4 : UInt64 := 0x85EBCA77C2B2AE63
def prime5 : UInt64 := 0x27D4EB2F165667C5

def rotateLeft (x k : UInt64) : UInt64 := (x <<< k) ||| (x >>> (64 - k))

def littleEndian (bytes : List UInt8) : UInt64 :=
  bytes.foldr (fun b w => (w <<< 8) ||| b.toUInt64) 0

/-- Cuts the bytes into words of eight; fewer than eight are left over. -/
def words : List UInt8 → List UInt64 × List UInt8
  | b0 :: b1 :: b2 :: b3 :: b4 :: b5 :: b6 :: b7 :: rest =>
    let (ws, left) := words rest
    (littleEndian [b0, b1, b2, b3, b4, b5, b6, b7] :: ws, left)
  | left => ([], left)

/-! ### Lanes -/

structure Lanes where
  a : UInt64
  b : UInt64
  c : UInt64
  d : UInt64

def Lanes.start (seed : UInt64) : Lanes :=
  ⟨seed + prime1 + prime2, seed + prime2, seed, seed - prime1⟩

def mix (lane word : UInt64) : UInt64 := rotateLeft (lane + word * prime2) 31 * prime1

/-- Feeds four words at a time to the lanes; fewer than four words are left over. -/
def Lanes.feed : Lanes → List UInt64 → Lanes × List UInt64
  | l, w0 :: w1 :: w2 :: w3 :: rest => feed ⟨mix l.a w0, mix l.b w1, mix l.c w2, mix l.d w3⟩ rest
  | l, left => (l, left)

def fold (h lane : UInt64) : UInt64 := (h ^^^ mix 0 lane) * prime1 + prime4

def Lanes.merge (l : Lanes) : UInt64 :=
  let h := rotateLeft l.a 1 + rotateLeft l.b 7 + rotateLeft l.c 12 + rotateLeft l.d 18
  [l.a, l.b, l.c, l.d].foldl fold h

/-! ### What is left over -/

def absorbWord (h word : UInt64) : UInt64 := rotateLeft (h ^^^ mix 0 word) 27 * prime1 + prime4

def absorbHalf (h half : UInt64) : UInt64 := rotateLeft (h ^^^ half * prime1) 23 * prime2 + prime3

def absorbByte (h : UInt64) (byte : UInt8) : UInt64 := rotateLeft (h ^^^ byte.toUInt64 * prime5) 11 * prime1

/-- Fewer than eight bytes: a half word first, if there is one. -/
def absorbTail (h : UInt64) : List UInt8 → UInt64
  | b0 :: b1 :: b2 :: b3 :: rest => rest.foldl absorbByte (absorbHalf h (littleEndian [b0, b1, b2, b3]))
  | rest => rest.foldl absorbByte h

def scramble (h : UInt64) : UInt64 :=
  let h := (h ^^^ (h >>> 33)) * prime2
  let h := (h ^^^ (h >>> 29)) * prime3
  h ^^^ (h >>> 32)

def digest (seed : UInt64) (bytes : List UInt8) : UInt64 :=
  let (ws, tail) := words bytes
  let (lanes, left) := (Lanes.start seed).feed ws
  let h := if ws.length < 4 then seed + prime5 else lanes.merge
  let h := left.foldl absorbWord (h + UInt64.ofNat bytes.length)
  scramble (absorbTail h tail)

end Marshal.XxHash64
