/-
# The keystream of a seed

Random words come from a stream cipher: a 64-bit seed is stretched to eight key
words, and block `i` of the stream mixes key and block number in eight rounds
and adds the unmixed block again. Every word of the stream is a function of seed
and place alone.
-/
import Interleave.Random

namespace Interleave

namespace Keystream

/-- Sixteen words, as four rows of four. -/
structure Block where
  (a0 a1 a2 a3 b0 b1 b2 b3 c0 c1 c2 c3 d0 d1 d2 d3 : UInt32)

namespace Block

def toList (x : Block) : List UInt32 :=
  [x.a0, x.a1, x.a2, x.a3, x.b0, x.b1, x.b2, x.b3, x.c0, x.c1, x.c2, x.c3, x.d0, x.d1, x.d2, x.d3]

def add (x y : Block) : Block :=
  ⟨x.a0 + y.a0, x.a1 + y.a1, x.a2 + y.a2, x.a3 + y.a3,
    x.b0 + y.b0, x.b1 + y.b1, x.b2 + y.b2, x.b3 + y.b3,
    x.c0 + y.c0, x.c1 + y.c1, x.c2 + y.c2, x.c3 + y.c3,
    x.d0 + y.d0, x.d1 + y.d1, x.d2 + y.d2, x.d3 + y.d3⟩

end Block

def rotateLeft (x k : UInt32) : UInt32 := (x <<< k) ||| (x >>> (32 - k))

/-- Mixes four words. -/
@[inline] def quarter (a b c d : UInt32) : UInt32 × UInt32 × UInt32 × UInt32 :=
  let a := a + b
  let d := rotateLeft (d ^^^ a) 16
  let c := c + d
  let b := rotateLeft (b ^^^ c) 12
  let a := a + b
  let d := rotateLeft (d ^^^ a) 8
  let c := c + d
  let b := rotateLeft (b ^^^ c) 7
  (a, b, c, d)

/-- Mixes the columns, then the diagonals. -/
def doubleRound (x : Block) : Block :=
  let (a0, b0, c0, d0) := quarter x.a0 x.b0 x.c0 x.d0
  let (a1, b1, c1, d1) := quarter x.a1 x.b1 x.c1 x.d1
  let (a2, b2, c2, d2) := quarter x.a2 x.b2 x.c2 x.d2
  let (a3, b3, c3, d3) := quarter x.a3 x.b3 x.c3 x.d3
  let (a0, b1, c2, d3) := quarter a0 b1 c2 d3
  let (a1, b2, c3, d0) := quarter a1 b2 c3 d0
  let (a2, b3, c0, d1) := quarter a2 b3 c0 d1
  let (a3, b0, c1, d2) := quarter a3 b0 c1 d2
  ⟨a0, a1, a2, a3, b0, b1, b2, b3, c0, c1, c2, c3, d0, d1, d2, d3⟩

/-- Eight key words. -/
structure Key where
  (k0 k1 k2 k3 k4 k5 k6 k7 : UInt32)

/-- The unmixed block `i`: four fixed words, the key, the block number, two zeros. -/
def start (k : Key) (i : Nat) : Block :=
  ⟨0x61707865, 0x3320646e, 0x79622d32, 0x6b206574,
    k.k0, k.k1, k.k2, k.k3, k.k4, k.k5, k.k6, k.k7,
    i.toUInt32, (i >>> 32).toUInt32, 0, 0⟩

/-- Block `i` of the stream of `k`. -/
def block (k : Key) (i : Nat) : Block :=
  let x := start k i
  (doubleRound (doubleRound (doubleRound (doubleRound x)))).add x

def seedStep (s : UInt64) : UInt64 := s * 6364136223846793005 + 11634580027462260723

/-- The key word of a seed state: its high bits folded and rotated. -/
def seedWord (s : UInt64) : UInt32 :=
  let x := (((s >>> 18) ^^^ s) >>> 27).toUInt32
  let r := (s >>> 59).toUInt32
  (x >>> r) ||| (x <<< (32 - r))

/-- Stretches a seed to eight key words. -/
def keyOf (seed : UInt64) : Key :=
  let s0 := seedStep seed
  let s1 := seedStep s0
  let s2 := seedStep s1
  let s3 := seedStep s2
  let s4 := seedStep s3
  let s5 := seedStep s4
  let s6 := seedStep s5
  let s7 := seedStep s6
  ⟨seedWord s0, seedWord s1, seedWord s2, seedWord s3,
    seedWord s4, seedWord s5, seedWord s6, seedWord s7⟩

/-- Word `i` of the stream of `k`: sixteen words a block. -/
def word (k : Key) (i : Nat) : UInt32 := (block k (i / 16)).toList.getD (i % 16) 0

end Keystream

/-- The stream of a seed, from its start. -/
def Source.ofSeed (seed : UInt64) : Source :=
  let key := Keystream.keyOf seed
  ⟨Keystream.word key, 0⟩

end Interleave
