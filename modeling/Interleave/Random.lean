/-
# Random draws

A source is an endless sequence of 32-bit words and a place in it; a draw reads
words and moves the place. Draws below a bound multiply a word by the bound and
keep the high half, and draw again when the low half falls in the short last
zone, so that every outcome is equally likely (`Source.below`). The number of attempts
is limited; past the limit the high half of one more word is taken, which is in range
too.
-/

namespace Interleave

/-- An endless sequence of words, read from place `pos` on. -/
structure Source where
  word : Nat → UInt32
  pos : Nat

namespace Source

def word32 (s : Source) : UInt32 × Source := (s.word s.pos, { s with pos := s.pos + 1 })

/-- Two words, the low half first. -/
def word64 (s : Source) : UInt64 × Source :=
  ((s.word s.pos).toUInt64 + (s.word (s.pos + 1)).toUInt64 <<< 32, { s with pos := s.pos + 2 })

/-- How often a draw is repeated; every attempt succeeds at least half of the time. -/
def attempts : Nat := 1000

/-- The largest low half, of `bits` bits, that a draw below `n` accepts: one less than the
largest multiple of `n` by a power of two that fits. -/
def zone (bits n : Nat) : Nat := n <<< (bits - 1 - n.log2) - 1

def belowLoop (bits : Nat) (draw : Source → Nat × Source) (n : Nat) : Nat → Source → Nat × Source
  | 0, s =>
    let (w, s) := draw s
    (w * n / 2 ^ bits, s)
  | fuel + 1, s =>
    let (w, s) := draw s
    if w * n % 2 ^ bits ≤ zone bits n then (w * n / 2 ^ bits, s)
    else belowLoop bits draw n fuel s

/-- An index below `n`, from 32-bit words. -/
def below (n : Nat) (s : Source) : Nat × Source :=
  belowLoop 32 (fun s => let (w, s) := word32 s; (w.toNat, s)) n attempts s

/-- A number from `lo` to `hi`, both included, from 64-bit words. -/
def between (lo hi : Nat) (s : Source) : Nat × Source :=
  let (k, s) :=
    belowLoop 64 (fun s => let (w, s) := word64 s; (w.toNat, s)) (hi - lo + 1) attempts s
  (lo + k, s)

/-- A random entry; nothing is drawn for an empty list. -/
def choose (l : List α) (s : Source) : Option α × Source :=
  if l.isEmpty then (none, s)
  else
    let (i, s) := below l.length s
    (l[i]?, s)

/-- Exchanges the entries at places `i` and `j`. -/
def swapAt (l : List α) (i j : Nat) : List α :=
  match l[i]?, l[j]? with
  | some a, some b => (l.set i b).set j a
  | _, _ => l

/-- From place `i` down to place 1, exchanges the entry with a random one not above it. -/
def shuffleFrom : Nat → List α → Source → List α × Source
  | 0, l, s => (l, s)
  | i + 1, l, s =>
    let (j, s) := below (i + 2) s
    shuffleFrom i (swapAt l (i + 1) j) s

/-- A random order of the entries. -/
def shuffle (l : List α) (s : Source) : List α × Source := shuffleFrom (l.length - 1) l s

end Source

end Interleave
