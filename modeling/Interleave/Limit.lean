/-
# Limits on lists

A list takes one block of memory, and the bytes of a block are counted by a signed
64-bit word. A longer list cannot be made, whatever it would hold. All lists together
are in one memory, whose bytes are numbered by 64-bit words.
-/

namespace Interleave

/-- The bytes of the largest block. -/
def largestBlock : Nat := 1 <<< 63 - 1

/-- Whether `n` entries of `bytes` bytes each can stand in one list. -/
def holds (bytes n : Nat) : Bool := bytes * n ≤ largestBlock

/-- The bytes of all of memory. -/
def memory : Nat := UInt64.size

end Interleave
