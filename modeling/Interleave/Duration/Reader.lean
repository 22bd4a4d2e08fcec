/-
# Reading spans of time

A span is written as numbers with units, such as `1h 30m` or `2.5s`. Blanks may
stand between numbers and units and inside a number. Whole parts are counted in
seconds or in nanoseconds according to the unit, and neither count may reach
two to the 64th. A fraction must come out even: in whole nanoseconds for units up
to a minute, in whole seconds for longer ones.
-/
import Interleave.Duration

namespace Interleave

/-- Blanks between the parts of a span. -/
def isBlank (c : Char) : Bool :=
  let n := c.toNat
  (9 ≤ n && n ≤ 13) || n = 32 || n = 0x85 || n = 0xa0 || n = 0x1680 || (0x2000 ≤ n && n ≤ 0x200a)
    || n = 0x2028 || n = 0x2029 || n = 0x202f || n = 0x205f || n = 0x3000

/-- A unit: so many nanoseconds, or so many seconds. -/
inductive TimeUnit where
  | nanos (n : Nat)
  | seconds (n : Nat)

namespace TimeUnit

def ofName? : String → Option TimeUnit
  | "nanos" | "nsec" | "ns" => some (nanos 1)
  | "usec" | "us" | "µs" => some (nanos 1000)
  | "millis" | "msec" | "ms" => some (nanos 1000000)
  | "seconds" | "second" | "secs" | "sec" | "s" => some (seconds 1)
  | "minutes" | "minute" | "min" | "mins" | "m" => some (seconds 60)
  | "hours" | "hour" | "hr" | "hrs" | "h" => some (seconds 3600)
  | "days" | "day" | "d" => some (seconds 86400)
  | "weeks" | "week" | "wk" | "wks" | "w" => some (seconds 604800)
  | "months" | "month" | "M" => some (seconds 2630016)
  | "years" | "year" | "yr" | "yrs" | "y" => some (seconds 31557600)
  | _ => none

end TimeUnit

namespace Duration

def wordLimit : Nat := UInt64.size

/-- The number itself if it is below two to the 64th. -/
def fitting (n : Nat) : Option Nat := if n < wordLimit then some n else none

/-- Adds seconds and nanoseconds to a span of both. -/
def addTo (total : Nat × Nat) (seconds nanos : Nat) : Option (Nat × Nat) := do
  let nanos ← fitting (total.2 + nanos)
  let seconds ← fitting (total.1 + seconds + nanos / second)
  return (seconds, nanos % second)

/-- Adds `n` units. -/
def addWhole (total : Nat × Nat) (n : Nat) : TimeUnit → Option (Nat × Nat)
  | .nanos k => do addTo total 0 (← fitting (n * k))
  | .seconds k => do addTo total (← fitting (n * k)) 0

/-- The part `num / den` of `k`, if it is a whole number. -/
def evenPart (num den k : Nat) : Option Nat := do
  let n ← fitting (num * k)
  if n % den = 0 then some (n / den) else none

/-- Adds `num / den` of a unit. A nanosecond has no parts. -/
def addFraction (total : Nat × Nat) (num den : Nat) : TimeUnit → Option (Nat × Nat)
  | .nanos 1 => none
  | .nanos k => do addTo total 0 (← evenPart num den k)
  | .seconds k =>
    if k ≤ 60 then do addTo total 0 (← evenPart num den (k * second))
    else do addTo total (← evenPart num den k) 0

def isUnitLetter (c : Char) : Bool := c.isAlpha || c = 'µ'

/-- The rest of a number whose digits so far are `n`, up to its unit or its point. -/
def readWhole? (n : Nat) : List Char → Option (Nat × List Char)
  | [] => some (n, [])
  | c :: rest =>
    if c.isDigit then do readWhole? (← fitting (n * 10 + (c.toNat - '0'.toNat))) rest
    else if isBlank c then readWhole? n rest
    else if isUnitLetter c || c = '.' then some (n, c :: rest)
    else none

/-- The digits after a point, as a fraction, up to the unit. -/
def readFraction? (num den : Nat) : List Char → Option (Nat × Nat × List Char)
  | [] => some (num, den, [])
  | c :: rest =>
    if c.isDigit then do
      readFraction? (← fitting (num * 10 + (c.toNat - '0'.toNat))) (← fitting (den * 10)) rest
    else if isBlank c then readFraction? num den rest
    else if isUnitLetter c then some (num, den, c :: rest)
    else none

/-- A number with a unit, from its first digit on, added to the span so far. -/
def readPart? (total : Nat × Nat) (text : List Char) : Option ((Nat × Nat) × List Char) := do
  let (n, rest) ← readWhole? 0 text
  let (fraction, rest) ← match rest with
    | '.' :: rest => do
      let (num, den, rest) ← readFraction? 0 1 rest
      if den = 1 then none else some (some (num, den), rest)
    | rest => some (none, rest)
  let unit ← TimeUnit.ofName? (String.ofList (rest.takeWhile isUnitLetter))
  let total ← addWhole total n unit
  let total ← match fraction with
    | none => some total
    | some (num, den) => addFraction total num den unit
  match rest.dropWhile isUnitLetter with
  | [] => some (total, [])
  | c :: after => if c.isDigit || isBlank c then some (total, c :: after) else none

/-- Parts with units up to the end; every part takes a character at least. -/
def readParts? : Nat → Nat × Nat → List Char → Option (Nat × Nat)
  | 0, _, _ => none
  | fuel + 1, total, text =>
    match text.dropWhile isBlank with
    | [] => some total
    | c :: rest =>
      if c.isDigit then
        match readPart? total (c :: rest) with
        | none => none
        | some (total, rest) => readParts? fuel total rest
      else none

/-- Reads a span; a zero needs no unit. -/
def read? (s : String) : Option Duration :=
  if s = "0" then some ⟨0⟩
  else if s.toList.all isBlank then none
  else (readParts? (s.length + 1) (0, 0) s.toList).map fun t => ⟨t.1 * second + t.2⟩

end Duration

end Interleave
