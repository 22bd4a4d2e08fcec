/-
# Structured data

Values of the exchange format: numbers, texts, lists and records with named
fields. Decoding reads a field by name and ignores the fields it does not ask
for; a record may also be given as the list of its fields in order
(`Data.fieldsOf`).
-/

namespace Interleave

inductive Data where
  | null
  | bool (b : Bool)
  | int (n : Int)
  /-- A number written with a fraction or an exponent. -/
  | fraction
  | text (s : String)
  | list (l : List Data)
  | record (fields : List (String × Data))
  deriving Inhabited

namespace Data

def nat (n : Nat) : Data := int n

/-- The first field of that name. -/
def field (fields : List (String × Data)) (name : String) : Option Data :=
  (fields.find? (·.1 == name)).map (·.2)

/-- A whole number below `bound`. -/
def natural (bound : Nat) : Data → Option Nat
  | int n => if 0 ≤ n ∧ n < bound then some n.toNat else none
  | _ => none

def word64 (d : Data) : Option UInt64 := (d.natural UInt64.size).map Nat.toUInt64

def word32 (d : Data) : Option UInt32 := (d.natural UInt32.size).map Nat.toUInt32

def string : Data → Option String
  | text s => some s
  | _ => none

/-- A list whose entries all decode. -/
def listOf (decode : Data → Option α) : Data → Option (List α)
  | list l => l.mapM decode
  | _ => none

/-- The contents of the named fields: of a record, or of a list with exactly as many entries. -/
def fieldsOf (names : List String) : Data → Option (List Data)
  | record fields => names.mapM (field fields)
  | list l => if l.length = names.length then some l else none
  | _ => none

/-- One of several variants: its name, and what it carries if it carries anything. -/
def variantOf : Data → Option (String × Option Data)
  | text name => some (name, none)
  | record [(name, content)] => some (name, some content)
  | _ => none

/-- The contents of the named fields of a variant, which must be a record. -/
def variantFields (names : List String) : Option Data → Option (List Data)
  | some (record fields) => names.mapM (field fields)
  | _ => none

/-- Whether a variant that carries nothing was given nothing. -/
def carriesNothing : Option Data → Bool
  | none | some null => true
  | _ => false

end Data

end Interleave
