/-
# Sets and maps as ascending lists

A finite set is the ascending list of its members and a finite map the list of
its entries by ascending key, so equal sets and maps are equal lists.
-/

namespace Interleave

namespace Ascending

variable {α κ ν : Type}

section
variable [DecidableEq α] [LT α] [DecidableLT α]

/-- Adds a member. -/
def insert (a : α) : List α → List α
  | [] => [a]
  | b :: s => if a < b then a :: b :: s else if a = b then b :: s else b :: insert a s

def union (s t : List α) : List α := t.foldl (fun s a => insert a s) s

def ofList (l : List α) : List α := union [] l

end

section
variable [DecidableEq κ] [LT κ] [DecidableLT κ]

/-- Adds an entry, in place of an earlier one with the same key. -/
def put (k : κ) (v : ν) : List (κ × ν) → List (κ × ν)
  | [] => [(k, v)]
  | e :: m => if k < e.1 then (k, v) :: e :: m else if k = e.1 then (k, v) :: m else e :: put k v m

/-- The map with these entries; of several with one key the last counts. -/
def ofEntries (l : List (κ × ν)) : List (κ × ν) := l.foldl (fun m e => put e.1 e.2 m) []

end

def lookup [DecidableEq κ] (k : κ) (m : List (κ × ν)) : Option ν :=
  (m.find? (·.1 = k)).map (·.2)

def drop [DecidableEq κ] (k : κ) (m : List (κ × ν)) : List (κ × ν) := m.filter (·.1 ≠ k)

end Ascending

end Interleave
