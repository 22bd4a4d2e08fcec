/-
# The order of vector clocks

Clocks are compared slot by slot, and a slot past the end reads as zero
(`Clock.le_iff`). The comparison is a preorder, joining gives an upper bound that knows
no more than the two clocks knew (`Clock.get_join`), and an event on a clock leads
strictly above it: the clock before the event happens before the one after
(`Clock.happensBefore_tick`).
-/
import Interleave.Clock

namespace Interleave

/-- The word after `w` counts one more. -/
theorem toNat_of_wordSucc? {w w' : UInt64} (h : wordSucc? w = some w') : w'.toNat = w.toNat + 1 := by
  unfold wordSucc? at h
  split at h
  · rename_i hw
    cases h
    rw [UInt64.toNat_add]
    exact Nat.mod_eq_of_lt hw
  · cases h

/-- There is a word after `w` as long as one more can be counted. -/
theorem wordSucc?_of_lt {w : UInt64} (h : w.toNat + 1 < UInt64.size) : ∃ w', wordSucc? w = some w' :=
  ⟨w + 1, if_pos h⟩

namespace NodeId

theorem index_lt (v : NodeId) : v.index < UInt32.size := v.val.toNat_lt

theorem index_ofIndex {i : Nat} (h : i < UInt32.size) : (ofIndex i).index = i :=
  UInt32.toNat_ofNat_of_lt' h

theorem ofIndex_index (v : NodeId) : ofIndex v.index = v := by
  cases v
  simp [ofIndex, index]

theorem index_inj {p v : NodeId} : p.index = v.index ↔ p = v := by
  cases p
  cases v
  simp [index, UInt32.toNat_inj]

end NodeId

namespace Clock

/-! ### Comparing -/

theorem leSlots_iff : ∀ a b : List UInt64, leSlots a b = true ↔ ∀ i, a.getD i 0 ≤ b.getD i 0
  | [], b => by simp [leSlots]
  | x :: a, [] => by
    simp only [leSlots, Bool.and_eq_true, beq_iff_eq, leSlots_iff a []]
    constructor
    · rintro ⟨rfl, h⟩ i
      cases i with
      | zero => simp
      | succ i => simpa using h i
    · intro h
      refine ⟨?_, fun i => by simpa using h (i + 1)⟩
      have h0 : x ≤ 0 := by simpa using h 0
      simpa [UInt64.le_iff_toNat_le, ← UInt64.toNat_inj] using h0
  | x :: a, y :: b => by
    simp only [leSlots, Bool.and_eq_true, decide_eq_true_eq, leSlots_iff a b]
    constructor
    · rintro ⟨h0, h⟩ i
      cases i with
      | zero => simpa using h0
      | succ i => simpa using h i
    · intro h
      exact ⟨by simpa using h 0, fun i => by simpa using h (i + 1)⟩

theorem getD_take {n i : Nat} (l : List UInt64) (hi : i < n) : (l.take n).getD i 0 = l.getD i 0 := by
  simp [List.getD_eq_getElem?_getD, hi]

/-- A clock is at most another when it counts no more of any node. -/
theorem le_iff (a b : Clock) : a.le b = true ↔ ∀ v, a.get v ≤ b.get v := by
  refine (leSlots_iff _ _).trans ⟨fun h v => ?_, fun h i => ?_⟩
  · have hle := h v.index
    rwa [getD_take _ v.index_lt, getD_take _ v.index_lt] at hle
  · by_cases hi : i < UInt32.size
    · have hle := h (.ofIndex i)
      rw [get, get, NodeId.index_ofIndex hi] at hle
      rwa [getD_take _ hi, getD_take _ hi]
    · have hend : (a.slots.take UInt32.size)[i]? = none :=
        List.getElem?_eq_none (by rw [List.length_take]; omega)
      simp [List.getD_eq_getElem?_getD, hend]

theorem le_refl (a : Clock) : a.le a = true := (le_iff a a).mpr fun _ => UInt64.le_refl _

theorem le_trans {a b c : Clock} (h : a.le b = true) (k : b.le c = true) : a.le c = true :=
  (le_iff a c).mpr fun v => UInt64.le_trans ((le_iff a b).mp h v) ((le_iff b c).mp k v)

theorem get_le_get {a b : Clock} (h : a.le b = true) (v : NodeId) : a.get v ≤ b.get v :=
  (le_iff a b).mp h v

theorem happensBefore_iff (a b : Clock) : a.happensBefore b = true ↔ a.le b = true ∧ b.le a = false := by
  simp [happensBefore]

theorem happensBefore_of_le_of_happensBefore {a b c : Clock} (h : a.le b = true)
    (k : b.happensBefore c = true) : a.happensBefore c = true := by
  obtain ⟨k1, k2⟩ := (happensBefore_iff b c).mp k
  refine (happensBefore_iff a c).mpr ⟨le_trans h k1, Bool.eq_false_iff.mpr fun hc => ?_⟩
  exact Bool.eq_false_iff.mp k2 (le_trans hc h)

/-! ### Joining -/

/-- A join counts what the one counts that knows more. -/
theorem toNat_getD_joinSlots : ∀ (a b : List UInt64) (i : Nat),
    ((joinSlots a b).getD i 0).toNat = max (a.getD i 0).toNat (b.getD i 0).toNat
  | [], b, i => by simp [joinSlots]
  | x :: a, [], i => by simp [joinSlots]
  | x :: a, y :: b, 0 => by
    show (if x ≤ y then y else x).toNat = max x.toNat y.toNat
    split
    · rename_i h
      exact (Nat.max_eq_right h).symm
    · rename_i h
      exact (Nat.max_eq_left (UInt64.le_of_lt (UInt64.not_le.mp h))).symm
  | x :: a, y :: b, i + 1 => by simpa [joinSlots] using toNat_getD_joinSlots a b i

theorem toNat_get_join (a b : Clock) (v : NodeId) :
    ((a.join b).get v).toNat = max (a.get v).toNat (b.get v).toNat :=
  toNat_getD_joinSlots a.slots b.slots v.index

theorem le_join_left (a b : Clock) : a.le (a.join b) = true := by
  refine (le_iff _ _).mpr fun v => UInt64.le_iff_toNat_le.mpr ?_
  rw [toNat_get_join]
  exact Nat.le_max_left _ _

theorem le_join_right (a b : Clock) : b.le (a.join b) = true := by
  refine (le_iff _ _).mpr fun v => UInt64.le_iff_toNat_le.mpr ?_
  rw [toNat_get_join]
  exact Nat.le_max_right _ _

/-- What the join knows of an event, one of the two knew. -/
theorem get_join (a b : Clock) (v : NodeId) : (a.join b).get v = a.get v ∨ (a.join b).get v = b.get v := by
  rw [← UInt64.toNat_inj, ← UInt64.toNat_inj, toNat_get_join]
  omega

/-! ### Events -/

/-- One more event at place `i` counts one more there and leaves the other slots. -/
theorem tickSlots?_getD : ∀ {s s' : List UInt64} {i : Nat}, tickSlots? s i = some s' →
    wordSucc? (s.getD i 0) = some (s'.getD i 0) ∧ ∀ j, j ≠ i → s'.getD j 0 = s.getD j 0
  | [], _, 0, h => by
    cases h
    refine ⟨by decide, fun j hj => ?_⟩
    cases j with
    | zero => exact absurd rfl hj
    | succ j => simp
  | [], _, i + 1, h => by
    obtain ⟨s, hs, rfl⟩ := Option.map_eq_some_iff.mp h
    obtain ⟨h1, h2⟩ := tickSlots?_getD hs
    refine ⟨by simpa using h1, fun j hj => ?_⟩
    cases j with
    | zero => simp
    | succ j => simpa using h2 j (by omega)
  | x :: s, _, 0, h => by
    obtain ⟨y, hy, rfl⟩ := Option.map_eq_some_iff.mp h
    refine ⟨by simpa using hy, fun j hj => ?_⟩
    cases j with
    | zero => exact absurd rfl hj
    | succ j => simp
  | x :: s, _, i + 1, h => by
    obtain ⟨t, ht, rfl⟩ := Option.map_eq_some_iff.mp h
    obtain ⟨h1, h2⟩ := tickSlots?_getD ht
    refine ⟨by simpa using h1, fun j hj => ?_⟩
    cases j with
    | zero => simp
    | succ j => simpa using h2 j (by omega)

/-- An event of node `v` counts one more for `v`. -/
theorem toNat_get_tick {a b : Clock} {v : NodeId} (h : a.tick? v = some b) :
    (b.get v).toNat = (a.get v).toNat + 1 := by
  obtain ⟨s, hs, rfl⟩ := Option.map_eq_some_iff.mp h
  exact toNat_of_wordSucc? (tickSlots?_getD hs).1

theorem get_tick {a b : Clock} {v : NodeId} (h : a.tick? v = some b) : a.get v < b.get v := by
  have hcount := toNat_get_tick h
  rw [UInt64.lt_iff_toNat_lt]
  omega

/-- An event of node `v` tells nothing about the other nodes. -/
theorem get_tick_of_ne {a b : Clock} {u v : NodeId} (h : a.tick? v = some b)
    (huv : u.index ≠ v.index) : b.get u = a.get u := by
  obtain ⟨s, hs, rfl⟩ := Option.map_eq_some_iff.mp h
  exact (tickSlots?_getD hs).2 u.index huv

/-- **An event leads strictly up.** -/
theorem happensBefore_tick {a b : Clock} {v : NodeId} (h : a.tick? v = some b) :
    a.happensBefore b = true := by
  have hlt := get_tick h
  refine (happensBefore_iff a b).mpr ⟨(le_iff a b).mpr fun u => ?_, Bool.eq_false_iff.mpr fun hc => ?_⟩
  · by_cases huv : u.index = v.index
    · obtain rfl := NodeId.index_inj.mp huv
      exact UInt64.le_of_lt hlt
    · rw [get_tick_of_ne h huv]
      exact UInt64.le_refl _
  · exact absurd hlt (UInt64.not_lt.mpr (get_le_get hc v))

theorem le_tick {a b : Clock} {v : NodeId} (h : a.tick? v = some b) : a.le b = true :=
  ((happensBefore_iff a b).mp (happensBefore_tick h)).1

end Clock

end Interleave
