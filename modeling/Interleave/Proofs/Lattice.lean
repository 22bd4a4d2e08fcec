/-
# The lattice of vector clocks

To a comparison a clock is its counts, one an address, with zeros past its end.
So clocks of different lengths can agree without being the same list. Up to this
agreement the comparison is a partial order, the strict order of `happensBefore`
is the one that belongs to it, and two clocks stand to each other in exactly one
of four ways (`Clock.existsUnique_stands`). A join has the larger count everywhere and
the larger length: it is the least upper bound (`Clock.isLUB_join`), and as the two
determine the list (`Clock.ext_slots`), the laws of a semilattice hold for joins as
lists (`Clock.lattice_laws`).
-/
import Interleave.Proofs.Clock
import Mathlib.Data.List.GetD
import Mathlib.Order.Bounds.Basic

namespace Interleave

namespace Clock

variable {a b c : Clock}

instance : Preorder Clock where
  le a b := a.le b = true
  lt a b := a.happensBefore b = true
  le_refl := le_refl
  le_trans _ _ _ := le_trans
  lt_iff_le_not_ge a b := by rw [happensBefore_iff, Bool.not_eq_true]

/-- Both clocks read the same at every address. -/
def Agrees (a b : Clock) : Prop := ∀ v, a.get v = b.get v

theorem agrees_iff : a.Agrees b ↔ a.le b = true ∧ b.le a = true := by
  constructor
  · intro h
    refine ⟨(le_iff a b).mpr fun v => ?_, (le_iff b a).mpr fun v => ?_⟩
    · rw [h v]
      exact UInt64.le_refl _
    · rw [h v]
      exact UInt64.le_refl _
  · rintro ⟨hab, hba⟩ v
    exact UInt64.le_antisymm (get_le_get hab v) (get_le_get hba v)

/-- As long as every slot has an address, clocks agree when their slots do. -/
theorem agrees_iff_getD (ha : a.slots.length ≤ UInt32.size) (hb : b.slots.length ≤ UInt32.size) :
    a.Agrees b ↔ ∀ i, a.slots.getD i 0 = b.slots.getD i 0 := by
  refine ⟨fun h i => ?_, fun h v => h v.index⟩
  by_cases hi : i < UInt32.size
  · have hv := h (.ofIndex i)
    rwa [get, get, NodeId.index_ofIndex hi] at hv
  · rw [List.getD_eq_default _ _ (by omega), List.getD_eq_default _ _ (by omega)]

/-! ### Where two clocks stand -/

/-- How a clock can stand to another one. -/
inductive Standing where
  | before
  | after
  | concurrent
  | same

def Stands (a b : Clock) : Standing → Prop
  | .before => a.happensBefore b = true
  | .after => b.happensBefore a = true
  | .concurrent => a.concurrent b = true
  | .same => a.Agrees b

/-- The standing that the two comparisons tell. -/
def standing (a b : Clock) : Standing :=
  match a.le b, b.le a with
  | true, true => .same
  | true, false => .before
  | false, true => .after
  | false, false => .concurrent

theorem stands_iff (a b : Clock) (s : Standing) : a.Stands b s ↔ a.standing b = s := by
  cases hab : a.le b <;> cases hba : b.le a <;> cases s <;>
    simp [Stands, standing, happensBefore, concurrent, agrees_iff, hab, hba]

theorem existsUnique_stands (a b : Clock) : ∃! s, a.Stands b s := by
  simp only [stands_iff]
  exact existsUnique_eq'

/-! ### Joins -/

theorem isLUB_join (a b : Clock) : IsLUB {a, b} (a.join b) := by
  refine ⟨?_, fun c hc => (le_iff _ _).mpr fun v => UInt64.le_iff_toNat_le.mpr ?_⟩
  · rintro x (rfl | rfl)
    · exact le_join_left x b
    · exact le_join_right a x
  · have ha := UInt64.le_iff_toNat_le.mp (get_le_get (hc (.inl rfl)) v)
    have hb := UInt64.le_iff_toNat_le.mp (get_le_get (hc (.inr rfl)) v)
    rw [toNat_get_join]
    exact Nat.max_le.mpr ⟨ha, hb⟩

theorem length_joinSlots : ∀ a b : List UInt64, (joinSlots a b).length = max a.length b.length
  | [], b => by simp [joinSlots]
  | x :: a, [] => by simp [joinSlots]
  | x :: a, y :: b => by simp [joinSlots, length_joinSlots a b]

/-- The length and the counts determine a clock. -/
theorem ext_slots (hlength : a.slots.length = b.slots.length)
    (hcounts : ∀ i, (a.slots.getD i 0).toNat = (b.slots.getD i 0).toNat) : a = b := by
  have hslots : a.slots = b.slots := by
    refine List.ext_getElem hlength fun i hi hi' => UInt64.toNat_inj.mp ?_
    have hcount := hcounts i
    rwa [List.getD_eq_getElem _ _ hi, List.getD_eq_getElem _ _ hi'] at hcount
  exact congrArg Clock.mk hslots

theorem join_comm (a b : Clock) : a.join b = b.join a := by
  refine ext_slots ?_ fun i => ?_
  · simp only [join, length_joinSlots, Nat.max_comm]
  · simp only [join, toNat_getD_joinSlots, Nat.max_comm]

theorem join_assoc (a b c : Clock) : (a.join b).join c = a.join (b.join c) := by
  refine ext_slots ?_ fun i => ?_
  · simp only [join, length_joinSlots, Nat.max_assoc]
  · simp only [join, toNat_getD_joinSlots, Nat.max_assoc]

theorem join_self (a : Clock) : a.join a = a := by
  refine ext_slots ?_ fun i => ?_
  · simp only [join, length_joinSlots, Nat.max_self]
  · simp only [join, toNat_getD_joinSlots, Nat.max_self]

/-- **Clocks of any lengths form a lattice.** The comparison is a preorder and its equivalence is to
read the same at every address, that is in every slot as long as each has an address.
`happensBefore` is a strict order, and exactly one standing holds between two clocks. The join is
the least upper bound, and joins obey the laws of a semilattice with their lengths. -/
theorem lattice_laws (a b c : Clock) :
    a.le a = true ∧
    (a.le b = true → b.le c = true → a.le c = true) ∧
    (a.le b = true ∧ b.le a = true ↔ a.Agrees b) ∧
    (a.slots.length ≤ UInt32.size → b.slots.length ≤ UInt32.size →
      (a.Agrees b ↔ ∀ i, a.slots.getD i 0 = b.slots.getD i 0)) ∧
    a.happensBefore a = false ∧
    (a.happensBefore b = true → b.happensBefore a = false) ∧
    (a.happensBefore b = true → b.happensBefore c = true → a.happensBefore c = true) ∧
    (∃! s, a.Stands b s) ∧
    IsLUB {a, b} (a.join b) ∧
    a.join b = b.join a ∧ (a.join b).join c = a.join (b.join c) ∧ a.join a = a := by
  refine ⟨le_refl a, le_trans, agrees_iff.symm, agrees_iff_getD, ?_, fun h => ?_, fun h k => ?_,
    existsUnique_stands a b, isLUB_join a b, join_comm a b, join_assoc a b c, join_self a⟩
  · exact Bool.eq_false_iff.mpr (lt_irrefl a)
  · exact Bool.eq_false_iff.mpr (lt_asymm (show a < b from h))
  · exact lt_trans (show a < b from h) (show b < c from k)

/-- A zero at the end tells two clocks apart as lists, but not in their order, and a join keeps it. -/
theorem lattice_laws_padded :
    let a : Clock := ⟨[1, 0]⟩
    let b : Clock := ⟨[1]⟩
    let c : Clock := ⟨[0, 0, 2]⟩
    a ≠ b ∧ a.Agrees b ∧ (∃! s, a.Stands b s) ∧ a.concurrent c = true ∧
      a.join c = ⟨[1, 0, 2]⟩ ∧ a.happensBefore (b.join c) = true ∧ IsLUB {a, c} (a.join c) := by
  intro a b c
  obtain ⟨-, -, hagree, -, -, -, -, hstands, -⟩ := lattice_laws a b c
  obtain ⟨-, -, -, -, -, -, -, -, hlub, -⟩ := lattice_laws a c b
  exact ⟨by decide, hagree.mp ⟨by decide, by decide⟩, hstands, by decide, by decide, by decide, hlub⟩

end Clock

end Interleave
