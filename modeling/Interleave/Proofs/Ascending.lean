/-
# Ascending lists as sets and maps

What is in a set or a map after an operation on it. Adding a member adds that one
and no other (`Ascending.mem_insert`), and the list stays ascending
(`Ascending.pairwise_insert`), so that a list with fewer members is a part of one
with more (`Ascending.subperm_of_subset`), a new member can be taken back
(`Ascending.erase_insert`), and an ascending list is the set of its members
(`Ascending.ofList_of_pairwise`). A map has under each key what was put there last
(`Ascending.lookup_put`).

The order has to be total for this, as those of nodes and messages are.
-/
import Interleave.Ascending
import Interleave.Proofs.Clock
import Mathlib.Data.List.Perm.Subperm
import Mathlib.Order.Defs.Unbundled

namespace Interleave

/-! ### The orders of nodes and messages -/

theorem NodeId.eq_of_not_lt {u v : NodeId} (huv : ¬ u < v) (hvu : ¬ v < u) : u = v := by
  have hle : ¬ u.index < v.index := huv
  have hge : ¬ v.index < u.index := hvu
  exact NodeId.index_inj.mp (by omega)

instance : IsStrictTotalOrder NodeId (· < ·) where
  irrefl v := Nat.lt_irrefl v.index
  trans _ _ _ := Nat.lt_trans
  trichotomous _ _ := NodeId.eq_of_not_lt

theorem MessageId.eq_of_not_lt {m n : MessageId} (hmn : ¬ m < n) (hnm : ¬ n < m) : m = n := by
  have hle : ¬ m.number < n.number := hmn
  have hge : ¬ n.number < m.number := hnm
  have hnumber : m.number = n.number := by omega
  exact congrArg MessageId.mk (UInt64.toNat_inj.mp hnumber)

instance : IsStrictTotalOrder MessageId (· < ·) where
  irrefl m := Nat.lt_irrefl m.number
  trans _ _ _ := Nat.lt_trans
  trichotomous _ _ := MessageId.eq_of_not_lt

namespace Ascending

/-! ### Sets -/

section

variable {α : Type} [DecidableEq α] [LT α] [DecidableLT α] {a x : α} {s t l : List α}

theorem mem_insert : x ∈ insert a s ↔ x = a ∨ x ∈ s := by
  induction s with
  | nil => simp [insert]
  | cons b s ih =>
    unfold insert
    by_cases hlt : a < b
    · simp [hlt]
    by_cases heq : a = b
    · subst heq
      simp [hlt]
    · simp [hlt, heq, ih, or_left_comm]

theorem insert_perm : ∀ {s : List α}, a ∉ s → (insert a s).Perm (a :: s)
  | [], _ => .refl _
  | b :: s, h => by
    obtain ⟨hne, hs⟩ : a ≠ b ∧ a ∉ s := by simpa using h
    simp only [insert, if_neg hne]
    split
    · exact .refl _
    · exact ((insert_perm hs).cons b).trans (.swap a b s)

/-- A new member is taken back. -/
theorem erase_insert : ∀ {s : List α}, a ∉ s → (insert a s).erase a = s
  | [], _ => by simp [insert]
  | b :: s, h => by
    obtain ⟨hne, hs⟩ : a ≠ b ∧ a ∉ s := by simpa using h
    unfold insert
    split_ifs
    · simp
    · rw [List.erase_cons_tail (by simpa using hne.symm), erase_insert hs]

theorem union_cons (s t : List α) (a : α) : union s (a :: t) = union (insert a s) t := rfl

theorem mem_union : x ∈ union s t ↔ x ∈ s ∨ x ∈ t := by
  induction t generalizing s with
  | nil => simp [union]
  | cons a t ih => rw [union_cons, ih, mem_insert, List.mem_cons, or_comm (a := x = a), or_assoc]

theorem mem_ofList : x ∈ ofList l ↔ x ∈ l := by
  rw [ofList, mem_union, or_iff_right List.not_mem_nil]

variable [IsStrictTotalOrder α (· < ·)]

theorem pairwise_insert (h : s.Pairwise (· < ·)) : (insert a s).Pairwise (· < ·) := by
  induction s with
  | nil => simp [insert]
  | cons b s ih =>
    obtain ⟨hb, hs⟩ := List.pairwise_cons.mp h
    unfold insert
    by_cases hlt : a < b
    · rw [if_pos hlt]
      refine List.pairwise_cons.mpr ⟨fun x hx => ?_, h⟩
      rcases List.mem_cons.mp hx with rfl | hx
      · exact hlt
      · exact IsTrans.trans _ _ _ hlt (hb x hx)
    by_cases heq : a = b
    · rw [if_neg hlt, if_pos heq]
      exact h
    · have hgt : b < a := by
        by_contra hle
        exact heq (Std.Trichotomous.trichotomous a b hlt hle)
      rw [if_neg hlt, if_neg heq]
      refine List.pairwise_cons.mpr ⟨fun x hx => ?_, ih hs⟩
      rcases mem_insert.mp hx with rfl | hx
      · exact hgt
      · exact hb x hx

theorem pairwise_union (h : s.Pairwise (· < ·)) : (union s t).Pairwise (· < ·) := by
  induction t generalizing s with
  | nil => exact h
  | cons a t ih => exact ih (pairwise_insert h)

/-- What comes after all members goes to the end. -/
theorem insert_of_forall_lt (hs : ∀ b ∈ s, b < a) : insert a s = s ++ [a] := by
  induction s with
  | nil => rfl
  | cons b s ih =>
    have hb : b < a := hs b List.mem_cons_self
    have hnot : ¬ a < b := asymm_of (· < ·) hb
    have hne : ¬ a = b := fun heq => irrefl_of (· < ·) b (heq ▸ hb)
    rw [insert, if_neg hnot, if_neg hne, ih fun x hx => hs x (List.mem_cons_of_mem b hx)]
    rfl

/-- Going through an ascending list, each member goes to the end of those before it. -/
theorem union_of_pairwise (h : (s ++ t).Pairwise (· < ·)) : union s t = s ++ t := by
  induction t generalizing s with
  | nil => exact (List.append_nil s).symm
  | cons a t ih =>
    have hlast : ∀ b ∈ s, b < a := fun b hb =>
      (List.pairwise_append.mp h).2.2 b hb a List.mem_cons_self
    have hnext : (s ++ [a] ++ t).Pairwise (· < ·) := by simpa using h
    calc union s (a :: t) = union (insert a s) t := union_cons s t a
      _ = s ++ [a] ++ t := by rw [insert_of_forall_lt hlast, ih hnext]
      _ = s ++ a :: t := by simp

/-- An ascending list is the set of its members. -/
theorem ofList_of_pairwise (h : l.Pairwise (· < ·)) : ofList l = l := union_of_pairwise h

end

/-- Of two ascending lists, one with fewer members is part of the other. -/
theorem subperm_of_subset {α : Type} [LT α] [IsStrictTotalOrder α (· < ·)] {s t : List α}
    (hs : s.Pairwise (· < ·)) (h : s ⊆ t) : s.Subperm t := by
  have hnodup : s.Nodup := hs.imp fun {u v} (hlt : u < v) heq => by
    subst heq
    exact irrefl_of (· < ·) u hlt
  exact hnodup.subperm h

/-! ### Maps -/

section

variable {κ ν : Type} [DecidableEq κ] {k k' : κ} {v : ν} {e : κ × ν}

theorem lookup_cons (k : κ) (e : κ × ν) (m : List (κ × ν)) :
    lookup k (e :: m) = if k = e.1 then some e.2 else lookup k m := by
  by_cases h : k = e.1
  · simp [lookup, h]
  · simp [lookup, h, Ne.symm h]

theorem exists_lookup : ∀ {m : List (κ × ν)}, k ∈ m.map (·.1) → ∃ v, lookup k m = some v
  | e :: m, h => by
    rw [lookup_cons]
    split
    · exact ⟨_, rfl⟩
    · rename_i hne
      exact exists_lookup ((List.mem_cons.mp h).resolve_left hne)

/-- What is looked up is listed. -/
theorem exists_of_mem_lookup {a : ν} {m : List (κ × List ν)} (h : a ∈ (lookup k m).getD []) :
    ∃ e ∈ m, a ∈ e.2 := by
  cases hlookup : lookup k m with
  | none =>
    rw [hlookup] at h
    cases h
  | some l =>
    rw [hlookup] at h
    obtain ⟨e, hfind, rfl⟩ := Option.map_eq_some_iff.mp hlookup
    exact ⟨e, List.mem_of_find?_eq_some hfind, h⟩

theorem lookup_drop_self (k : κ) (m : List (κ × ν)) : lookup k (drop k m) = none := by
  simp [lookup, drop]

theorem lookup_drop_of_ne (h : k' ≠ k) : ∀ m : List (κ × ν), lookup k' (drop k m) = lookup k' m
  | [] => rfl
  | e :: m => by
    have ih := lookup_drop_of_ne h m
    by_cases hkey : e.1 = k
    · have hother : ¬ k' = e.1 := fun heq => h (heq.trans hkey)
      rw [lookup_cons, if_neg hother, ← ih]
      simp [drop, hkey]
    · have hkeep : drop k (e :: m) = e :: drop k m := by simp [drop, hkey]
      rw [hkeep, lookup_cons, lookup_cons, ih]

/-- An entry is found again after the entries were cut down, if something is left of it. -/
theorem lookup_filter {keep : ν → Bool} {ids : List ν} (hleft : ids.filter keep ≠ []) :
    ∀ {m : List (κ × List ν)}, lookup k m = some ids →
      lookup k ((m.map fun e => (e.1, e.2.filter keep)).filter fun e => !e.2.isEmpty) =
        some (ids.filter keep)
  | e :: m, h => by
    rw [lookup_cons] at h
    split at h
    · rename_i hkey
      cases h
      rw [List.map_cons, List.filter_cons_of_pos (by simpa using hleft), lookup_cons, if_pos hkey]
    · rename_i hkey
      have ih := lookup_filter hleft h
      rw [List.map_cons, List.filter_cons]
      split
      · rw [lookup_cons, if_neg hkey]
        exact ih
      · exact ih

variable [LT κ] [DecidableLT κ]

theorem lookup_put (k k' : κ) (v : ν) : ∀ m : List (κ × ν),
    lookup k' (put k v m) = if k' = k then some v else lookup k' m
  | [] => lookup_cons k' (k, v) []
  | e :: m => by
    unfold put
    split
    · rw [lookup_cons]
    · split
      · rename_i heq
        rw [lookup_cons, lookup_cons, ← heq]
        split <;> rfl
      · rename_i hne
        rw [lookup_cons, lookup_cons, lookup_put k k' v m]
        by_cases h : k' = e.1
        · simp [h, Ne.symm hne]
        · simp [h]

theorem mem_of_mem_put : ∀ {m : List (κ × ν)}, e ∈ put k v m → e = (k, v) ∨ e ∈ m
  | [], h => by simpa [put] using h
  | x :: m, h => by
    unfold put at h
    split at h
    · simpa using h
    · split at h
      · rcases List.mem_cons.mp h with h | h
        · exact .inl h
        · exact .inr (by simp [h])
      · rcases List.mem_cons.mp h with h | h
        · exact .inr (by simp [h])
        · exact (mem_of_mem_put h).imp_right fun h => by simp [h]

/-- The keys of a map after an entry is added. -/
theorem mem_keys_put : ∀ {m : List (κ × ν)},
    k' ∈ (put k v m).map (·.1) ↔ k' = k ∨ k' ∈ m.map (·.1)
  | [] => by simp [put]
  | e :: m => by
    unfold put
    split
    · simp
    · split
      · rename_i heq
        simp [← heq]
      · rw [List.map_cons, List.mem_cons, mem_keys_put, List.map_cons, List.mem_cons]
        exact or_left_comm

theorem mem_of_mem_foldl_put {l m : List (κ × ν)}
    (h : e ∈ l.foldl (fun m e => put e.1 e.2 m) m) : e ∈ m ∨ e ∈ l := by
  induction l generalizing m with
  | nil => exact .inl h
  | cons x l ih =>
    rcases ih h with h | h
    · rcases mem_of_mem_put h with rfl | h
      · exact .inr List.mem_cons_self
      · exact .inl h
    · exact .inr (List.mem_cons_of_mem _ h)

theorem mem_of_mem_ofEntries {l : List (κ × ν)} (h : e ∈ ofEntries l) : e ∈ l :=
  (mem_of_mem_foldl_put h).resolve_left List.not_mem_nil

theorem mem_keys_foldl_put {l m : List (κ × ν)} :
    k ∈ (l.foldl (fun m e => put e.1 e.2 m) m).map (·.1) ↔ k ∈ m.map (·.1) ∨ k ∈ l.map (·.1) := by
  induction l generalizing m with
  | nil => simp
  | cons e l ih =>
    rw [List.foldl_cons, ih, mem_keys_put, List.map_cons, List.mem_cons, or_assoc]
    exact or_left_comm

theorem mem_keys_ofEntries (l : List (κ × ν)) : k ∈ (ofEntries l).map (·.1) ↔ k ∈ l.map (·.1) := by
  rw [ofEntries, mem_keys_foldl_put, List.map_nil, or_iff_right List.not_mem_nil]

end

end Ascending

end Interleave
