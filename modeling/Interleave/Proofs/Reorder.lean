/-
# Reordering the work of different nodes

On nets, drafts of different owners commute (`Net.Moves.exchange`): each changes its own
desk only, and takes from and adds to a common pool. A draft that is not worth executing
right after another (`Draft.Follows` fails) was not posted by it and has a lower owner,
so the two can be exchanged. Exchanging as long as such a pair is left ends, since
every exchange moves a lower owner to the front, and it ends in an order in which
every draft follows the one before it (`Net.Run.ordered`). First-in first-out links are
respected all the way: on a link only the sender's clock counts.
-/
import Mathlib.Data.List.Chain
import Interleave.Proofs.Locality

namespace Interleave

variable {σ μ : Type} {c : Cluster σ μ}

namespace Draft

def sender? (a : Draft μ) : Option NodeId :=
  match a.body with
  | .receive sender _ _ => some sender
  | _ => none

/-- Whether `a` is worth executing right after `f`. -/
def Follows (f a : Draft μ) : Prop := f.owner ≤ a.owner ∨ f.clock.happensBefore a.clock = true

/-- A delivery waits while an older message on its link is in the pool. -/
def Waits (pool : Multiset (Draft μ)) (a : Draft μ) : Prop :=
  ∃ s, a.sender? = some s ∧
    ∃ u ∈ pool, u.sender? = some s ∧ u.owner = a.owner ∧ u.clock.get s < a.clock.get s

/-- Whether message order allows a draft to be executed. -/
def Free (c : Cluster σ μ) (pool : Multiset (Draft μ)) (a : Draft μ) : Prop :=
  c.config.order = .fifo → ¬ a.Waits pool

theorem Free.anti {pool pool' : Multiset (Draft μ)} {a : Draft μ} (h : a.Free c pool)
    (hsub : ∀ s, a.sender? = some s → ∀ u ∈ pool', u.sender? = some s → u.owner = a.owner →
      u.clock.get s < a.clock.get s → u ∈ pool) : a.Free c pool' := by
  rintro hfifo ⟨s, hs, u, hu, hus, huo, hlt⟩
  exact h hfifo ⟨s, hs, u, hsub s hs u hu hus huo hlt, hus, huo, hlt⟩

end Draft

namespace Net

/-- Executing a draft of the pool. -/
inductive Moves (c : Cluster σ μ) (a : Draft μ) : Net σ μ → Net σ μ → Prop
  | act {N : Net σ μ} {rest : Multiset (Draft μ)} {d : Desk σ} {posted : List (Draft μ)}
      (pool : N.pool = a ::ₘ rest) (does : Act c a (N.desk a.owner.index) d posted) :
      Moves c a N ({ N with pool := rest }.after a.owner.index d posted)

/-- Executing drafts in order, each when message order allows it. -/
inductive Run (c : Cluster σ μ) : Net σ μ → List (Draft μ) → Net σ μ → Prop
  | nil (N : Net σ μ) : Run c N [] N
  | cons {N N₁ N₂ : Net σ μ} {a : Draft μ} {as : List (Draft μ)} (free : a.Free c N.pool)
      (move : Moves c a N N₁) (rest : Run c N₁ as N₂) : Run c N (a :: as) N₂

theorem Moves.mem {a : Draft μ} {N N' : Net σ μ} (h : Moves c a N N') : a ∈ N.pool := by
  obtain ⟨hpool, -⟩ := h
  rw [hpool]
  exact Multiset.mem_cons_self a _

theorem Moves.sound {a : Draft μ} {N N' : Net σ μ} (h : Moves c a N N') (hs : N.Sound c.size) :
    N'.Sound c.size := by
  have hown := (hs a h.mem).1
  obtain ⟨hpool, hact⟩ := h
  rename_i rest d posted
  have hrest : Net.Sound c.size { N with pool := rest } := fun x hx =>
    hs x (by rw [hpool]; exact Multiset.mem_cons_of_mem hx)
  exact hrest.after hown hact.forward

/-- Work at two different places can be done in either order. -/
theorem after_comm (N : Net σ μ) {i j : Nat} (hij : i ≠ j) (d d' : Desk σ)
    (posted posted' : List (Draft μ)) :
    (N.after i d posted).after j d' posted' = (N.after j d' posted').after i d posted := by
  have hdesk := Function.update_comm hij d d' N.desk
  have hpool : N.pool + ↑posted + ↑posted' = N.pool + ↑posted' + ↑posted := by
    rw [Multiset.add_assoc, Multiset.add_comm (posted : Multiset (Draft μ)), ← Multiset.add_assoc]
  simp only [after, hdesk, hpool, Nat.add_right_comm]

/-- What node `v` posts on a link is younger than what is in the pool of it. -/
theorem Sound.not_older {n : Nat} {N : Net σ μ} (h : N.Sound n) {v s : NodeId} {d : Desk σ}
    {posted : List (Draft μ)} (hf : (N.desk v.index).Forward n v d posted) {f u : Draft μ}
    (hfmem : f ∈ N.pool) (hu : u ∈ posted) (hfs : f.sender? = some s) (hus : u.sender? = some s) :
    ¬ u.clock.get s < f.clock.get s := by
  obtain ⟨k, -, hk, -, hlt, -, -, hby⟩ := hf.posts u hu
  obtain ⟨-, hb⟩ := h f hfmem
  rcases f with ⟨owner, clock, body⟩
  cases body with
  | receive sender message id =>
    cases hfs
    obtain ⟨-, k', hk', hle⟩ := hb
    rcases u with ⟨owner', clock', body'⟩
    cases body' with
    | receive sender' message' id' =>
      cases hus
      simp only at hby
      subst hby
      rw [hk] at hk'
      cases hk'
      have hle' := Clock.get_le_get ((Clock.happensBefore_iff k clock').mp hlt).1 s
      exact UInt64.not_lt.mpr (UInt64.le_trans hle hle')
    | _ => cases hus
  | _ => cases hfs

/-- **Drafts of different owners commute**, if the first did not post the second. -/
theorem Moves.exchange {f a : Draft μ} {N N₁ N₂ : Net σ μ} (hs : N.Sound c.size)
    (hf : Moves c f N N₁) (ha : Moves c a N₁ N₂) (hfree : f.Free c N.pool)
    (hafree : a.Free c N₁.pool) (hnot : ¬ f.Follows a) :
    ∃ N', a.Free c N.pool ∧ Moves c a N N' ∧ f.Free c N'.pool ∧ Moves c f N' N₂ := by
  have hne : a.owner.index ≠ f.owner.index := fun h => hnot (.inl (Nat.le_of_eq h.symm))
  have howner : f.owner ≠ a.owner := fun h => hne (h ▸ rfl)
  have hfmem := hf.mem
  obtain ⟨hpool, hact⟩ := hf
  rename_i rest d posted
  obtain ⟨hpool₁, hact₁⟩ := ha
  rename_i rest₁ d₁ posted₁
  -- what `f` posts would follow it, so `a` was in the pool before
  have hposted : a ∉ posted := fun hmem => by
    rcases hact.follows a hmem with h | h
    · exact howner h.symm
    · exact hnot (.inr h)
  have hpool₂ : rest + ↑posted = a ::ₘ rest₁ := hpool₁
  have hmem : a ∈ rest := by
    have : a ∈ rest + ↑posted := hpool₂ ▸ Multiset.mem_cons_self a rest₁
    exact (Multiset.mem_add.mp this).resolve_right fun h => hposted (Multiset.mem_coe.mp h)
  obtain ⟨rest', rfl⟩ := Multiset.exists_cons_of_mem hmem
  rw [Multiset.cons_add, Multiset.cons_inj_right] at hpool₂
  subst hpool₂
  rw [show (({ N with pool := a ::ₘ rest' } : Net σ μ).after f.owner.index d posted).desk
    a.owner.index = N.desk a.owner.index by simp [after, hne]] at hact₁
  have hN : N.pool = a ::ₘ f ::ₘ rest' := by rw [hpool, Multiset.cons_swap]
  refine ⟨{ N with pool := f ::ₘ rest' }.after a.owner.index d₁ posted₁, ?_, .act hN hact₁, ?_, ?_⟩
  · refine hafree.anti fun s _ u hu _ huo hult => ?_
    rw [hpool] at hu
    rcases Multiset.mem_cons.mp hu with rfl | hu
    · exact absurd huo howner
    · exact Multiset.mem_add.mpr (.inl hu)
  · refine hfree.anti fun s hsf u hu hus _ hult => ?_
    rcases Multiset.mem_add.mp hu with hu | hu
    · rw [hN]
      exact Multiset.mem_cons_of_mem hu
    · exact absurd hult (hs.not_older hact₁.forward hfmem (Multiset.mem_coe.mp hu) hsf hus)
  · have hpool' : (({ N with pool := f ::ₘ rest' } : Net σ μ).after a.owner.index d₁ posted₁).pool
        = f ::ₘ (rest' + ↑posted₁) := Multiset.cons_add ..
    have hact' : Act c f ((({ N with pool := f ::ₘ rest' } : Net σ μ).after a.owner.index d₁
        posted₁).desk f.owner.index) d posted := by
      simpa [after, hne.symm] using hact
    have hcomm := ({ N with pool := rest' } : Net σ μ).after_comm hne d₁ d posted₁ posted
    have hmoves := Moves.act hpool' hact'
    exact hcomm ▸ hmoves

/-- Two neighbours of a run that do not follow each other can be exchanged. -/
theorem Run.exchange {f a : Draft μ} {as₂ : List (Draft μ)} (hnot : ¬ f.Follows a) :
    ∀ {as₁ : List (Draft μ)} {N N' : Net σ μ}, N.Sound c.size →
      Run c N (as₁ ++ f :: a :: as₂) N' → Run c N (as₁ ++ a :: f :: as₂) N'
  | [], N, N', hs, h => by
    obtain _ | ⟨hfree, hf, h⟩ := h
    obtain _ | ⟨hafree, ha, h⟩ := h
    obtain ⟨N₁, hafree', ha', hfree', hf'⟩ := hf.exchange hs ha hfree hafree hnot
    exact .cons hafree' ha' (.cons hfree' hf' h)
  | b :: as₁, N, N', hs, h => by
    obtain _ | ⟨hfree, hb, h⟩ := h
    exact .cons hfree hb (Run.exchange hnot (hb.sound hs) h)

end Net

/-! ### Putting a run in order -/

/-- The sum of a list in which every place counts by its distance from the end. -/
def weight : List Nat → Nat
  | [] => 0
  | x :: l => (l.length + 1) * x + weight l

/-- Moving a smaller number to the front lowers the weight. -/
theorem weight_exchange_lt {x y : Nat} (h : y < x) (l : List Nat) :
    ∀ k, weight (k ++ y :: x :: l) < weight (k ++ x :: y :: l)
  | [] => by
    simp only [List.nil_append, weight, List.length_cons]
    have hx : (l.length + 1 + 1) * x = (l.length + 1) * x + x := Nat.succ_mul ..
    have hy : (l.length + 1 + 1) * y = (l.length + 1) * y + y := Nat.succ_mul ..
    omega
  | z :: k => by
    simp only [List.cons_append, weight, List.length_append, List.length_cons]
    exact Nat.add_lt_add_left (weight_exchange_lt h l k) _

/-- **Every run has an ordered one**: from the same net to the same net, with the same drafts of
every node in the same order, each draft following the one before it. -/
theorem Net.Run.ordered {N N' : Net σ μ} (hs : N.Sound c.size) {as : List (Draft μ)}
    (h : Run c N as N') : ∃ bs, Run c N bs N' ∧ bs.IsChain Draft.Follows ∧
      ∀ v, bs.filter (·.owner = v) = as.filter (·.owner = v) := by
  -- exchanging neighbours that do not follow lowers the weight of the owners
  induction hw : weight (as.map (·.owner.index)) using Nat.strong_induction_on generalizing as with
  | _ n ih =>
    by_cases hchain : as.IsChain Draft.Follows
    · exact ⟨as, h, hchain, fun _ => rfl⟩
    rw [List.isChain_iff_forall_rel_of_append_cons_cons] at hchain
    push Not at hchain
    obtain ⟨f, a, as₁, as₂, rfl, hnot⟩ := hchain
    have hlt : a.owner.index < f.owner.index := Nat.not_le.mp fun hle => hnot (.inl hle)
    have hne : f.owner ≠ a.owner := fun heq => Nat.lt_irrefl _ (heq ▸ hlt)
    have hweight := weight_exchange_lt hlt (as₂.map (·.owner.index)) (as₁.map (·.owner.index))
    obtain ⟨bs, hrun, hbs, hsame⟩ := ih (weight ((as₁ ++ a :: f :: as₂).map (·.owner.index)))
      (by rw [← hw]; simpa using hweight) (h.exchange hnot hs) rfl
    refine ⟨bs, hrun, hbs, fun v => (hsame v).trans ?_⟩
    -- at most one of the two is kept, so their order does not show
    by_cases hv : f.owner = v
    · have hav : a.owner ≠ v := fun heq => hne (hv.trans heq.symm)
      simp [hv, hav]
    · simp [List.filter_cons, hv]

end Interleave
