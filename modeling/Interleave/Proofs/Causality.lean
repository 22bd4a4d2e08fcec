/-
# Stamps and causal order

The events on the clocks of a cluster are listed in the order they happen, each
with the clock of its node right after it. One event leads to another if it comes
earlier on the same node, or if it sends the message that the other receives; the
causal order is what follows from these. A clock that ticks takes over all that
the events leading to the new one knew, and nothing else (`Tick.Hears`). If every
event does so (`Tick.Faithful`), the stamps say which events precede which
(`Tick.Faithful.happensBefore_iff`): an event is known by its own node's slot, for no
stamp knows more of a node than the node itself.
-/
import Interleave.Proofs.Bookkeeping
import Interleave.Proofs.Clock

namespace Interleave

namespace Tick

/-! ### The causal order -/

/-- Event `i` leads to event `j`: it comes earlier on the same node, or it sends the message that
event `j` receives. -/
def Leads (l : List Tick) (i j : Nat) : Prop :=
  ∃ a b, l[i]? = some a ∧ l[j]? = some b ∧
    (i < j ∧ a.node = b.node ∨ ∃ m, a.cause = .sent m ∧ b.cause = .received m)

/-- Event `i` causally precedes event `j`. -/
def Precedes (l : List Tick) : Nat → Nat → Prop := Relation.TransGen (Leads l)

/-- Event `b` hears of `a` directly, if it comes after it. -/
def Feeds (a b : Tick) : Prop :=
  a.node = b.node ∨ ∃ m, a.cause = .sent m ∧ b.cause = .received m

section

variable {l : List Tick} {x : Tick} {i j : Nat}

theorem getElem?_snoc_of_some {a : Tick} (h : l[i]? = some a) : (l ++ [x])[i]? = some a := by
  rw [List.getElem?_append_left (List.getElem?_eq_some_iff.mp h).1, h]

/-- An event of the longer list is the new one or was there before. -/
theorem getElem?_snoc_cases {a : Tick} (h : (l ++ [x])[i]? = some a) :
    l[i]? = some a ∨ i = l.length ∧ a = x := by
  obtain ⟨hlen, heq⟩ := List.getElem?_eq_some_iff.mp h
  rcases Nat.lt_or_ge i l.length with hi | hi
  · rw [List.getElem?_append_left hi] at h
    exact .inl h
  · have hi : i = l.length := by
      rw [List.length_append, List.length_singleton] at hlen
      omega
    subst hi
    exact .inr ⟨rfl, by simpa using h.symm⟩

theorem Leads.snoc (h : Leads l i j) : Leads (l ++ [x]) i j := by
  obtain ⟨a, b, ha, hb, hab⟩ := h
  exact ⟨a, b, getElem?_snoc_of_some ha, getElem?_snoc_of_some hb, hab⟩

theorem leads_trans_snoc (h : Relation.ReflTransGen (Leads l) i j) :
    Relation.ReflTransGen (Leads (l ++ [x])) i j :=
  h.lift id fun _ _ hleads => hleads.snoc

theorem Feeds.leads {a : Tick} (h : a.Feeds x) (ha : l[i]? = some a) :
    Leads (l ++ [x]) i l.length := by
  have hi : i < l.length := (List.getElem?_eq_some_iff.mp ha).1
  exact ⟨a, x, getElem?_snoc_of_some ha, by simp, h.imp (fun hnode => ⟨hi, hnode⟩) id⟩

/-- A new event leads to none, and only what it hears of leads to it. -/
theorem Leads.of_snoc (hfresh : ∀ m, x.cause = .sent m → ∀ b ∈ l, b.cause ≠ .received m)
    (h : Leads (l ++ [x]) i j) :
    Leads l i j ∨ j = l.length ∧ ∃ a, l[i]? = some a ∧ a.Feeds x := by
  obtain ⟨a, b, ha, hb, hab⟩ := h
  rcases getElem?_snoc_cases ha with hi | ⟨rfl, rfl⟩
  · rcases getElem?_snoc_cases hb with hj | ⟨rfl, rfl⟩
    · exact .inl ⟨a, b, hi, hj, hab⟩
    · exact .inr ⟨rfl, a, hi, hab.imp And.right id⟩
  · -- What the new event leads to would come after it.
    rcases getElem?_snoc_cases hb with hb | ⟨rfl, rfl⟩
    · have hj : j < l.length := (List.getElem?_eq_some_iff.mp hb).1
      rcases hab with ⟨hij, -⟩ | ⟨m, hsent, hreceived⟩
      · omega
      · exact absurd hreceived (hfresh m hsent b (List.mem_of_getElem? hb))
    · rcases hab with ⟨hij, -⟩ | ⟨m, hsent, hreceived⟩
      · omega
      · rw [hsent] at hreceived
        cases hreceived

end

/-! ### Faithful stamps -/

/-- Clock `k` knows what the events that `x` hears of knew, and nothing else. -/
structure Hears (l : List Tick) (x : Tick) (k : Clock) : Prop where
  all : ∀ a ∈ l, a.Feeds x → a.stamp.le k = true
  only : ∀ u, ∃ a ∈ l, a.Feeds x ∧ k.get u ≤ a.stamp.get u

/-- The stamps of the events tell what leads to what, and the clocks are those of the last
events. -/
structure Faithful (l : List Tick) (clocks : List Clock) : Prop where
  forward : ∀ {i j}, Leads l i j → i < j
  mono : ∀ {i j : Nat} {a b : Tick}, Leads l i j → l[i]? = some a → l[j]? = some b →
    a.stamp.le b.stamp = true
  /-- Who knows an event's own count comes after it. -/
  exact : ∀ {i j : Nat} {a b : Tick}, l[i]? = some a → l[j]? = some b →
    a.stamp.get a.node ≤ b.stamp.get a.node → Relation.ReflTransGen (Leads l) i j
  last : ∀ {v : NodeId} {k}, clocks[v.index]? = some k →
    ∃ (i : Nat) (a : Tick), l[i]? = some a ∧ a.node = v ∧ a.stamp = k ∧
      ∀ {j : Nat} {b : Tick}, l[j]? = some b → b.node = v → j ≤ i
  /-- No stamp knows more of a node than the node itself. -/
  bound : ∀ {v : NodeId} {k}, clocks[v.index]? = some k → ∀ a ∈ l, a.stamp.get v ≤ k.get v
  counted : ∀ {v : NodeId} {k}, clocks[v.index]? = some k →
    (k.get v).toNat = (l.filter fun a => a.node = v).length
  /-- Every event counts. -/
  positive : ∀ a ∈ l, 0 < a.stamp.get a.node

namespace Faithful

variable {l : List Tick} {clocks : List Clock} {v : NodeId} {k k₁ k' : Clock} {cause : Cause}

/-- The clock of a node knows all that its events knew. -/
theorem le_of_node (h : Faithful l clocks) (hk : clocks[v.index]? = some k) {a : Tick} (ha : a ∈ l)
    (hnode : a.node = v) : a.stamp.le k = true := by
  obtain ⟨j, b, hb, hv, rfl, hlast⟩ := h.last hk
  obtain ⟨i, hi⟩ := List.mem_iff_getElem?.mp ha
  rcases Nat.eq_or_lt_of_le (hlast hi hnode) with rfl | hij
  · rw [hi] at hb
    cases hb
    exact Clock.le_refl _
  · exact h.mono ⟨a, b, hi, hb, .inl ⟨hij, hnode.trans hv.symm⟩⟩ hi hb

/-- An event that receives nothing hears of its own node only. -/
theorem hears_own (h : Faithful l clocks) (hk : clocks[v.index]? = some k)
    (hcause : ∀ m, cause ≠ .received m) : Hears l ⟨v, cause, k'⟩ k where
  all a ha hfeeds := by
    rcases hfeeds with hnode | ⟨m, -, hreceived⟩
    · exact h.le_of_node hk ha hnode
    · exact absurd hreceived (hcause m)
  only u := by
    obtain ⟨i, a, ha, hnode, rfl, -⟩ := h.last hk
    exact ⟨a, List.mem_of_getElem? ha, .inl hnode, UInt64.le_refl _⟩

/-- The receipt of a message hears of its own node and of the sending. -/
theorem hears_receipt (h : Faithful l clocks) (hk : clocks[v.index]? = some k) {a : Tick}
    {m : MessageId} (ha : a ∈ l) (hsent : a.cause = .sent m)
    (hunique : ∀ b ∈ l, b.cause = .sent m → b = a) :
    Hears l ⟨v, .received m, k'⟩ (k.join a.stamp) where
  all b hb hfeeds := by
    rcases hfeeds with hnode | ⟨n, hcause, hreceived⟩
    · exact Clock.le_trans (h.le_of_node hk hb hnode) (Clock.le_join_left _ _)
    · cases hreceived
      rw [hunique b hb hcause]
      exact Clock.le_join_right _ _
  only u := by
    rcases Clock.get_join k a.stamp u with hown | hother
    · obtain ⟨i, b, hb, hnode, rfl, -⟩ := h.last hk
      exact ⟨b, List.mem_of_getElem? hb, .inl hnode, by rw [hown]; exact UInt64.le_refl _⟩
    · exact ⟨a, ha, .inr ⟨m, hsent, rfl⟩, by rw [hother]; exact UInt64.le_refl _⟩

section

variable (h : Faithful l clocks) (hk : clocks[v.index]? = some k)
  (hears : Hears l ⟨v, cause, k'⟩ k₁) (hticks : k₁.tick? v = some k')
include h hk hears

/-- Of its own node an event hears nothing new. -/
theorem get_heard : k₁.get v = k.get v := by
  refine UInt64.le_antisymm ?_ ?_
  · obtain ⟨a, ha, -, hle⟩ := hears.only v
    exact UInt64.le_trans hle (h.bound hk a ha)
  · obtain ⟨i, a, ha, hnode, rfl, -⟩ := h.last hk
    exact Clock.get_le_get (hears.all a (List.mem_of_getElem? ha) (.inl hnode)) v

include hticks

theorem get_before_lt {a : Tick} (ha : a ∈ l) : a.stamp.get v < k'.get v := by
  have hle : a.stamp.get v ≤ k₁.get v := by
    rw [h.get_heard hk hears]
    exact h.bound hk a ha
  exact UInt64.lt_of_le_of_lt hle (Clock.get_tick hticks)

omit hk in
/-- An event whose count a new event knows precedes it. -/
theorem precedes_new {i : Nat} {a : Tick} (ha : l[i]? = some a)
    (hle : a.stamp.get a.node ≤ k'.get a.node) :
    Relation.ReflTransGen (Leads (l ++ [⟨v, cause, k'⟩])) i l.length := by
  by_cases hnode : a.node = v
  · have hfeeds : a.Feeds ⟨v, cause, k'⟩ := .inl hnode
    exact .single (hfeeds.leads ha)
  · -- Of another node the event knows what some event it hears of knew.
    have hindex : a.node.index ≠ v.index := fun heq => hnode (NodeId.index_inj.mp heq)
    rw [Clock.get_tick_of_ne hticks hindex] at hle
    obtain ⟨b, hb, hfeeds, hknown⟩ := hears.only a.node
    obtain ⟨j, hj⟩ := List.mem_iff_getElem?.mp hb
    have hpast : Relation.ReflTransGen (Leads l) i j := h.exact ha hj (UInt64.le_trans hle hknown)
    exact (leads_trans_snoc hpast).tail (hfeeds.leads hj)

end

/-- **A new event keeps the stamps faithful** if it takes over what it hears of. -/
theorem snoc (h : Faithful l clocks) (hk : clocks[v.index]? = some k)
    (hears : Hears l ⟨v, cause, k'⟩ k₁) (hticks : k₁.tick? v = some k')
    (hfresh : ∀ m, cause = .sent m → ∀ b ∈ l, b.cause ≠ .received m) :
    Faithful (l ++ [⟨v, cause, k'⟩]) (clocks.set v.index k') := by
  have hv : v.index < clocks.length := (List.getElem?_eq_some_iff.mp hk).1
  -- The clocks are those of before, but for the one that ticked.
  have hclock : ∀ {u : NodeId} {x}, (clocks.set v.index k')[u.index]? = some x →
      u = v ∧ x = k' ∨ u ≠ v ∧ clocks[u.index]? = some x := by
    intro u x hx
    by_cases huv : u = v
    · subst huv
      rw [List.getElem?_set_self hv] at hx
      cases hx
      exact .inl ⟨rfl, rfl⟩
    · have hindex : v.index ≠ u.index := fun heq => huv (NodeId.index_inj.mp heq.symm)
      rw [List.getElem?_set_ne hindex] at hx
      exact .inr ⟨huv, hx⟩
  refine ⟨?forward, ?mono, ?exact, ?last, ?bound, ?counted, ?positive⟩
  case forward =>
    intro i j hleads
    rcases hleads.of_snoc hfresh with hleads | ⟨rfl, a, ha, -⟩
    · exact h.forward hleads
    · exact (List.getElem?_eq_some_iff.mp ha).1
  case mono =>
    intro i j a b hleads ha hb
    rcases hleads.of_snoc hfresh with hleads | ⟨rfl, x, hx, hfeeds⟩
    · obtain ⟨x, y, hx, hy, -⟩ := id hleads
      rw [getElem?_snoc_of_some hx] at ha
      rw [getElem?_snoc_of_some hy] at hb
      cases ha
      cases hb
      exact h.mono hleads hx hy
    · rw [getElem?_snoc_of_some hx] at ha
      cases ha
      obtain rfl : b = ⟨v, cause, k'⟩ := by simpa using hb.symm
      exact Clock.le_trans (hears.all a (List.mem_of_getElem? hx) hfeeds) (Clock.le_tick hticks)
  case exact =>
    intro i j a b ha hb hle
    rcases getElem?_snoc_cases ha with ha | ⟨rfl, rfl⟩
    · rcases getElem?_snoc_cases hb with hb | ⟨rfl, rfl⟩
      · exact leads_trans_snoc (h.exact ha hb hle)
      · exact h.precedes_new hears hticks ha hle
    · rcases getElem?_snoc_cases hb with hb | ⟨rfl, rfl⟩
      · have hlt := h.get_before_lt hk hears hticks (List.mem_of_getElem? hb)
        exact absurd hle (UInt64.not_le.mpr hlt)
      · exact .refl
  case last =>
    intro u x hx
    rcases hclock hx with ⟨rfl, rfl⟩ | ⟨huv, hx⟩
    · refine ⟨l.length, ⟨u, cause, x⟩, by simp, rfl, rfl, fun {j b} hb _ => ?_⟩
      have hj := (List.getElem?_eq_some_iff.mp hb).1
      simp only [List.length_append, List.length_singleton] at hj
      omega
    · obtain ⟨i, a, ha, hnode, hstamp, hlast⟩ := h.last hx
      refine ⟨i, a, getElem?_snoc_of_some ha, hnode, hstamp, fun {j b} hb hu => ?_⟩
      rcases getElem?_snoc_cases hb with hb | ⟨rfl, rfl⟩
      · exact hlast hb hu
      · exact absurd hu.symm huv
  case bound =>
    intro u x hx a ha
    rcases hclock hx with ⟨rfl, rfl⟩ | ⟨huv, hx⟩
    · rcases List.mem_append.mp ha with ha | ha
      · exact UInt64.le_of_lt (h.get_before_lt hk hears hticks ha)
      · cases List.mem_singleton.mp ha
        exact UInt64.le_refl _
    · rcases List.mem_append.mp ha with ha | ha
      · exact h.bound hx a ha
      · cases List.mem_singleton.mp ha
        have hindex : u.index ≠ v.index := fun heq => huv (NodeId.index_inj.mp heq)
        obtain ⟨b, hb, -, hle⟩ := hears.only u
        rw [Clock.get_tick_of_ne hticks hindex]
        exact UInt64.le_trans hle (h.bound hx b hb)
  case counted =>
    intro u x hx
    rcases hclock hx with ⟨rfl, rfl⟩ | ⟨huv, hx⟩
    · rw [Clock.toNat_get_tick hticks, h.get_heard hk hears, h.counted hk]
      simp
    · rw [h.counted hx]
      simp [Ne.symm huv]
  case positive =>
    intro a ha
    rcases List.mem_append.mp ha with ha | ha
    · exact h.positive a ha
    · cases List.mem_singleton.mp ha
      have hcount := Clock.toNat_get_tick hticks
      show 0 < k'.get v
      rw [UInt64.lt_iff_toNat_lt, UInt64.toNat_zero]
      omega

/-! ### Reading the stamps -/

variable {i j : Nat} {a b : Tick}

theorem lt_of_precedes (h : Faithful l clocks) (hij : Precedes l i j) : i < j := by
  induction hij with
  | single hleads => exact h.forward hleads
  | tail _ hleads ih => exact Nat.lt_trans ih (h.forward hleads)

theorem le_of_precedes (h : Faithful l clocks) (ha : l[i]? = some a) (hb : l[j]? = some b)
    (hij : Precedes l i j) : a.stamp.le b.stamp = true := by
  induction hij generalizing b with
  | single hleads => exact h.mono hleads ha hb
  | tail _ hleads ih =>
    obtain ⟨x, -, hx, -, -⟩ := id hleads
    exact Clock.le_trans (ih hx) (h.mono hleads hx hb)

/-- A stamp that knows another is that of the same event or a later one. -/
theorem eq_or_precedes_of_le (h : Faithful l clocks) (ha : l[i]? = some a) (hb : l[j]? = some b)
    (hle : a.stamp.le b.stamp = true) : j = i ∨ Precedes l i j :=
  Relation.reflTransGen_iff_eq_or_transGen.mp (h.exact ha hb (Clock.get_le_get hle a.node))

/-- **The stamps characterise the causal order.** -/
theorem happensBefore_iff (h : Faithful l clocks) (ha : l[i]? = some a) (hb : l[j]? = some b) :
    a.stamp.happensBefore b.stamp = true ↔ Precedes l i j := by
  rw [Clock.happensBefore_iff]
  constructor
  · rintro ⟨hle, hnot⟩
    refine (h.eq_or_precedes_of_le ha hb hle).resolve_left ?_
    rintro rfl
    rw [ha] at hb
    cases hb
    rw [Clock.le_refl] at hnot
    cases hnot
  · intro hij
    refine ⟨h.le_of_precedes ha hb hij, Bool.eq_false_iff.mpr fun hle => ?_⟩
    have hlt := h.lt_of_precedes hij
    rcases h.eq_or_precedes_of_le hb ha hle with rfl | hji
    · omega
    · have hgt := h.lt_of_precedes hji
      omega

/-- No two events have the same stamp. -/
theorem eq_of_stamp_eq (h : Faithful l clocks) (ha : l[i]? = some a) (hb : l[j]? = some b)
    (hstamp : a.stamp = b.stamp) : i = j := by
  have hab : a.stamp.le b.stamp = true := hstamp ▸ Clock.le_refl _
  have hba : b.stamp.le a.stamp = true := hstamp ▸ Clock.le_refl _
  rcases h.eq_or_precedes_of_le ha hb hab with rfl | hij
  · rfl
  · rcases h.eq_or_precedes_of_le hb ha hba with rfl | hji
    · rfl
    · have hlt := h.lt_of_precedes hij
      have hgt := h.lt_of_precedes hji
      omega

end Faithful

/-! ### The first events -/

theorem get_firstClock {n i : Nat} (hi : i < n) (v : NodeId) :
    (World.firstClock n i).get v = if v.index = i then 1 else 0 := by
  rw [World.firstClock, Clock.get, List.getD_eq_getElem?_getD]
  by_cases hv : v.index = i
  · subst hv
    rw [if_pos rfl, List.getElem?_set_self (by simpa using hi)]
    rfl
  · rw [if_neg hv, List.getElem?_set_ne (Ne.symm hv)]
    cases hx : (List.replicate n (0 : UInt64))[v.index]? with
    | none => rfl
    | some x =>
      have hzero := (List.mem_replicate.mp (List.mem_of_getElem? hx)).2
      rw [hzero]
      rfl

/-- The event that starts the node at place `i` of `n`. -/
def first (n i : Nat) : Tick := ⟨NodeId.ofIndex i, .work, World.firstClock n i⟩

/-- One event a node, each known to its own node only, is faithfully stamped. -/
theorem faithful_first {n : Nat} (hn : n < UInt32.size) :
    Faithful ((List.range n).map (first n)) ((List.range n).map (World.firstClock n)) := by
  have hplace : ∀ {i : Nat}, i < n → (NodeId.ofIndex i).index = i := fun hi =>
    NodeId.index_ofIndex (Nat.lt_trans hi hn)
  have hfirst : ∀ {i : Nat} {a : Tick}, ((List.range n).map (first n))[i]? = some a →
      i < n ∧ a = first n i := by
    intro i a ha
    obtain ⟨hi, rfl⟩ := List.getElem?_eq_some_iff.mp ha
    exact ⟨by simpa using hi, by simp⟩
  have hclock : ∀ {v : NodeId} {k : Clock},
      ((List.range n).map (World.firstClock n))[v.index]? = some k →
        v.index < n ∧ k = World.firstClock n v.index := by
    intro v k hk
    obtain ⟨hv, rfl⟩ := List.getElem?_eq_some_iff.mp hk
    exact ⟨by simpa using hv, by simp⟩
  have hown : ∀ {v : NodeId}, v.index < n → (World.firstClock n v.index).get v = 1 := fun hv => by
    rw [get_firstClock hv, if_pos rfl]
  -- With one event a node and no message sent, nothing leads to anything.
  have hapart : ∀ {i j : Nat}, ¬ Leads ((List.range n).map (first n)) i j := by
    rintro i j ⟨a, b, ha, hb, hab⟩
    obtain ⟨hi, rfl⟩ := hfirst ha
    obtain ⟨hj, rfl⟩ := hfirst hb
    rcases hab with ⟨hij, hnode⟩ | ⟨m, hsent, -⟩
    · have hindex : (NodeId.ofIndex i).index = (NodeId.ofIndex j).index := congrArg _ hnode
      rw [hplace hi, hplace hj] at hindex
      omega
    · cases hsent
  refine ⟨fun h => absurd h hapart, fun h => absurd h hapart, ?exact, ?last, ?bound, ?counted,
    ?positive⟩
  case exact =>
    intro i j a b ha hb hle
    obtain ⟨hi, rfl⟩ := hfirst ha
    obtain ⟨hj, rfl⟩ := hfirst hb
    simp only [first, get_firstClock hi, get_firstClock hj, hplace hi] at hle
    by_cases hij : i = j
    · exact hij ▸ .refl
    · rw [if_pos trivial, if_neg hij] at hle
      exact absurd hle (by decide)
  case last =>
    intro v k hk
    obtain ⟨hv, rfl⟩ := hclock hk
    refine ⟨v.index, first n v.index, by simp [hv], NodeId.index_inj.mp (hplace hv), rfl, ?_⟩
    intro j b hb hnode
    obtain ⟨hj, rfl⟩ := hfirst hb
    rw [← hnode]
    exact Nat.le_of_eq (hplace hj).symm
  case bound =>
    intro v k hk a ha
    obtain ⟨hv, rfl⟩ := hclock hk
    obtain ⟨i, hi, rfl⟩ := List.mem_map.mp ha
    rw [hown hv, first, get_firstClock (List.mem_range.mp hi)]
    split <;> decide
  case counted =>
    intro v k hk
    obtain ⟨hv, rfl⟩ := hclock hk
    have hcount : (List.range n).count v.index = 1 :=
      List.count_eq_one_of_mem List.nodup_range (List.mem_range.mpr hv)
    rw [hown hv, ← List.countP_eq_length_filter, List.countP_map, UInt64.toNat_one, ← hcount]
    refine List.countP_congr fun i hi => ?_
    have hi := hplace (List.mem_range.mp hi)
    simp [first, ← NodeId.index_inj, hi]
  case positive =>
    intro a ha
    obtain ⟨i, hi, rfl⟩ := List.mem_map.mp ha
    have hi := List.mem_range.mp hi
    rw [first, get_firstClock hi, if_pos (hplace hi)]
    decide

end Tick

end Interleave
