/-
# Canonical iterations

The first iteration of a search takes the canonical choice at every node of the
tree. Injected faults have the last rank, so a fault is the canonical choice only
where all that is eligible are faults. That happens: the owner and the clock of
the task finished last keep the delivery that a fault is attached to from being
eligible, but not the fault, whose owner is the sender. With synchronous messages
it does not happen, since there the delivery of the oldest message is eligible
(`Tree.exists_receive_of_synchronous`), and a drain never comes to a fault.

Up to the first choice among faults only, the iteration injects no fault
(`Course.peaceful_or_strays`). If it never comes to one, its trace tells of none
(`Explorer.first_iteration_peaceful`).
-/
import Interleave.Proofs.Candidates
import Interleave.Proofs.Links
import Interleave.Proofs.Peace

namespace Interleave

variable {F σ μ : Type} {c : Cluster σ μ}

/-! ### The rank of the canonical choice -/

theorem TaskKind.isFault_iff_rank {k : TaskKind} : k.isFault = true ↔ 2 ≤ k.rank := by
  cases k <;> simp [isFault, rank]

/-- The canonical choice has the lowest rank. -/
theorem TreeNode.rank_le_of_canonical : ∀ {l : List (TaskId × TaskKind)} {a b : TaskId × TaskKind},
    canonical l = some a → b ∈ l → a.2.rank ≤ b.2.rank
  | x :: l, a, b, h, hb => by
    unfold canonical at h
    cases hrest : canonical l with
    | none =>
      rw [hrest] at h
      cases h
      rw [canonical_eq_none_iff.mp hrest] at hb
      cases List.mem_singleton.mp hb
      exact Nat.le_refl _
    | some y =>
      rw [hrest] at h
      dsimp only at h
      have hle : ∀ z ∈ l, y.2.rank ≤ z.2.rank := fun z hz => rank_le_of_canonical hrest hz
      split at h
      · -- The choice among the others comes before the first task.
        rename_i hbefore
        cases h
        rcases List.mem_cons.mp hb with rfl | hb
        · simp only [before, Bool.or_eq_true, Bool.and_eq_true, decide_eq_true_eq] at hbefore
          omega
        · exact hle b hb
      · rename_i hbefore
        cases h
        rcases List.mem_cons.mp hb with rfl | hb
        · exact Nat.le_refl _
        · simp only [before, Bool.or_eq_true, Bool.and_eq_true, decide_eq_true_eq, not_or] at hbefore
          exact Nat.le_trans (Nat.not_lt.mp hbefore.1) (hle b hb)

/-! ### Eligible faults -/

namespace Tree

variable {order : DeliveryOrder} {finished : Option TaskView} {pending : List TaskView}

/-- What is eligible are eligible tasks with their kinds. -/
theorem exists_view_of_eligible {a : TaskId × TaskKind} (h : a ∈ eligible order finished pending) :
    ∃ v ∈ eligibleViews order finished pending, (v.id, v.kind) = a :=
  List.mem_map.mp (Ascending.mem_of_mem_ofEntries h)

theorem live_of_eligibleViews {v : TaskView} (h : v ∈ eligibleViews order finished pending) :
    live (deliveries pending) v = true := by
  unfold eligibleViews at h
  dsimp only at h
  split at h
  · have hlive := (List.mem_filter.mp h).2
    exact (Bool.and_eq_true_iff.mp hlive).1
  · have hlive := (List.mem_filter.mp h).2
    exact (Bool.and_eq_true_iff.mp (Bool.and_eq_true_iff.mp hlive).1).1

/-- With synchronous messages, the delivery of the oldest message is eligible wherever a fault is. -/
theorem exists_receive_of_synchronous {v : TaskView}
    (h : v ∈ eligibleViews .synchronous finished pending) (hfault : v.kind.isFault = true) :
    ∃ u ∈ eligibleViews .synchronous finished pending, u.kind = .receive := by
  have hlive := live_of_eligibleViews h
  -- The message of the fault is in flight, so there is an oldest one.
  obtain ⟨m, hm⟩ : ∃ m, (deliveries pending).head? = some m := by
    cases hflight : deliveries pending with
    | nil =>
      rw [hflight] at hlive
      cases hmessage : v.message <;> simp [live, hfault, hmessage] at hlive
    | cons m rest => exact ⟨m, rfl⟩
  obtain ⟨u, hu, humessage⟩ := List.mem_filterMap.mp
    (Ascending.mem_ofList.mp (List.mem_of_head? hm))
  obtain ⟨humem, hukind⟩ := List.mem_filter.mp hu
  have hukind : u.kind = .receive := of_decide_eq_true hukind
  have hulive : live (deliveries pending) u = true := by simp [live, hukind, TaskKind.isFault]
  have holdest : oldest? .synchronous (deliveries pending) = some m := hm
  refine ⟨u, ?_, hukind⟩
  unfold eligibleViews
  simp only [holdest]
  exact List.mem_filter.mpr ⟨humem, by simp [hulive, humessage]⟩

end Tree

namespace Rule.canonical

variable {finished : Option TaskView} {w : World σ μ} {t : Task μ} {order : DeliveryOrder}

/-- A fault is the canonical choice only among faults. -/
theorem isFault_of_isFault (h : Rule.canonical order finished w.pending.views t.view)
    (hw : w.Numbered) (hget : w.pending.get? t.id = some t) (hfault : t.kind.isFault = true) :
    ∀ a ∈ Tree.eligible order finished w.pending.views, a.2.isFault = true := by
  obtain ⟨a, ha, hid⟩ := Option.map_eq_some_iff.mp h
  obtain ⟨v, hv, rfl⟩ := Tree.exists_view_of_eligible (TreeNode.mem_of_canonical ha)
  obtain ⟨u, hu, rfl⟩ := List.mem_map.mp (Tree.mem_of_eligibleViews hv)
  obtain rfl : u = t := hw.eq_of_id_eq hu (List.mem_of_find?_eq_some hget) hid
  intro b hb
  have hrank : 2 ≤ u.kind.rank := TaskKind.isFault_iff_rank.mp hfault
  exact TaskKind.isFault_iff_rank.mpr (Nat.le_trans hrank (TreeNode.rank_le_of_canonical ha hb))

/-- With synchronous messages a fault is never the canonical choice. -/
theorem order_ne (h : Rule.canonical order finished w.pending.views t.view)
    (hw : w.Numbered) (hget : w.pending.get? t.id = some t) (hfault : t.kind.isFault = true) :
    order ≠ .synchronous := by
  rintro rfl
  have hall := isFault_of_isFault h hw hget hfault
  -- The eligible number of a task is listed with the kind of that task.
  have hkind : ∀ v ∈ Tree.eligibleViews .synchronous finished w.pending.views,
      v.kind.isFault = true := by
    intro v hv
    obtain ⟨a, ha, hid⟩ := List.mem_map.mp (Tree.mem_eligible.mpr ⟨v, hv, rfl⟩)
    obtain ⟨v', hv', rfl⟩ := Tree.exists_view_of_eligible ha
    obtain ⟨u, hu, rfl⟩ := List.mem_map.mp (Tree.mem_of_eligibleViews hv)
    obtain ⟨u', hu', rfl⟩ := List.mem_map.mp (Tree.mem_of_eligibleViews hv')
    obtain rfl : u' = u := hw.eq_of_id_eq hu' hu hid
    exact hall _ ha
  obtain ⟨v, hv, hid⟩ := Tree.mem_eligible.mp (Rule.canonical.eligible h)
  obtain ⟨u, hu, hreceive⟩ := Tree.exists_receive_of_synchronous hv (hkind v hv)
  have hfalse := hkind u hu
  rw [hreceive] at hfalse
  cases hfalse

end Rule.canonical

/-! ### The first fault of an execution -/

/-- After tasks `ts` that inject no fault, the rule allows task `t`, which does. -/
structure Strays (c : Cluster σ μ) (rule : Rule) (finished : Option TaskView) (w : World σ μ)
    (ts : List (Task μ)) (t : Task μ) (w' : World σ μ) : Prop where
  before : Schedule c rule.peaceful finished w ts w'
  pending : w'.pending.get? t.id = some t
  allowed : rule (finishedBy finished ts) w'.pending.views t.view
  fault : t.kind.isFault = true

section

variable {rule choice sweep : Rule} {finished : Option TaskView} {w w' : World σ μ}
  {ts : List (Task μ)}

theorem Schedule.peaceful_or_strays (h : Schedule c rule finished w ts w') :
    Schedule c rule.peaceful finished w ts w' ∨
      ∃ us t w₁, us <+: ts ∧ Strays c rule finished w us t w₁ := by
  induction h with
  | nil => exact .inl (.nil _ _)
  | @cons finished w w₁ w₂ t ts allowed done rest ih =>
    obtain ⟨pending, htake, -⟩ := Step.advance_ok_iff.mp done
    cases hfault : t.kind.isFault with
    | true =>
      exact .inr ⟨[], t, w, List.nil_prefix, .nil _ _, (Pending.take_eq_some_iff.mp htake).1, allowed,
        hfault⟩
    | false =>
      rcases ih with hrest | ⟨us, u, w', hprefix, hstrays⟩
      · exact .inl (.cons ⟨allowed, hfault⟩ done hrest)
      · exact .inr ⟨t :: us, u, w', (List.prefix_cons_inj t).mpr hprefix,
          .cons ⟨allowed, hfault⟩ done hstrays.before, hstrays.pending, hstrays.allowed,
          hstrays.fault⟩

theorem Tries.peaceful_or_strays (h : Tries c rule finished w ts w') :
    Tries c rule.peaceful finished w ts w' ∨
      ∃ us t w₁, us <+: ts ∧ Strays c rule finished w us t w₁ := by
  rcases h with h | ⟨t, e, w₁, hschedule, hfails⟩
  · exact h.peaceful_or_strays.imp_left .inl
  · rcases hschedule.peaceful_or_strays with hpeaceful | hstrays
    · cases hfault : t.kind.isFault with
      | true => exact .inr ⟨ts, t, w₁, List.prefix_rfl, hpeaceful, hfails.pending, hfails.allowed, hfault⟩
      | false =>
        exact .inl (.inr ⟨t, e, w₁, hpeaceful, hfails.pending, ⟨hfails.allowed, hfault⟩, hfails.run⟩)
    · exact .inr hstrays

/-- The tasks that are chosen inject no fault, or there is a first one that does. -/
theorem Course.peaceful_or_strays {b : Bool} (h : Course c choice sweep finished w ts w' b) :
    Course c choice.peaceful sweep finished w ts w' b ∨
      ∃ us t w₁, us <+: ts ∧ Strays c choice finished w us t w₁ := by
  have hlonger : ∀ {ts us : List (Task μ)},
      (∃ vs t w₁, vs <+: ts ∧ Strays c choice finished w vs t w₁) →
        ∃ vs t w₁, vs <+: ts ++ us ∧ Strays c choice finished w vs t w₁ := by
    rintro ts us ⟨vs, t, w₁, hprefix, hstrays⟩
    exact ⟨vs, t, w₁, hprefix.trans (List.prefix_append _ _), hstrays⟩
  cases h with
  | broken chosen => exact chosen.peaceful_or_strays.imp_left .broken
  | swept chosen dry swept =>
    exact chosen.peaceful_or_strays.imp (fun chosen => .swept chosen dry swept) hlonger
  | whole chosen dry swept empty =>
    exact chosen.peaceful_or_strays.imp (fun chosen => .whole chosen dry swept empty) hlonger

theorem Iteration.Conduct.peaceful_or_strays {it : Iteration} (h : it.Conduct c choice sweep w) :
    it.Conduct c choice.peaceful sweep w ∨
      ∃ us t w₁, us.map Task.id <+: it.executed ∧ Strays c choice none w us t w₁ := by
  have hids : ∀ {ts : List (Task μ)}, it.executed = ts.map Task.id →
      (∃ us t w₁, us <+: ts ∧ Strays c choice none w us t w₁) →
        ∃ us t w₁, us.map Task.id <+: it.executed ∧ Strays c choice none w us t w₁ := by
    rintro ts hexecuted ⟨us, t, w₁, hprefix, hstrays⟩
    exact ⟨us, t, w₁, hexecuted ▸ hprefix.map Task.id, hstrays⟩
  cases h with
  | cut tasks executed afterwards trace =>
    exact tasks.peaceful_or_strays.imp (fun tasks => .cut tasks executed afterwards trace)
      (hids executed)
  | told tasks told executed afterwards trace =>
    exact tasks.peaceful_or_strays.imp (fun tasks => .told tasks told executed afterwards trace)
      (hids executed)
  | ended tasks told swept executed afterwards trace =>
    exact tasks.peaceful_or_strays.imp
      (fun tasks => .ended tasks told swept executed afterwards trace) (hids executed)

end

/-- A drain injects no fault. -/
theorem upgrades_peaceful_of_clean (hsize : c.size < UInt32.size) :
    Upgrades c (Reaches c Abort.Clean) .lowest (.peaceful .lowest) where
  allows hw hget h := ⟨h, (hw.pinned_of_clean hsize).isFault_of_first hget
    ((Pending.first?_eq_head? _).symm.trans h)⟩
  keeps hw _ done := hw.task _ done nofun

theorem upgrades_peaceful (hsize : c.size < UInt32.size) :
    Upgrades c (Reaches c Abort.Returned) .lowest (.peaceful .lowest) where
  allows hw hget h :=
    (upgrades_peaceful_of_clean hsize).allows (hw.mono fun _ he => he.clean) hget h
  keeps hw _ done := hw.task _ done nofun

/-- What is chosen without a fault is chosen so in states that are reached. -/
theorem upgrades_self (rule : Rule) : Upgrades c (Reaches c Abort.Returned) rule rule where
  allows _ _ h := h
  keeps hw _ done := hw.task _ done nofun

namespace Explorer

variable [Share F] {verifier : Verifier}

/-- **The first iteration of a search** injects no fault and its trace tells of none, neither of a
message lost, unless it comes to a choice among faults only: up to there it has injected none. With
synchronous messages it does not come to such a choice. -/
theorem first_iteration_peaceful {x : Explorer F σ μ} (hx : Explorer.new c verifier = .ok x)
    {it : Iteration} (hit : x.run.1.history.head? = some it) :
    (it.Conduct c (.peaceful (.canonical c.config.order)) (.peaceful .lowest)
        ((World.new c).reset c) ∧ ∀ o ∈ it.trace, o.event.isFault = false) ∨
      c.config.order ≠ .synchronous ∧ ∃ us t w, us.map Task.id <+: it.executed ∧
        Strays c (.canonical c.config.order) none ((World.new c).reset c) us t w ∧
        ∀ a ∈ Tree.eligible c.config.order (finishedBy none us) w.pending.views,
          a.2.isFault = true := by
  have hsize : c.size < UInt32.size := Setup.size_lt_of_accept (Reachable.new hx).accept
  rcases (conduct_first hx hit).peaceful_or_strays with hconduct | ⟨us, t, w, hprefix, hstrays⟩
  · have hpeaceful := hconduct.strengthen (upgrades_self _) (upgrades_peaceful hsize)
      (fun hw hrun => hw.farewell _ hrun nofun) (.start _)
    exact .inl ⟨hpeaceful, hpeaceful.unharmed (.reset hsize _)⟩
  · -- The state of the first choice of a fault is reached, so its tasks have different numbers.
    have hreached : Reaches c Abort.Returned w := by
      have hadvances := hstrays.before.advances_eq
      have hok : (Step.advances c (us.map Task.id) ((World.new c).reset c)).1 = .ok () := by
        rw [hadvances]
      simpa only [hadvances] using (Reaches.start (World.new c)).advances hok
    have hw : w.Numbered := (hreached.pinned hsize).numbered
    exact .inr ⟨hstrays.allowed.order_ne hw hstrays.pending hstrays.fault, us, t, w, hprefix, hstrays,
      hstrays.allowed.isFault_of_isFault hw hstrays.pending hstrays.fault⟩

end Explorer

/-- Node 2 writes to the two other nodes, which write to each other then. One node may crash. -/
def Script.crossing : Cluster Script.Actor String where
  config := { Config.default with maxFailed := 1, maxIterations := 1 }
  registry := ⟨[⟨peerRole, 3, fun _ _ => ⟨
    { start := []
      recovery := none
      finish := []
      operations := [("go", [.send (.node ⟨0⟩) "a", .send (.node ⟨1⟩) "b"])]
      messages := [("a", [.send (.node ⟨1⟩) "c"]), ("b", [.send (.node ⟨0⟩) "d"])]
      invalid := none }, 0, []⟩⟩]⟩
  scenario := ⟨[[], [], [.named "go" []]]⟩
  protocol := Script.protocol

/-- The same with synchronous messages. -/
def Script.crossingInStep : Cluster Script.Actor String :=
  { Script.crossing with config := { Script.crossing.config with order := .synchronous } }

namespace Explorer

theorem first_iteration_peaceful_inStep : ∃ it,
    (fresh Script.crossingInStep .acceptAll : Explorer Float _ _).run.1.history.head? = some it ∧
      it.Conduct Script.crossingInStep (.peaceful (.canonical .synchronous)) (.peaceful .lowest)
        ((World.new Script.crossingInStep).reset Script.crossingInStep) ∧
      ∀ o ∈ it.trace, o.event.isFault = false := by
  have hx : Explorer.new Script.crossingInStep .acceptAll =
      .ok (fresh Script.crossingInStep .acceptAll : Explorer Float _ _) := new_eq_fresh rfl
  obtain ⟨it, hit⟩ : ∃ it, (fresh Script.crossingInStep .acceptAll :
      Explorer Float _ _).run.1.history.head? = some it := by
    refine Option.isSome_iff_exists.mp ?_
    decide +kernel
  rcases first_iteration_peaceful hx hit with hpeaceful | ⟨hne, -⟩
  · exact ⟨it, hit, hpeaceful⟩
  · exact absurd rfl hne

/-- Without, node 1 crashes in the first iteration. It has received all that was written to it, and
its own message to node 0 is still on the way: the delivery to a node before it is not eligible, but
a crash of node 1 at that message is. -/
theorem first_iteration_crashes : ∃ it,
    (fresh Script.crossing .acceptAll : Explorer Float _ _).run.1.history.head? = some it ∧
      ⟨⟨1⟩, .crashed⟩ ∈ it.trace ∧ ⟨⟨1⟩, .lost ⟨3⟩ ⟨0⟩⟩ ∈ it.trace := by
  have hfirst : ((fresh Script.crossing .acceptAll :
      Explorer Float _ _).run.1.history.head?.map fun it =>
        decide (⟨⟨1⟩, .crashed⟩ ∈ it.trace ∧ ⟨⟨1⟩, .lost ⟨3⟩ ⟨0⟩⟩ ∈ it.trace)) = some true := by
    decide +kernel
  obtain ⟨it, hit, hevents⟩ := Option.map_eq_some_iff.mp hfirst
  exact ⟨it, hit, of_decide_eq_true hevents⟩

end Explorer

end Interleave
