/-
# Tasks as a protocol sees them

Many protocols have nothing to do when a node starts, comes back or is told that the
scenario is over. Then a protocol sees four things happen: an operation starts, a
message comes in, a node goes down with its own work, and a node is put in place
anew. All else passes it by.

An `Episode` is one of these, with what is known of the state at that point: the node
has no operation in flight when one starts, and as many results as operations were
before it; the message at which a node crashes is on its way; a node that comes back
has no instance. What all episodes keep holds in every state reached
(`Reaches.episodes`).
-/
import Interleave.Proofs.Served
import Interleave.Proofs.Overflow
import Interleave.Proofs.Viable

namespace Interleave

variable {σ μ : Type}

/-- Nodes do nothing at their start, when they come back and at the end. -/
def Cluster.Placid (c : Cluster σ μ) : Prop := ∀ v x,
  c.protocol.onStart (c.site v) x = .done (x, .ok ()) ∧
  c.protocol.onRecovery (c.site v) x = .done (x, .ok ()) ∧
  c.protocol.onFinish (c.site v) x = .done (x, .ok ())

/-- What executing a task does, as the protocol sees it. The task is no longer pending. -/
inductive Episode (c : Cluster σ μ) (t : Task μ) (w : World σ μ) : World σ μ → Prop
  | pass {w' : World σ μ} (aside : Aside w w') : Episode c t w w'
  | begin {i next : UInt64} {operation : Operation} {a : Agenda} {rs : List Answer}
      {w₁ w' : World σ μ} (body : t.body = .operation i)
      (listed : (c.operations t.owner)[i.toNat]? = some operation) (woken : Aside w w₁)
      (agenda : w₁.agendas[t.owner.index]? = some a) (idle : a.current = none)
      (results : w₁.results[t.owner.index]? = some rs) (count : rs.length = i.toNat)
      (ran : Step.answer c t.owner operation (w₁.begun t.owner a i next operation.text) =
        (.ok (), w')) : Episode c t w w'
  | receive {sender : NodeId} {message : μ} {m : MessageId} {w₁ w' : World σ μ}
      (body : t.body = .receive sender message m) (arrived : Aside w w₁)
      (ran : Step.runHook c t.owner
        (fun site state => c.protocol.onMessage site message sender state) w₁ = (.ok (), w')) :
      Episode c t w w'
  | crash {m : MessageId} {d : Task μ} {message : μ} {fault : FaultState} {w₁ w₂ w' : World σ μ}
      (body : t.body = .crash m) (pending : d ∈ w.pending.tasks)
      (carries : d.body = .receive t.owner message m)
      (lost : Aside (w.struck t.owner fault (Step.diesWith t.owner m)) w₁)
      (stops : w₂ = w₁.vacated t.owner ∨ ∃ i, Ends t.owner .crashed i (w₁.vacated t.owner) w₂)
      (after : Aside w₂ w') : Episode c t w w'
  | recover {fault : FaultState} {a : Agenda} {w' : World σ μ} (body : t.body = .recover)
      (vacant : w.instances[t.owner.index]?.join = none)
      (agenda : w.agendas[t.owner.index]? = some a)
      (after : Aside (w.revived c t.owner fault a) w') : Episode c t w w'

section

variable {c : Cluster σ μ} {t : Task μ} {w w' : World σ μ}

/-- The operation that is being executed has as many results before it as there are. -/
theorem Booked.length_results {i : UInt64} (hb : Booked c (.of t) w) (hbody : t.body = .operation i) :
    ∃ rs, w.results[t.owner.index]? = some rs ∧ rs.length = i.toNat := by
  have hlt : t.owner.index < c.size := hb.owners t (by simp [Hand.of])
  have ha := List.getElem?_eq_getElem (hb.sized.agendas.symm ▸ hlt)
  have hrs := List.getElem?_eq_getElem (hb.sized.results.symm ▸ hlt)
  obtain ⟨hnext, -⟩ := hb.waiting hbody ha
  have hbooks := (hb.kept t.owner).books _ (World.standing?_eq_some ha hrs)
  exact ⟨_, hrs, hbooks.length.trans (by rw [hnext])⟩

/-- The task of an operation finds none in flight at its node. -/
theorem Booked.idle_of_aside {i : UInt64} {a : Agenda} (hb : Booked c (.of t) w)
    (hbody : t.body = .operation i) (haside : Aside w w')
    (ha : w'.agendas[t.owner.index]? = some a) : a.current = none := by
  have hcurrent : w.currents[t.owner.index]? = some a.current := by
    rw [← haside.currents, World.currents, List.getElem?_map, ha, Option.map_some]
  rw [World.currents, List.getElem?_map] at hcurrent
  obtain ⟨b, hb', hsame⟩ := Option.map_eq_some_iff.mp hcurrent
  rw [← hsame, (hb.waiting hbody hb').2]

/-- All that a task can do is one of the episodes. -/
theorem Success.episode (hc : c.Placid) (hbooked : Booked c (.of t) w)
    (hpinned : ∀ m, t.body = .crash m →
      ∃ d ∈ w.pending.tasks, ∃ message, d.body = .receive t.owner message m)
    (hvacant : ∀ u, w.fault.isCrashed u = true → w.instances[u.index]?.join = none)
    (hsuccess : Success c t w w') : Episode c t w w' := by
  have hwakes : ∀ {w₁ w₂}, Step.wake c t.owner w₁ = (.ok (), w₂) → Aside w₁ w₂ :=
    Step.wake_idle fun x => (hc t.owner x).1
  cases hsuccess with
  | skip void => exact .pass (.refl w)
  | rouse body up woken => exact .pass (hwakes woken)
  | @begin i next operation a w₁ _ body up listed woken agenda number ran =>
    have hwoken := hwakes woken
    obtain ⟨rs, hrs, hcount⟩ := hbooked.length_results body
    unfold Served at ran
    rw [body] at ran
    obtain ⟨operation', hlisted, hran⟩ := ran
    cases listed.symm.trans hlisted
    exact .begin body listed hwoken agenda (hbooked.idle_of_aside body hwoken agenda)
      (by rw [hwoken.results, hrs]) hcount hran
  | @lose sender message m body doomed =>
    exact .pass ((Aside.withdrawn w m).trans (.recorded _ _ _))
  | @balk sender message m _ body up reached woken =>
    exact .pass ((Aside.withdrawn w m).trans (hwakes woken))
  | @receive sender message m k k' w₁ _ body up reached woken clock ticks ran =>
    unfold Served at ran
    rw [body] at ran
    exact .receive body (((Aside.withdrawn w m).trans (hwakes woken)).trans (.arrived _ _ _ _ _ _ _))
      ran
  | @crash m fault w₁ _ body allowed stops due =>
    obtain ⟨d, hd, message, hcarries⟩ := hpinned m body
    have hlost : Aside (w.struck t.owner fault (Step.diesWith t.owner m))
        (w.stricken t.owner m fault) := .foldl_forfeited _ _
    refine .crash body hd hcarries hlost (stops.imp_left fun h => h.2) ?_
    split at due
    · exact (Aside.pruned w₁).trans (.scheduled (by simp) due)
    · exact due ▸ .pruned w₁
  | @recover fault a w₁ _ body allowed agenda hook resumes =>
    have hdown := FaultState.isCrashed_iff.mpr (FaultState.crashed_of_recover? allowed).1
    unfold Served at hook
    rw [body] at hook
    have hsame := Step.runHook_idle (fun x => (hc t.owner x).2.1) hook
    have hafter : Aside (w.revived c t.owner fault a) w' := by
      rcases resumes with rfl | hqueued
      · exact hsame ▸ .refl _
      · exact hsame ▸ .queued hqueued
    exact .recover body (hvacant _ hdown) agenda hafter
  | @split m fault source _ body drawn due =>
    have hsplit := ((Aside.drawn w source fault).trans
      (.recorded _ t.owner (.partitioned fault.describe))).trans (.pruned _)
    split at due
    · exact .pass (hsplit.trans (.scheduled (by simp) due))
    · exact .pass (due ▸ hsplit)
  | @splitRefused m source body drawn => exact .pass (.drawn w source w.fault)
  | @heal fault source body drawn =>
    exact .pass ((Aside.drawn w source fault).trans (.recorded _ _ _))
  | @healRefused source body drawn => exact .pass (.drawn w source w.fault)

/-- Every task that succeeds in a reached state is an episode. -/
theorem Reaches.episode (hc : c.Placid) (hsize : c.size < UInt32.size)
    (hw : Reaches c (fun _ => False) w) {id : TaskId} {pending : Pending μ}
    (htake : w.pending.take id = some (t, pending))
    (hsuccess : Success c t { w with pending := pending } w') :
    Episode c t { w with pending := pending } w' := by
  have hclean : Reaches c Abort.Clean w := hw.mono fun _ => False.elim
  obtain ⟨hpinned, hviable⟩ := hclean.viable hsize
  obtain ⟨hnumbered, hbooked⟩ := hclean.booked_of_clean hsize
  obtain ⟨hperm, -⟩ := hnumbered.of_take htake
  refine Success.episode hc (hbooked.take hnumbered htake) (fun m hbody => ?_) hviable.vacant hsuccess
  have hmem : t ∈ w.pending.tasks := hperm.symm.subset List.mem_cons_self
  have hfault : t.faultAt? = some m := by simp [Task.faultAt?, hbody]
  obtain ⟨d, hd, -, message, hreceive⟩ := (hpinned.pins t hmem m hfault).carried
  rcases List.mem_cons.mp (hperm.subset hd) with rfl | hd
  · rw [hbody] at hreceive
    cases hreceive
  · exact ⟨d, hd, message, hreceive⟩

/-- What holds at the start and is kept by every episode and by what passes the protocol by holds in
all states reached. -/
theorem Reaches.episodes (hc : c.Placid) (hsize : c.size < UInt32.size)
    {P : List (Task μ) → World σ μ → Prop}
    (hstart : ∀ w : World σ μ, P (deliveries (w.reset c).pending.tasks) (w.reset c))
    (htake : ∀ {w : World σ μ} {t pending}, w.pending.tasks.Perm (t :: pending.tasks) →
      P (deliveries w.pending.tasks) w →
        P (deliveries (t :: pending.tasks)) { w with pending := pending })
    (hepisode : ∀ {t w w'}, Episode c t w w' → P (deliveries (t :: w.pending.tasks)) w →
      P (deliveries w'.pending.tasks) w')
    (haside : ∀ {w w'}, Aside w w' → P (deliveries w.pending.tasks) w →
      P (deliveries w'.pending.tasks) w')
    (hw : Reaches c (fun _ => False) w) : P (deliveries w.pending.tasks) w := by
  refine hw.successes (P := fun w => P (deliveries w.pending.tasks) w) hstart
    (fun {w w' id t pending} hreaches htaken hsuccess h => ?_)
    fun {v w w'} hfarewell h => haside (Step.farewell_idle (fun x => (hc v x).2.2) hfarewell) h
  have hnumbered := ((hreaches.mono fun _ => False.elim).booked_of_clean hsize).1
  exact hepisode (hreaches.episode hc hsize htaken hsuccess)
    (htake (hnumbered.of_take htaken).1 h)

end

end Interleave
