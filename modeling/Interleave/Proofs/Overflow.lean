/-
# No task fails before a counter overflows

In a cluster that honours a contract the estimate never rises: a task that is
executed adds no more to the counters than its bound, which was in the estimate
(`HasRoom.settles_execute`). So if the estimate of the start is below the last word,
there is a number for everything in every state reached (`Reaches.hasRoom`), and no
task fails, in whatever order they are executed and whichever faults are injected.
If it is not, a task can only fail because a counter overflows
(`Reaches.advance_ok_or_overflow`).
-/
import Interleave.Proofs.Headroom

namespace Interleave

variable {σ μ : Type}

/-! ### The parts of tasks -/

namespace Step

open Attempt

section

variable {c : Cluster σ μ} {v : NodeId} {cap : Nat} {w : World σ μ}

theorem yields_commence {i : UInt64} {operation : Operation} {a : Agenda}
    (ha : w.agendas[v.index]? = some a) (hroom : i.toNat + 1 ≤ cap) :
    Yields cap (fun _ w' => ∃ next, wordSucc? i = some next ∧ w' = w.begun v a i next operation.text)
      (commence v i operation) w := by
  refine .read (.after (entry_ok_iff.mpr ⟨ha, rfl⟩)
    ((yields_orOverflow wordSucc?_of_lt hroom).bind ?_))
  rintro next w₁ - ⟨hnext, rfl⟩
  exact .of_ok rfl ⟨next, hnext, rfl⟩

theorem yields_arrive {clock k : Clock} {sender : NodeId} {message : μ} {m : MessageId}
    (hk : w.clocks.clocks[v.index]? = some k) (hroom : ((k.join clock).get v).toNat + 1 ≤ cap) :
    Yields cap (fun _ w' => ∃ k', (k.join clock).tick? v = some k' ∧
        w' = w.arrived c v sender message m (k.join clock) k')
      (arrive c v clock sender message m) w := by
  have hlt : v.index < w.clocks.clocks.length := (List.getElem?_eq_some_iff.mp hk).1
  have hlearn : learn v clock w =
      (.ok (), { w with clocks := ⟨w.clocks.clocks.set v.index (k.join clock)⟩ }) := by
    rw [learn, get_bind, bind_of_ok (ofPanic_ok_iff.mpr ⟨ClockBank.merge_ok_iff.mpr ⟨k, hk, rfl⟩, rfl⟩)]
    rfl
  refine .after hlearn ((lasts_tick (k := k.join clock) (by simp [hlt]) hroom _).bind ?_)
  intro k' w₁ htick _
  obtain ⟨k₁, hk₁, hk', rfl⟩ := tick_ok_iff.mp htick
  obtain rfl : k.join clock = k₁ := by simpa [hlt] using hk₁
  exact .of_ok rfl ⟨k', hk', rfl⟩

theorem revive_eq_ok {fault : FaultState} {a : Agenda} (ha : w.agendas[v.index]? = some a) :
    revive c v fault w = (.ok (), w.revived c v fault a) := by
  rw [revive, modify_bind, renew, modify_bind, get_bind, bind_of_ok (entry_ok_iff.mpr ⟨ha, rfl⟩)]
  rfl

theorem lasts_stop (hw : w.Intact v) : Lasts cap (stop v) w := by
  have hvacated : (w.vacated v).Intact v := ⟨hw.clock, hw.agenda, hw.result⟩
  exact .after rfl ((lasts_endCurrent hvacated .crashed).bind fun _ _ => .of_ok rfl trivial)

/-- The step succeeds, with everything in order and nothing left to do. -/
abbrev Settles (K : Contract σ μ) (c : Cluster σ μ) (s : Step σ μ Unit) (w : World σ μ) : Prop :=
  Yields K.cap (fun _ w' => HasRoom K c .free 0 w') s w

end

end Step

/-! ### Tasks that succeed -/

/-- The operation that is being executed is the next one of its node, and none is in flight. -/
theorem Booked.waiting {c : Cluster σ μ} {t : Task μ} {i : UInt64} {a : Agenda} {w : World σ μ}
    (hb : Booked c (.of t) w) (hbody : t.body = .operation i)
    (ha : w.agendas[t.owner.index]? = some a) : a.next = i ∧ a.current = none := by
  have hlt : t.owner.index < w.results.length := by
    rw [hb.sized.results, ← hb.sized.agendas]
    exact (List.getElem?_eq_some_iff.mp ha).1
  have hstanding := World.standing?_eq_some ha (List.getElem?_eq_getElem hlt)
  have hmem : i ∈ (Hand.of t).queue w t.owner := by
    simp [Hand.queue, Hand.of, runs, Task.operationOf?, hbody]
  obtain ⟨hnext, -, hcurrent⟩ := ((hb.kept t.owner).books _ hstanding).eq_of_mem hmem
  exact ⟨hnext.symm, hcurrent⟩

namespace HasRoom

open Attempt Step

variable {K : Contract σ μ} {c : Cluster σ μ} {h h' : Hand μ} {n m : Nat} {v : NodeId} {t : Task μ}
  {w w' : World σ μ}

theorem change (hw : HasRoom K c h n w) (change : Change c h w h' w')
    (hpeopled : K.Peopled w'.instances) (hle : w'.estimate K c + m ≤ w.estimate K c + n) :
    HasRoom K c h' m w' :=
  ⟨hw.sound.change change, hpeopled, Nat.le_trans hle hw.room⟩

theorem toil_le (hw : HasRoom K c h n w) : w.toil + n ≤ K.cap := by
  have hestimate := hw.room
  unfold World.estimate at hestimate
  omega

theorem owner_lt (hw : HasRoom K c (.of t) n w) : t.owner.index < c.size :=
  hw.sound.booked.owners t (by simp [Hand.of])

theorem exists_agenda (hw : HasRoom K c h n w) (hv : v.index < c.size) :
    ∃ a, w.agendas[v.index]? = some a :=
  ⟨_, List.getElem?_eq_getElem (hw.sound.booked.sized.agendas.symm ▸ hv)⟩

theorem skip (hw : HasRoom K c (.of t) n w) (hvoid : t.Void c w) : HasRoom K c .free 0 w :=
  hw.change (.skip hvoid) hw.peopled (Nat.le_add_right _ n)

theorem pruned (hw : HasRoom K c h n w) : HasRoom K c h n w.pruned :=
  hw.change (.prune h w) hw.peopled
    (Nat.add_le_add_right (World.estimate_le_of_sublist w.pruned_sublist rfl rfl) _)

theorem settles_heal (hbody : t.body = .heal) (hw : HasRoom K c (.of t) 0 w) :
    Settles K c (heal t.owner) w := by
  refine .read ?_
  rcases hdrawn : w.fault.heal? w.source with ⟨_ | fault, source⟩
  · exact .of_ok rfl (hw.change (.healRefused hbody hdrawn) hw.peopled (Nat.le_refl _))
  · exact .of_ok rfl (hw.change (.heal hbody hdrawn) hw.peopled (Nat.le_refl _))

/-- There is room for what undoes a fault. -/
theorem settles_undo {body : Work μ} (hv : v.index < c.size) (hmends : body = .recover ∨ body = .heal)
    (hw : HasRoom K c ⟨[], .undo v body⟩ (K.bound body + 2) w) :
    Settles K c (if c.config.recovers then do
        let clock ← tick v .work
        let _ ← enqueue v clock body
       else pure ()) w := by
  cases hrecovers : c.config.recovers with
  | false =>
    exact .of_ok rfl
      (hw.change (.undo hmends (by rw [hrecovers]; rfl)) hw.peopled (Nat.le_add_right _ _))
  | true =>
    have hlt : v.index < w.clocks.clocks.length := hw.sound.booked.sized.clocks.symm ▸ hv
    have htoil := hw.toil_le
    refine (yields_schedule hw.sound.numbered hw.sound.stamped hlt (by omega) body).imp ?_
    intro u w' _ hscheduled
    have hinstances : w'.instances = w.instances := by
      obtain ⟨k, k', next, -, -, -, rfl⟩ := hscheduled
      rfl
    refine hw.change (.undo hmends ?_) (hinstances ▸ hw.peopled) ?_
    · rw [hrecovers]
      exact hscheduled
    · rw [hscheduled.estimate_eq]
      omega

theorem settles_crash {m : MessageId} (hbody : t.body = .crash m) (hw : HasRoom K c (.of t) 4 w) :
    Settles K c (crash c t.owner m) w := by
  cases hcrash : w.fault.crash? t.owner with
  | none =>
    have hskip : crash c t.owner m w = (.ok (), w) := by
      rw [crash_eq, get_bind, hcrash]
      rfl
    exact .of_ok hskip (hw.skip (by simp [Task.Void, hbody, hcrash]))
  | some fault =>
    obtain ⟨pending, candidates, hsub, hstricken⟩ := w.stricken_eq t.owner m fault
    have hle : (w.stricken t.owner m fault).estimate K c ≤ w.estimate K c := by
      rw [hstricken]
      exact World.estimate_le_of_sublist (hsub.trans List.filter_sublist) rfl rfl
    have hlost : HasRoom K c ⟨[], .fall t.owner⟩ 4 (w.stricken t.owner m fault) := by
      refine ⟨?_, ?_, ?_⟩
      · exact (hw.sound.change (.crash hbody hcrash)).changes
          ((unfolds_lose _ _).done (forM_lose _ _))
      · rw [hstricken]
        exact hw.peopled
      · have hestimate := hw.room
        omega
    have hintact := hlost.sound.booked.intact hw.owner_lt
    refine .of_eq (crash_eq_stop hcrash) ((lasts_stop hintact).bind fun {u w₁} hstop _ => ?_)
    have hstopped : HasRoom K c ⟨[], .undo t.owner .recover⟩ 4 w₁ := by
      have hvacated : K.Peopled ((w.stricken t.owner m fault).vacated t.owner).instances :=
        hlost.peopled.set fun _ hx => by cases hx
      refine hlost.change (.fall (stop_ok hstop)) ?_ ?_
      · rcases stop_ok hstop with ⟨-, rfl⟩ | ⟨i, a, rs, -, -, -, -, rfl⟩
        · exact hvacated
        · exact hvacated
      · rcases stop_ok hstop with ⟨-, rfl⟩ | ⟨i, hends⟩
        · exact Nat.le_refl _
        · have hfreed := hends.estimate_eq (K := K) (c := c)
          have hsame : ((w.stricken t.owner m fault).vacated t.owner).estimate K c =
              (w.stricken t.owner m fault).estimate K c := rfl
          omega
    exact .after rfl (settles_undo hw.owner_lt (.inl rfl) hstopped.pruned)

theorem settles_partition {m : MessageId} (hbody : t.body = .partition m)
    (hw : HasRoom K c (.of t) 2 w) : Settles K c (partition c t.owner) w := by
  refine .read ?_
  rcases hdrawn : w.fault.partition? w.source with ⟨_ | fault, source⟩
  · exact .of_ok rfl (hw.change (.splitRefused hbody hdrawn) hw.peopled (Nat.le_add_right _ _))
  · have hsplit := hw.change (m := 2) (.split hbody hdrawn) hw.peopled (Nat.le_refl _)
    exact .of_eq rfl (settles_undo hw.owner_lt (.inr rfl) hsplit.pruned)

/-- A message brings nothing new about its receiver, so the receiver's clock has counted no more
events than there are. -/
theorem yields_arrival {sender : NodeId} {message : μ} {m : MessageId}
    (hbody : t.body = .receive sender message m) (hup : w.fault.isCrashed t.owner = false)
    (hreach : w.fault.reaches sender t.owner = true)
    (hw : HasRoom K c (.of t) (K.message message + 1) w) :
    Yields K.cap (fun _ w' => HasRoom K c .free (K.message message + 0) w')
      (arrive c t.owner t.clock sender message m) w := by
  have hlt : t.owner.index < w.clocks.clocks.length := hw.sound.booked.sized.clocks.symm ▸ hw.owner_lt
  have hk : w.clocks.clocks[t.owner.index]? = some (w.clocks.clocks[t.owner.index]) :=
    List.getElem?_eq_getElem hlt
  have hledger := hw.sound.stamped.ledger
  have hdated : t.Dated w.ticks := hw.sound.stamped.dated t (by simp [Hand.of])
  have hheard : ((w.clocks.clocks[t.owner.index]).join t.clock).get t.owner =
      (w.clocks.clocks[t.owner.index]).get t.owner := by
    have hsent := hdated.sent_mem hbody
    have hears : Tick.Hears w.ticks ⟨t.owner, .received m, t.clock⟩
        ((w.clocks.clocks[t.owner.index]).join t.clock) :=
      hledger.faithful.hears_receipt hk hsent rfl fun b hb hm => hledger.unique b hb _ hsent m hm rfl
    exact hledger.faithful.get_heard hk hears
  have hroom : (((w.clocks.clocks[t.owner.index]).join t.clock).get t.owner).toNat + 1 ≤ K.cap := by
    have hcount := hledger.faithful.get_le hk
    have htoil := hw.toil_le
    unfold World.toil at htoil
    rw [hheard]
    omega
  refine (yields_arrive hk hroom).imp ?_
  rintro u w' - ⟨k', hk', rfl⟩
  refine hw.change (.receive hbody hup hreach hk hk') hw.peopled ?_
  rw [World.estimate_arrived]
  omega

/-- There is room for all that an iteration does. -/
theorem reset (hc : c.Honours K) (hsize : c.size < UInt32.size) (w : World σ μ) :
    HasRoom K c .free 0 (w.reset c) := by
  refine ⟨.reset hsize w, fun v x hx => ?_, Nat.le_trans (World.estimate_reset hsize w) hc.start⟩
  have hinstances : (w.reset c).instances = (List.range c.size).map fun i =>
      c.registry.spawn? (NodeId.ofIndex i) (w.made.getD i 0) := rfl
  rw [hinstances, List.getElem?_map] at hx
  obtain ⟨i, hi, hspawn⟩ := Option.map_eq_some_iff.mp hx
  obtain rfl : v.index = i := by simpa using (List.getElem?_eq_some_iff.mp hi).2
  rw [NodeId.ofIndex_index] at hspawn
  exact hc.spawn hspawn

variable {extra : Nat} (hc : c.Keeps K extra)

include hc

theorem settles_invoke {i : UInt64} (hlength : ∀ v, (c.operations v).length ≤ K.cap)
    (hbody : t.body = .operation i) (hw : HasRoom K c (.of t) extra w) :
    Settles K c (invoke c t.owner i) w := by
  rw [invoke_eq]
  refine .read ?_
  cases hup : w.fault.isCrashed t.owner with
  | true => exact .of_ok rfl (hw.skip (by simp [Task.Void, hbody, hup]))
  | false =>
    refine (fits_wake hw.owner_lt (quiet_of t) hc (m := extra) (by rwa [Nat.zero_add])).bind ?_
    rintro u w₁ hwake ⟨hw₁, -⟩
    have hup₁ : w₁.fault.isCrashed t.owner = false := by
      rw [Requests.fault_eq (handles_wake.done hwake), hup]
    cases hlisted : (c.operations t.owner)[i.toNat]? with
    | none => exact .of_ok rfl (hw₁.skip (by simp [Task.Void, hbody, hlisted]))
    | some operation =>
      have hi : i.toNat < (c.operations t.owner).length := (List.getElem?_eq_some_iff.mp hlisted).1
      have hle := hlength t.owner
      obtain ⟨a, ha⟩ := hw₁.exists_agenda hw.owner_lt
      obtain ⟨hai, hcurrent⟩ := hw₁.sound.booked.waiting hbody ha
      refine (yields_commence ha (by omega)).bind ?_
      rintro u w₂ - ⟨next, hnext, rfl⟩
      have hbegun : HasRoom K c .free (K.operation + extra + 0)
          (w₁.begun t.owner a i next operation.text) := by
        refine hw₁.change (.begin hbody hup₁ hlisted ha hnext) hw₁.peopled ?_
        have hfreed := World.estimate_begun (K := K) operation.text ha hai hcurrent hi hnext
        omega
      exact (fits_answer hw.owner_lt quiet_free hc (List.mem_of_getElem? hlisted) hbegun).imp
        fun _ hran => hran.1

theorem settles_deliver {sender : NodeId} {message : μ} {m : MessageId}
    (hbody : t.body = .receive sender message m)
    (hw : HasRoom K c (.of t) (K.message message + 1) w) :
    Settles K c (deliver c t.owner t.clock sender message m) w := by
  have hw₀ : HasRoom K c (.of t) (K.message message + 1) (w.withdrawn m) :=
    hw.change (.withdraw w hbody) hw.peopled
      (Nat.add_le_add_right (World.estimate_le_of_sublist (w.withdrawn_sublist m) rfl rfl) _)
  rw [deliver_eq]
  have hwithdraw : withdraw m w = (.ok (), w.withdrawn m) := rfl
  refine .after hwithdraw (.read ?_)
  by_cases hdoomed : ((w.withdrawn m).fault.isCrashed t.owner ||
      !(w.withdrawn m).fault.reaches sender t.owner) = true
  · rw [if_pos hdoomed]
    have hcause : (w.withdrawn m).fault.isCrashed t.owner = true ∨
        (w.withdrawn m).fault.reaches sender t.owner = false := by simpa using hdoomed
    exact .of_ok rfl (hw₀.change (.lose hbody fun _ => hcause) hw₀.peopled (Nat.le_add_right _ _))
  · rw [if_neg hdoomed]
    obtain ⟨hup, hreach⟩ : (w.withdrawn m).fault.isCrashed t.owner = false ∧
        (w.withdrawn m).fault.reaches sender t.owner = true := by simpa using hdoomed
    refine (fits_wake hw.owner_lt (quiet_of t) hc (m := K.message message + 1)
      (by rwa [Nat.zero_add])).bind ?_
    rintro u w₁ hwake ⟨hw₁, -⟩
    have hfault : w₁.fault = (w.withdrawn m).fault := Requests.fault_eq (handles_wake.done hwake)
    refine (yields_arrival hbody (hfault ▸ hup) (hfault ▸ hreach) hw₁).bind fun _ hw₂ => ?_
    exact (fits_runHook hw.owner_lt quiet_free
      (f := fun site state => c.protocol.onMessage site message sender state) hc.onMessage hw₂).imp
        fun _ hran => hran.1

theorem settles_recover (hbody : t.body = .recover) (hw : HasRoom K c (.of t) 2 w) :
    Settles K c (recover c t.owner) w := by
  rw [recover_eq]
  refine .read ?_
  cases hrecover : w.fault.recover? t.owner with
  | none => exact .of_ok rfl (hw.skip (by simp [Task.Void, hbody, hrecover]))
  | some fault =>
    obtain ⟨a, ha⟩ := hw.exists_agenda hw.owner_lt
    have hrevived : HasRoom K c ⟨[], .resume t.owner⟩ (0 + 2) (w.revived c t.owner fault a) := by
      have hsame : (w.revived c t.owner fault a).estimate K c = w.estimate K c :=
        World.estimate_started ha rfl rfl rfl
      exact hw.change (.recover hbody hrecover ha) (hw.peopled.set fun y hy => hc.spawn hy)
        (Nat.le_of_eq (by rw [hsame]))
    refine .after (revive_eq_ok ha)
      ((fits_runHook hw.owner_lt (by simp) hc.onRecovery hrevived).bind ?_)
    rintro u w₁ - ⟨hw₁, -⟩
    obtain ⟨b, hb⟩ := hw₁.exists_agenda hw.owner_lt
    have hsized := hw₁.sound.booked.sized
    refine .read (.after (entry_ok_iff.mpr ⟨hb, rfl⟩) ?_)
    cases hcurrent : b.current.isNone with
    | false =>
      exact .of_ok rfl
        (hw₁.change (.resume hb (by rw [hcurrent]; rfl)) hw₁.peopled (Nat.le_add_right _ _))
    | true =>
      refine (yields_queueNext (c := c) hw₁.sound.numbered hw₁.sound.stamped
        (hsized.clocks.symm ▸ hw.owner_lt) (hsized.agendas.symm ▸ hw.owner_lt) hw₁.toil_le).imp ?_
      intro u w₂ hqueue hqueued
      have hinstances : w₂.instances = w₁.instances := by
        have hsame := (contained_queueNext (c := c) (v := t.owner)).instances w₁
        rwa [hqueue] at hsame
      refine hw₁.change (.resume hb ?_) (hinstances ▸ hw₁.peopled) hqueued.estimate_le
      rw [hcurrent]
      exact hqueued

/-- A task that there is room for succeeds. -/
theorem settles_execute (hlength : ∀ v, (c.operations v).length ≤ K.cap)
    (hw : HasRoom K c (.of t) (K.bound t.body + extra) w) : Settles K c (execute c t) w := by
  have hbound := hw.mono (Nat.le_add_right _ extra)
  unfold execute
  cases hbody : t.body with
  | operation i => exact settles_invoke hc hlength hbody (hw.mono (Nat.le_add_left _ _))
  | receive sender message m => exact settles_deliver hc hbody (by rwa [hbody] at hbound)
  | crash m => exact settles_crash hbody (by rwa [hbody] at hbound)
  | recover => exact settles_recover hc hbody (by rwa [hbody] at hbound)
  | partition m => exact settles_partition hbody (by rwa [hbody] at hbound)
  | heal => exact settles_heal hbody (by rwa [hbody] at hbound)

theorem settles_farewell (hw : HasRoom K c .free 0 w) (v : NodeId) : Settles K c (farewell c v) w := by
  by_cases hv : v.index < c.size
  · refine (fits_onInstance hv quiet_free (n := 0) (m := 0) hc.onFinish hw).bind ?_
    rintro answer w₁ - ⟨hw₁, hanswer⟩
    rcases answer with _ | (e | u)
    · exact .of_ok rfl hw₁
    · obtain ⟨a, ha⟩ := hanswer _ rfl
      cases ha
    · exact .of_ok rfl (hw₁.change (.close v w₁) hw₁.peopled (Nat.le_refl _))
  · -- A node outside the cluster has no instance to tell.
    have hnone : w.instances[v.index]? = none :=
      List.getElem?_eq_none (by rw [hw.sound.booked.sized.instances]; omega)
    have hquiet : onInstance c v c.protocol.onFinish w = (.ok none, w) := by
      rw [onInstance, get_bind, hnone]
      rfl
    exact .after hquiet (.of_ok rfl hw)

/-- A pending task is taken and succeeds. -/
theorem yields_advance (hlength : ∀ v, (c.operations v).length ≤ K.cap)
    (hw : HasRoom K c .free extra w) {id : TaskId} {t : Task μ} {pending : Pending μ}
    (htake : w.pending.take id = some (t, pending)) :
    Yields K.cap (fun u w' => u = t ∧ HasRoom K c .free 0 w') (advance c id) w := by
  have htaken : HasRoom K c (.of t) (K.bound t.body + extra) { w with pending := pending } := by
    refine ⟨hw.sound.take htake, hw.peopled, ?_⟩
    have hload := Contract.load_perm (K := K) (hw.sound.numbered.of_take htake).1
    rw [Contract.load_cons] at hload
    have hestimate := hw.room
    show w.toil + K.load pending.tasks + w.agendaBounds K c + (K.bound t.body + extra) ≤ K.cap
    unfold World.estimate at hestimate
    omega
  refine .read ?_
  rw [htake]
  exact .after rfl ((htaken.settles_execute hc hlength).bind fun _ hw' => .of_ok rfl ⟨rfl, hw'⟩)

end HasRoom

variable {K : Contract σ μ} {c : Cluster σ μ} {w : World σ μ} {spared : Abort → Prop}

/-- In a cluster that honours its contract there is room in every state that is reached before a
counter overflows. -/
theorem Reaches.hasRoom (hc : c.Honours K) (hsize : c.size < UInt32.size)
    (hspared : ¬ spared (.panic .overflow)) (hw : Reaches c spared w) : HasRoom K c .free 0 w := by
  induction hw with
  | start w => exact .reset hc hsize w
  | @task w w' r id reached run spares ih =>
    cases htake : w.pending.take id with
    | none =>
      -- A task that is not pending changes nothing.
      rw [Step.advance, Attempt.get_bind, htake] at run
      cases run
      exact ih
    | some taken =>
      rcases (ih.yields_advance hc.toKeeps hc.length_le htake).cases with
        ⟨t, w₁, hrun, -, hw₁⟩ | ⟨-, w₁, hrun⟩
      · rw [hrun] at run
        cases run
        exact hw₁
      · rw [hrun] at run
        cases run
        exact absurd (spares _ rfl) hspared
  | farewell v reached run spares ih =>
    rcases (ih.settles_farewell hc.toKeeps v).cases with ⟨u, w₁, hrun, hw₁⟩ | ⟨-, w₁, hrun⟩
    · rw [hrun] at run
      cases run
      exact hw₁
    · rw [hrun] at run
      cases run
      exact absurd (spares _ rfl) hspared

/-- **No task fails** in any state reached by tasks and hooks in any order, unless a counter
overflows, and then the contract allows more than there are words. -/
theorem Reaches.advance_ok_or_overflow (hc : c.Honours K) (hsize : c.size < UInt32.size)
    (hspared : ¬ spared (.panic .overflow)) (hw : Reaches c spared w) {t : Task μ}
    (ht : t ∈ w.pending.tasks) : (∃ w', Step.advance c t.id w = (.ok t, w')) ∨
      (UInt64.size ≤ K.cap ∧ ∃ w', Step.advance c t.id w = (.error (.panic .overflow), w')) := by
  have hspace := hw.hasRoom hc hsize hspared
  have htake := hspace.sound.numbered.take_of_mem ht
  refine (hspace.yields_advance hc.toKeeps hc.length_le htake).cases.imp_left ?_
  rintro ⟨u, w', hrun, rfl, -⟩
  exact ⟨w', hrun⟩

end Interleave
