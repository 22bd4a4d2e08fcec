/-
# Nothing is lost by the reduction

Only eligible tasks are explored. Without faults that is enough: every schedule
that respects the links has a counterpart of eligible tasks, in which every node
does the same work in the same order and ends the same (`exists_eligible_schedule`).

A schedule is read as a run on nets (`Calm.moves`), the run is put in order
(`Net.Run.ordered`), and the ordered run is carried out again
(`Net.Run.schedule`). It ends in the same net, so it needs no more numbers than
there were the first time.
-/
import Interleave.Proofs.Reorder
import Interleave.Proofs.Schedule
import Interleave.Sample.Broadcast

namespace Interleave

variable {σ μ : Type} {c : Cluster σ μ} {w w' : World σ μ}

/-! ### Taking a task -/

theorem Pending.take_eq_some_iff {p p' : Pending μ} {id : TaskId} {t : Task μ} :
    p.take id = some (t, p') ↔ p.get? id = some t ∧ p' = p.erase id := by
  simp only [take, Option.map_eq_some_iff, Prod.mk.injEq]
  constructor
  · rintro ⟨u, hu, rfl, rfl⟩
    exact ⟨hu, rfl⟩
  · rintro ⟨hu, rfl⟩
    exact ⟨t, hu, rfl, rfl⟩

/-- A task and the tasks with other numbers are all tasks. -/
theorem Pending.perm_erase {t : Task μ} : ∀ {l : List (Task μ)}, (l.map Task.id).Nodup → t ∈ l →
    l.Perm (t :: l.filter (·.id ≠ t.id))
  | u :: l, hl, ht => by
    obtain ⟨hu, hl⟩ := List.nodup_cons.mp hl
    rcases List.mem_cons.mp ht with rfl | ht
    · have hall : l.filter (·.id ≠ t.id) = l := List.filter_eq_self.mpr fun x hx =>
        decide_eq_true fun hid => hu (hid ▸ List.mem_map_of_mem hx)
      rw [List.filter_cons_of_neg (by simp), hall]
    · have hne : u.id ≠ t.id := fun hid => hu (hid ▸ List.mem_map_of_mem ht)
      rw [List.filter_cons_of_pos (by simpa using hne)]
      exact ((perm_erase hl ht).cons u).trans (.swap t u _)

namespace Calm

/-- Pending tasks with one number are one task. -/
theorem eq_of_id_eq (hw : Calm c w) {t u : Task μ} (ht : t ∈ w.pending.tasks)
    (hu : u ∈ w.pending.tasks) (h : t.id = u.id) : t = u :=
  List.inj_on_of_nodup_map hw.distinct ht hu h

theorem get?_eq_some_iff (hw : Calm c w) {t : Task μ} :
    w.pending.get? t.id = some t ↔ t ∈ w.pending.tasks := by
  constructor
  · exact List.mem_of_find?_eq_some
  · intro ht
    cases hfind : w.pending.get? t.id with
    | none => exact absurd (by simp) (List.find?_eq_none.mp hfind t ht)
    | some u =>
      have hu := List.mem_of_find?_eq_some hfind
      have hid : u.id = t.id := by simpa using List.find?_some hfind
      rw [hw.eq_of_id_eq hu ht hid]

/-- A calm state without one of its tasks is calm. -/
theorem erase (hw : Calm c w) (id : TaskId) :
    Calm c { w with pending := w.pending.erase id } := by
  have hsub : ∀ t, t ∈ (w.pending.erase id).tasks → t ∈ w.pending.tasks := fun t ht =>
    (List.mem_filter.mp ht).1
  refine ⟨hw.healthy, hw.bare, hw.size, ?_, fun t ht => hw.fresh t (hsub t ht), ?_,
    fun t ht => hw.sent t (hsub t ht), fun t ht u hu => hw.ordered t (hsub t ht) u (hsub u hu)⟩
  · intro a ha
    obtain ⟨t, ht, rfl⟩ := List.mem_map.mp (Multiset.mem_coe.mp ha)
    exact hw.sound _ (Multiset.mem_coe.mpr (List.mem_map_of_mem (hsub t ht)))
  · exact hw.distinct.sublist (List.filter_sublist.map Task.id)

/-- The pool is the draft of a pending task and those of the others. -/
theorem pool_eq (hw : Calm c w) {t : Task μ} (ht : t ∈ w.pending.tasks) :
    w.net.pool = t.draft ::ₘ ((w.pending.erase t.id).tasks.map Task.draft : List (Draft μ)) := by
  exact Multiset.coe_eq_coe.mpr ((Pending.perm_erase hw.distinct ht).map Task.draft)

end Calm

/-! ### Steps of schedules and nets -/

theorem Act.of_effect {a : Draft μ} {φ : Effect σ μ Unit} {d d' : Desk σ} {posted : List (Draft μ)}
    (hφ : ∀ t : Task μ, t.draft = a → Realizes c a.owner (fun _ => True) (Step.execute c t) φ)
    {t : Task μ} (ht : t.draft = a) (hd : φ d = some ((), d', posted))
    (hfollows : ∀ x ∈ posted, x.owner = a.owner ∨ a.clock.happensBefore x.clock = true) :
    Act c a d d' posted :=
  ⟨⟨φ, hφ, hd⟩, ((hφ t ht).forward d () d' posted hd).1, hfollows⟩

/-- A task that is executed moves the net. -/
theorem Calm.moves (hc : FaultFree c) (hp : c.protocol.Discreet) (hw : Calm c w) {t : Task μ}
    (h : Step.advance c t.id w = (.ok t, w')) : Calm c w' ∧ Net.Moves c t.draft w.net w'.net := by
  obtain ⟨pending, htake, hexec⟩ := Step.advance_ok_iff.mp h
  obtain ⟨hget, rfl⟩ := Pending.take_eq_some_iff.mp htake
  have ht := hw.get?_eq_some_iff.mp hget
  have hpool := hw.pool_eq ht
  have hground := hw.sound t.draft (hpool ▸ Multiset.mem_cons_self _ _)
  obtain ⟨φ, hφ, hfollows⟩ := exists_effect_execute hc hp hground
  obtain ⟨d, posted, hd, hw', hnet⟩ := (hφ t rfl).done _ _ _ (hw.erase t.id) hexec
  refine ⟨hw', ?_⟩
  rw [hnet]
  exact .act hpool (.of_effect hφ rfl hd (hfollows d posted hd))

/-- A move of the net is the execution of a task, as long as there are numbers left. -/
theorem Calm.exists_advance (hw : Calm c w) {a : Draft μ} {N : Net σ μ}
    (h : Net.Moves c a w.net N) (htasks : N.tasks < UInt64.size)
    (hmessages : N.messages < UInt64.size) :
    ∃ t ∈ w.pending.tasks, t.draft = a ∧
      ∃ w', Step.advance c t.id w = (.ok t, w') ∧ Calm c w' ∧ w'.net = N := by
  have hmem := h.mem
  obtain ⟨hpool, ⟨φ, hφ, hd⟩, -, -⟩ := h
  rename_i rest d posted
  obtain ⟨t, ht, rfl⟩ := List.mem_map.mp (Multiset.mem_coe.mp hmem)
  have hrest : ({ w with pending := w.pending.erase t.id } : World σ μ).net =
      { w.net with pool := rest } := by
    rw [hw.pool_eq ht] at hpool
    rw [← (Multiset.cons_inj_right t.draft).mp hpool]
    rfl
  have hd' : φ (({ w with pending := w.pending.erase t.id } : World σ μ).desk t.draft.owner.index)
      = some ((), d, posted) := hd
  obtain ⟨w', hexec⟩ := (hφ t rfl).room _ _ _ _ (hw.erase t.id) hd' ⟨htasks, hmessages⟩
  obtain ⟨d', posted', hd'', hw', hnet⟩ := (hφ t rfl).done _ _ _ (hw.erase t.id) hexec
  rw [hd'] at hd''
  cases hd''
  refine ⟨t, ht, rfl, w', Step.advance_ok_iff.mpr ⟨_, ?_, hexec⟩, hw', by rw [hnet, hrest]⟩
  exact Pending.take_eq_some_iff.mpr ⟨hw.get?_eq_some_iff.mpr ht, rfl⟩

/-! ### Links and eligible tasks -/

theorem Task.draft_sender? (t : Task μ) : t.draft.sender? = t.sender? := by
  rcases t with ⟨id, owner, clock, body⟩
  cases body <;> rfl

/-- Deliveries are the tasks with a sender, and they have a message. -/
theorem Task.kind_eq_receive_iff (t : Task μ) :
    t.kind = .receive ↔ ∃ s m, t.sender? = some s ∧ t.message? = some m := by
  rcases t with ⟨id, owner, clock, body⟩
  cases body <;> simp [kind, sender?, message?]

theorem Tree.waits_iff {pending : Pending μ} {t : Task μ} :
    waits pending.views t.view = true ↔ ∃ s m, t.sender? = some s ∧ t.message? = some m ∧
      ∃ u ∈ pending.tasks, u.sender? = some s ∧ u.owner = t.owner ∧
        ∃ m', u.message? = some m' ∧ m' < m := by
  simp only [waits, Bool.and_eq_true, decide_eq_true_eq, List.any_eq_true]
  constructor
  · rintro ⟨ht, x, hx, ⟨⟨hkind, hsender⟩, howner⟩, holder⟩
    obtain ⟨u, hu, rfl⟩ := List.mem_map.mp hx
    obtain ⟨s, m, hs, hm⟩ := t.kind_eq_receive_iff.mp ht
    obtain ⟨s', m', hs', hm'⟩ := u.kind_eq_receive_iff.mp hkind
    refine ⟨s, m, hs, hm, u, hu, hsender.trans hs, howner, m', hm', ?_⟩
    simpa [older, Task.view, hm, hm'] using holder
  · rintro ⟨s, m, hs, hm, u, hu, hus, howner, m', hm', hlt⟩
    refine ⟨t.kind_eq_receive_iff.mpr ⟨s, m, hs, hm⟩, u.view, List.mem_map_of_mem hu,
      ⟨⟨?_, hus.trans hs.symm⟩, howner⟩, ?_⟩
    · exact u.kind_eq_receive_iff.mpr ⟨s, m', hus, hm'⟩
    · simpa [older, Task.view, hm, hm'] using hlt

namespace Calm

/-- The numbers and the clocks agree on which messages are older. -/
theorem waits_iff (hw : Calm c w) {t : Task μ} (ht : t ∈ w.pending.tasks) :
    Tree.waits w.pending.views t.view = true ↔ t.draft.Waits w.net.pool := by
  rw [Tree.waits_iff]
  constructor
  · rintro ⟨s, m, hs, hm, u, hu, hus, howner, m', hm', hlt⟩
    refine ⟨s, t.draft_sender?.trans hs, u.draft, Multiset.mem_coe.mpr (List.mem_map_of_mem hu),
      u.draft_sender?.trans hus, howner, ?_⟩
    exact (hw.ordered u hu t ht s m' m hus hs hm' hm).mp hlt
  · rintro ⟨s, hs, a, ha, has, howner, hlt⟩
    obtain ⟨u, hu, rfl⟩ := List.mem_map.mp (Multiset.mem_coe.mp ha)
    rw [Task.draft_sender?] at hs has
    have hmessage : ∀ x : Task μ, x.sender? = some s → ∃ m, x.message? = some m := by
      rintro ⟨id, owner, clock, body⟩ hx
      cases body with
      | receive sender message m => exact ⟨m, rfl⟩
      | _ => cases hx
    obtain ⟨m, hm⟩ := hmessage t hs
    obtain ⟨m', hm'⟩ := hmessage u has
    exact ⟨s, m, hs, hm, u, hu, has, howner, m', hm', (hw.ordered u hu t ht s m' m has hs hm' hm).mpr hlt⟩

theorem free_iff (hw : Calm c w) {t : Task μ} (ht : t ∈ w.pending.tasks) (finished : Option TaskView) :
    Rule.linked c.config.order finished w.pending.views t.view ↔ t.draft.Free c w.net.pool := by
  unfold Rule.linked Draft.Free
  rw [← hw.waits_iff ht, Bool.not_eq_true]

/-- In a calm state no fault is pending. -/
theorem not_isFault (hw : Calm c w) {t : Task μ} (ht : t ∈ w.pending.tasks) :
    t.kind.isFault = false := by
  have hground := (hw.sound t.draft (Multiset.mem_coe.mpr (List.mem_map_of_mem ht))).2
  rcases t with ⟨id, owner, clock, body⟩
  cases body with
  | operation => rfl
  | receive => rfl
  | _ => exact hground.elim

/-- A task that is free and follows the finished one is eligible. -/
theorem eligible_of_follows (hw : Calm c w) (horder : c.config.order ≠ .synchronous) {t : Task μ}
    (ht : t ∈ w.pending.tasks) (hfree : t.draft.Free c w.net.pool) {finished : Option (Task μ)}
    (hfollows : ∀ f, finished = some f → f.draft.Follows t.draft) :
    Rule.eligible c.config.order (finished.map Task.view) w.pending.views t.view := by
  have holdest : Tree.oldest? c.config.order (Tree.deliveries w.pending.views) = none := by
    unfold Tree.oldest?
    split
    · contradiction
    · rfl
  refine Tree.mem_eligible.mpr ⟨t.view, ?_, rfl⟩
  simp only [Tree.eligibleViews, holdest, List.mem_filter, Bool.and_eq_true, Bool.not_eq_true']
  refine ⟨List.mem_map_of_mem ht, ⟨?_, ?_⟩, ?_⟩
  · simp [Tree.live, Task.view, hw.not_isFault ht]
  · -- only the task itself has its number, and it does not wait
    refine Bool.eq_false_iff.mpr fun hheld => ?_
    have hmem := List.contains_iff_mem.mp hheld
    unfold Tree.blocked at hmem
    split at hmem
    · rename_i hfifo
      obtain ⟨x, hx, hid⟩ := List.mem_map.mp hmem
      obtain ⟨hxp, hwaits⟩ := List.mem_filter.mp hx
      obtain ⟨u, hu, rfl⟩ := List.mem_map.mp hxp
      rw [hw.eq_of_id_eq hu ht hid] at hwaits
      exact hfree hfifo ((hw.waits_iff ht).mp hwaits)
    · cases hmem
  · cases finished with
    | none => rfl
    | some f =>
      show (decide (f.owner ≤ t.owner) || f.clock.happensBefore t.clock) = true
      rw [Bool.or_eq_true, decide_eq_true_eq]
      exact hfollows f rfl

end Calm

/-! ### The start of an iteration -/

/-- Memory for the clocks bounds the number of nodes. -/
theorem Setup.size_lt_of_accept {s : Setup σ} (h : s.accept = .ok ()) : s.registry.size < UInt32.size := by
  unfold accept at h
  split at h
  · cases h
  · split at h
    · rename_i hfit
      have hclock : 8 * s.registry.size * s.registry.size ≤ UInt64.size :=
        of_decide_eq_true (Bool.and_eq_true_iff.mp hfit).2
      rw [Nat.mul_assoc, UInt64.size] at hclock
      refine Nat.lt_of_not_le fun hge => ?_
      have hsquare := Nat.mul_le_mul hge hge
      rw [UInt32.size] at hsquare
      omega
    · cases h

/-- An iteration starts in a calm state. -/
theorem Calm.reset (hsize : c.size < UInt32.size) (w : World σ μ) : Calm c (w.reset c) := by
  have hword : ∀ {i : Nat}, i ≤ c.size → i.toUInt64.toNat = i := fun hi =>
    UInt64.toNat_ofNat_of_lt' (by rw [UInt32.size] at hsize; rw [UInt64.size]; omega)
  have hmem : ∀ t ∈ (w.reset c).pending.tasks, ∃ i < c.size, t = World.firstTask c.size i := by
    intro t ht
    obtain ⟨i, hi, rfl⟩ := List.mem_map.mp ht
    exact ⟨i, List.mem_range.mp hi, rfl⟩
  refine ⟨rfl, rfl, by simp [World.reset], ?_, ?_, ?_, ?_, ?_⟩
  · intro a ha
    obtain ⟨t, ht, rfl⟩ := List.mem_map.mp (Multiset.mem_coe.mp ha)
    obtain ⟨i, hi, rfl⟩ := hmem t ht
    have howner : (World.firstTask (μ := μ) c.size i).draft.owner.index = i :=
      NodeId.index_ofIndex (Nat.lt_trans hi hsize)
    refine ⟨by rw [howner]; exact hi, World.firstClock c.size i, ?_, Clock.le_refl _⟩
    rw [howner]
    simp [World.net, World.desk, World.reset, hi]
  · intro t ht
    obtain ⟨i, hi, rfl⟩ := hmem t ht
    show i.toUInt64.toNat < c.size.toUInt64.toNat
    rw [hword (Nat.le_of_lt hi), hword (Nat.le_refl _)]
    exact hi
  · show (((List.range c.size).map (World.firstTask c.size)).map Task.id).Nodup
    rw [List.map_map]
    refine List.Nodup.map_on (fun i hi j hj hij => ?_) List.nodup_range
    have hnumber := congrArg TaskId.number hij
    have hij' : i.toUInt64.toNat = j.toUInt64.toNat := hnumber
    rwa [hword (Nat.le_of_lt (List.mem_range.mp hi)),
      hword (Nat.le_of_lt (List.mem_range.mp hj))] at hij'
  · intro t ht m hm
    obtain ⟨i, hi, rfl⟩ := hmem t ht
    cases hm
  · intro t ht u hu s m m' hts
    obtain ⟨i, hi, rfl⟩ := hmem t ht
    cases hts

/-! ### Whole schedules -/

/-- A schedule is a run of the net. -/
theorem Schedule.run (hc : FaultFree c) (hp : c.protocol.Discreet) {finished : Option TaskView}
    {ts : List (Task μ)} (h : Schedule c (.linked c.config.order) finished w ts w')
    (hw : Calm c w) : Net.Run c w.net (ts.map Task.draft) w'.net := by
  induction h with
  | nil => exact .nil _
  | cons allowed done rest ih =>
    obtain ⟨hw₁, hmoves⟩ := hw.moves hc hp done
    obtain ⟨pending, htake, -⟩ := Step.advance_ok_iff.mp done
    have ht := hw.get?_eq_some_iff.mp (Pending.take_eq_some_iff.mp htake).1
    exact .cons ((hw.free_iff ht _).mp allowed) hmoves (ih hw₁)

/-- Numbers are only handed out. -/
theorem Net.Run.numbers_le {N N' : Net σ μ} {as : List (Draft μ)} (h : Run c N as N') :
    N.tasks ≤ N'.tasks ∧ N.messages ≤ N'.messages := by
  induction h with
  | nil => exact ⟨Nat.le_refl _, Nat.le_refl _⟩
  | cons free move rest ih =>
    obtain ⟨hpool, hact⟩ := move
    exact ⟨Nat.le_trans (Nat.le_add_right _ _) ih.1, Nat.le_trans (Nat.le_add_right _ _) ih.2⟩

/-- A run of the net in which every draft follows the one before it is a schedule of eligible
tasks, as long as there are numbers left. -/
theorem Net.Run.schedule (horder : c.config.order ≠ .synchronous) {N : Net σ μ}
    (htasks : N.tasks < UInt64.size) (hmessages : N.messages < UInt64.size) :
    ∀ {as : List (Draft μ)} {w : World σ μ} {finished : Option (Task μ)}, Calm c w →
      Run c w.net as N → ((finished.map Task.draft).toList ++ as).IsChain Draft.Follows →
      ∃ ts w', Schedule c (.eligible c.config.order) (finished.map Task.view) w ts w' ∧
        ts.map Task.draft = as ∧ w'.net = N
  | [], w, finished, _, h, _ => by
    cases h
    exact ⟨[], w, .nil _ w, rfl, rfl⟩
  | a :: as, w, finished, hw, h, hchain => by
    obtain _ | ⟨hfree, hmove, hrest⟩ := h
    obtain ⟨h₁, h₂⟩ := hrest.numbers_le
    obtain ⟨t, ht, rfl, w₁, hadvance, hw₁, rfl⟩ := hw.exists_advance hmove
      (Nat.lt_of_le_of_lt h₁ htasks) (Nat.lt_of_le_of_lt h₂ hmessages)
    have hfollows : ∀ f, finished = some f → f.draft.Follows t.draft := by
      rintro f rfl
      exact (List.isChain_cons_cons.mp hchain).1
    have htail : (((some t).map Task.draft).toList ++ as).IsChain Draft.Follows :=
      hchain.right_of_append
    obtain ⟨ts, w', hschedule, rfl, hnet⟩ := Net.Run.schedule horder htasks hmessages hw₁ hrest htail
    exact ⟨t :: ts, w', .cons (hw.eligible_of_follows horder ht hfree hfollows) hadvance hschedule,
      rfl, hnet⟩

/-- States with equal nets have equal results and instances. -/
theorem World.eq_of_net_eq (h : w'.net = w.net) :
    w'.results = w.results ∧ w'.instances = w.instances ∧
      (w.pending.isEmpty → w'.pending.isEmpty) := by
  have hdesk : ∀ i, w'.desk i = w.desk i := fun i => congrFun (congrArg Net.desk h) i
  refine ⟨List.ext_getElem? fun i => congrArg Desk.results (hdesk i),
    List.ext_getElem? fun i => congrArg Desk.state (hdesk i), fun hempty => ?_⟩
  have hcard := congrArg Multiset.card (congrArg Net.pool h)
  simpa [World.net, Pending.isEmpty, List.isEmpty_iff.mp hempty] using hcard

/-- What node `v` does in a schedule: its operations, and the messages it receives with their
senders. -/
def workOf (v : NodeId) (ts : List (Task μ)) : List (Work μ) :=
  (ts.filter (·.owner = v)).map (·.body.unnumbered)

theorem workOf_eq_map_filter (v : NodeId) (ts : List (Task μ)) :
    workOf v ts = ((ts.map Task.draft).filter (·.owner = v)).map Draft.body := by
  rw [List.filter_map, List.map_map]
  rfl

/-- **Nothing is lost by exploring eligible tasks only.** Without faults and with messages that are
not synchronous, let a schedule from the start of an iteration respect the links and leave nothing
pending. Then there is a schedule of eligible tasks that leaves nothing pending, in which every node
does the same work in the same order, with the same results and the same final states. -/
theorem exists_eligible_schedule (haccept : c.toSetup.accept = .ok ()) (hc : FaultFree c)
    (horder : c.config.order ≠ .synchronous) (hp : c.protocol.Discreet) {w₀ : World σ μ}
    {ts : List (Task μ)} (h : Schedule c (.linked c.config.order) none (w₀.reset c) ts w)
    (hdone : w.pending.isEmpty = true) :
    ∃ ts' w', Schedule c (.eligible c.config.order) none (w₀.reset c) ts' w' ∧
      w'.pending.isEmpty = true ∧ (∀ v, workOf v ts' = workOf v ts) ∧
      w'.results = w.results ∧ w'.instances = w.instances := by
  have hcalm : Calm c (w₀.reset c) := .reset (Setup.size_lt_of_accept haccept) w₀
  obtain ⟨bs, hrun, hchain, hsame⟩ := (h.run hc hp hcalm).ordered hcalm.sound
  have hstart : (((none : Option (Task μ)).map Task.draft).toList ++ bs).IsChain Draft.Follows :=
    hchain
  obtain ⟨ts', w', hschedule, rfl, hnet⟩ := hrun.schedule horder w.nextTask.val.toNat_lt
    w.nextMessage.val.toNat_lt hcalm hstart
  obtain ⟨hresults, hinstances, hempty⟩ := World.eq_of_net_eq hnet
  refine ⟨ts', w', hschedule, hempty hdone, fun v => ?_, hresults, hinstances⟩
  rw [workOf_eq_map_filter, workOf_eq_map_filter, hsame]

theorem Handler.discreet_sendAll {α : Type} (message : μ) {rest : Handler μ α} (h : rest.Discreet) :
    ∀ targets, (sendAll message targets rest).Discreet
  | [] => h
  | _ :: targets => discreet_sendAll message h targets

theorem Broadcast.discreet : Broadcast.protocol.Discreet where
  start _ _ := trivial
  quiet _ _ := trivial
  operation _ _ _ := by
    apply Handler.discreet_sendAll
    trivial
  message _ _ _ _ := trivial

/-- The second peer broadcasts before the first one, which is not eligible. -/
theorem exists_eligible_schedule_pair :
    ∃ ts' w', Schedule Broadcast.pair (.eligible .fifo) none
        ((World.new Broadcast.pair).reset Broadcast.pair) ts' w' ∧ w'.pending.isEmpty = true ∧
      (∀ v, workOf v ts' = workOf v [World.firstTask 2 1, World.firstTask 2 0,
        ⟨⟨2⟩, ⟨0⟩, ⟨[0, 2]⟩, .receive ⟨1⟩ "b" ⟨0⟩⟩, ⟨⟨3⟩, ⟨1⟩, ⟨[2, 0]⟩, .receive ⟨0⟩ "a" ⟨1⟩⟩]) ∧
      w'.results = [[.void], [.void]] ∧
      w'.instances = [some ⟨[("b", ⟨1⟩)]⟩, some ⟨[("a", ⟨0⟩)]⟩] := by
  have h : Schedule Broadcast.pair (.linked .fifo) none
      ((World.new Broadcast.pair).reset Broadcast.pair)
      [World.firstTask 2 1, World.firstTask 2 0,
        ⟨⟨2⟩, ⟨0⟩, ⟨[0, 2]⟩, .receive ⟨1⟩ "b" ⟨0⟩⟩, ⟨⟨3⟩, ⟨1⟩, ⟨[2, 0]⟩, .receive ⟨0⟩ "a" ⟨1⟩⟩] _ :=
    .cons (fun _ => rfl) rfl (.cons (fun _ => rfl) rfl (.cons (fun _ => rfl) rfl
      (.cons (fun _ => rfl) rfl (.nil _ _))))
  exact exists_eligible_schedule rfl ⟨rfl, rfl⟩ (by decide) Broadcast.discreet h rfl

end Interleave
