/-
# Synchronous messages

With synchronous messages, while some message is in flight only the oldest one
may move: the next task is its delivery or a fault attached to it (`Rule.prompt`). That
is what the tree holds to be eligible, so every chosen task keeps to it
(`Explorer.synchronous_prompt`).

A drain asks the numbers of the tasks instead. Messages and tasks are numbered in
step, so of the pending deliveries the one with the lowest number is that of the
oldest message, and a fault never has the lowest number of all
(`Rule.inTurn_of_lowest`). But an operation, a recovery or a heal that was pending before
the message was sent has a lower number than its delivery and comes first.
-/
import Interleave.Proofs.Candidates
import Interleave.Proofs.Conduct
import Interleave.Proofs.Links

namespace Interleave

variable {F σ μ : Type} {c : Cluster σ μ} {w w' : World σ μ}

namespace Rule

/-- While a message is in flight, the task is the delivery of the oldest one or a fault attached to
it. -/
def prompt : Rule := fun _ pending t => ∀ m, (Tree.deliveries pending).head? = some m →
  t.message = some m ∧ (t.kind = .receive ∨ t.kind.isFault = true)

/-- The task has the lowest number and is no fault, and if it is a delivery then that of the oldest
message in flight. -/
def inTurn : Rule := fun finished pending t => lowest finished pending t ∧ t.kind.isFault = false ∧
  (t.kind = .receive → prompt finished pending t)

end Rule

/-! ### Deliveries by the age of their messages -/

/-- The messages of the pending deliveries, in the order of the tasks. -/
def World.mail (w : World σ μ) : List MessageId := (deliveries w.pending.tasks).filterMap Task.message?

theorem World.mail_congr (h : deliveries w'.pending.tasks = deliveries w.pending.tasks) :
    w'.mail = w.mail := by
  rw [mail, h]
  rfl

/-- Deliveries stand by the age of their messages, all of which were sent. -/
structure Dated (w : World σ μ) : Prop where
  numbered : w.Numbered
  sorted : w.mail.Pairwise (· < ·)
  below : ∀ m ∈ w.mail, m < w.nextMessage

namespace Dated

/-- Deliveries may go. -/
theorem less (hd : Dated w) (hw : w'.Numbered)
    (hnumber : ∀ m, m < w.nextMessage → m < w'.nextMessage) (hmail : w'.mail.Sublist w.mail) :
    Dated w' :=
  ⟨hw, hd.sorted.sublist hmail, fun m hm => hnumber m (hd.below m (hmail.subset hm))⟩

theorem reset (hsize : c.size < UInt32.size) (w : World σ μ) : Dated (w.reset c) := by
  have hnone : (w.reset c).mail = [] := by
    have hdeliveries : deliveries (w.reset c).pending.tasks = [] := deliveries_eq_nil fun t ht => by
      obtain ⟨i, -, rfl⟩ := List.mem_map.mp ht
      exact Task.kind_ne_receive fun _ _ _ => nofun
    rw [World.mail, hdeliveries]
    rfl
  refine ⟨World.numbered_reset hsize w, ?_, fun m hm => ?_⟩
  · rw [hnone]
    exact .nil
  · rw [hnone] at hm
    cases hm

theorem take (hd : Dated w) {id : TaskId} {t : Task μ} {pending : Pending μ}
    (htake : w.pending.take id = some (t, pending)) : Dated { w with pending := pending } := by
  refine hd.less (hd.numbered.of_take htake).2 (fun _ hm => hm) ?_
  obtain ⟨-, rfl⟩ := Pending.take_eq_some_iff.mp htake
  exact (List.filter_sublist.filter _).filterMap _

/-- A message that is sent is younger than all others. -/
theorem flow {h h' : Hand μ} (hd : Dated w) (hw : w'.Numbered) (flow : Flow c h w h' w') :
    Dated w' := by
  cases flow with
  | still number log hand duty pending =>
    exact hd.less hw (fun m hm => number ▸ hm) (World.mail_congr pending ▸ .refl _)
  | crash v number log empty duty moved rest =>
    exact hd.less hw (fun m hm => number ▸ hm) (rest.filterMap _)
  | refuse sender target message number log hand pending =>
    refine hd.less hw (fun m hm => ?_) (World.mail_congr pending ▸ .refl _)
    exact (MessageId.lt_iff_of_next? number).mpr (.inl hm)
  | post t sender message id body number log hand pending =>
    have hmail : w'.mail = w.mail ++ [w.nextMessage] := by
      have hnew : t.message? = some w.nextMessage := by simp [Task.message?, body]
      rw [World.mail, pending, List.filterMap_append]
      simp [World.mail, hnew]
    have hup : ∀ m, m < w.nextMessage ∨ m = w.nextMessage → m < w'.nextMessage :=
      fun m => (MessageId.lt_iff_of_next? number).mpr
    refine ⟨hw, ?_, fun m hm => hup m ?_⟩
    · rw [hmail]
      refine List.pairwise_append.mpr ⟨hd.sorted, List.pairwise_singleton _ _, fun m hm k hk => ?_⟩
      cases List.mem_singleton.mp hk
      exact hd.below m hm
    · rw [hmail] at hm
      exact (List.mem_append.mp hm).imp (hd.below m) List.mem_singleton.mp
  | lose t sender message m body number log hand duty pending =>
    have hmail : w'.mail = w.mail := World.mail_congr (by rw [pending])
    exact hd.less hw (fun m hm => number ▸ hm) (hmail ▸ .refl _)
  | receive t sender message m body number log before after pending =>
    have hmail : w'.mail = w.mail := World.mail_congr (by rw [pending])
    exact hd.less hw (fun m hm => number ▸ hm) (hmail ▸ .refl _)

/-- The messages in flight, as the tree knows them. -/
theorem deliveries_views (hd : Dated w) : Tree.deliveries w.pending.views = w.mail := by
  have hviews : (w.pending.views.filter (·.kind = .receive)).filterMap (·.message) = w.mail := by
    rw [Pending.views, List.filter_map, List.filterMap_map]
    rfl
  rw [Tree.deliveries, hviews, Ascending.ofList_of_pairwise hd.sorted]

end Dated

/-- Wherever no counter ran out, the pending deliveries stand by the age of their messages. -/
theorem Reaches.dated_of_clean (hsize : c.size < UInt32.size) (hw : Reaches c Abort.Clean w) :
    Dated w :=
  hw.keeps (P := fun _ w => Dated w) (fun _ he => he) (fun w => .reset hsize w)
    (fun htake hd => hd.take htake)
    (fun change hd => hd.flow (hd.numbered.change change) (change.flow hd.numbered))
    fun _ _ hd => hd

theorem Reaches.dated (hsize : c.size < UInt32.size) (hw : Reaches c Abort.Returned w) : Dated w :=
  (hw.mono fun _ he => he.clean).dated_of_clean hsize

/-! ### Chosen and drained tasks -/

namespace Rule

variable {finished : Option TaskView} {t : Task μ}

/-- With synchronous messages, what is eligible is prompt. -/
theorem prompt_of_eligible (hw : w.Numbered) (hget : w.pending.get? t.id = some t)
    (h : eligible .synchronous finished w.pending.views t.view) :
    prompt finished w.pending.views t.view := by
  intro m hm
  obtain ⟨v, hv, hid⟩ := Tree.mem_eligible.mp h
  have holdest : Tree.oldest? .synchronous (Tree.deliveries w.pending.views) = some m := hm
  unfold Tree.eligibleViews at hv
  simp only [holdest] at hv
  obtain ⟨hmem, hmoves⟩ := List.mem_filter.mp hv
  obtain ⟨u, hu, rfl⟩ := List.mem_map.mp hmem
  obtain rfl : u = t := hw.eq_of_id_eq hu (List.mem_of_find?_eq_some hget) hid
  have hmessage : u.message? = some m := of_decide_eq_true (Bool.and_eq_true_iff.mp hmoves).2
  refine ⟨hmessage, ?_⟩
  show u.kind = _ ∨ u.kind.isFault = _
  cases hbody : u.body <;> simp_all [Task.message?, Task.kind, TaskKind.isFault]

/-- The task with the lowest number is no fault, and a delivery with the lowest number is that of the
oldest message. -/
theorem inTurn_of_lowest (hpinned : Pinned [] w) (hd : Dated w) (hget : w.pending.get? t.id = some t)
    (h : lowest finished w.pending.views t.view) : inTurn finished w.pending.views t.view := by
  have hfirst : w.pending.first? = some t.id := (Pending.first?_eq_head? _).symm.trans h
  refine ⟨h, hpinned.isFault_of_first hget hfirst, fun hkind => ?_⟩
  obtain ⟨u, hhead, hid⟩ := Option.map_eq_some_iff.mp hfirst
  obtain ⟨rest, htasks⟩ := List.head?_eq_some_iff.mp hhead
  obtain rfl : u = t := hd.numbered.eq_of_id_eq (by rw [htasks]; exact List.mem_cons_self)
    (List.mem_of_find?_eq_some hget) hid
  intro m hm
  refine ⟨?_, .inl hkind⟩
  have hreceive : u.kind = .receive := hkind
  obtain ⟨k, hk⟩ : ∃ k, u.message? = some k := by
    cases hbody : u.body <;> simp_all [Task.message?, Task.kind]
  rw [hd.deliveries_views, World.mail, htasks, deliveries_cons hreceive,
    List.filterMap_cons_some hk] at hm
  exact hk.trans hm

end Rule

/-- With synchronous messages, the tasks that are chosen are prompt. -/
theorem upgrades_prompt (hsize : c.size < UInt32.size) (horder : c.config.order = .synchronous) :
    Upgrades c (Reaches c Abort.Returned) (.eligible c.config.order) .prompt where
  allows hw hget h := Rule.prompt_of_eligible (hw.dated hsize).numbered hget (horder ▸ h)
  keeps hw _ done := hw.task _ done nofun

/-- Drained tasks come in turn. -/
theorem upgrades_inTurn (hsize : c.size < UInt32.size) :
    Upgrades c (Reaches c Abort.Returned) .lowest .inTurn where
  allows hw hget h := Rule.inTurn_of_lowest (hw.pinned hsize) (hw.dated hsize) hget h
  keeps hw _ done := hw.task _ done nofun

namespace Explorer

variable [Share F] {verifier : Verifier}

/-- **Synchronous messages over whole iterations.** In every iteration of a run, however it ends, each
task that is begun while something is eligible is prompt: with a message in flight it is the delivery
of the oldest one or a fault attached to it. Once nothing is eligible, and after the end of the
scenario, tasks come in turn: by ascending number, never a fault, and of the deliveries the one of
the oldest message first. -/
theorem synchronous_prompt (horder : c.config.order = .synchronous) {x : Explorer F σ μ}
    (hx : Reachable c verifier x) {it : Iteration} (hit : it ∈ x.run.1.history) :
    ∃ w : World σ μ, it.Conduct c .prompt .inTurn (w.reset c) := by
  have hsize : c.size < UInt32.size := Setup.size_lt_of_accept hx.accept
  obtain ⟨w, hconduct⟩ := hx.conduct hit
  exact ⟨w, hconduct.strengthen (upgrades_prompt hsize horder) (upgrades_inTurn hsize)
    (fun hw hrun => hw.farewell _ hrun nofun) (.start w)⟩

end Explorer

/-- Node 0 asks node 2 something, and later checks whether node 1 has told it something. -/
def Script.overtaking : Cluster Script.Actor String where
  config := { Config.default with order := .synchronous, maxIterations := 1 }
  registry := ⟨[⟨peerRole, 3, fun _ _ => ⟨
    { start := []
      recovery := none
      finish := []
      operations := [("ask", [.send (.node ⟨2⟩) "x", .void]),
        ("tell", [.send (.node ⟨0⟩) "y", .void]),
        ("check", [.unlessNoted "told" [.value "overtaken"], .void])]
      messages := [("y", [.note "told"])]
      invalid := none }, 0, []⟩⟩]⟩
  scenario := ⟨[[.named "ask" [], .named "check" []], [.named "tell" []], []]⟩
  protocol := Script.protocol

namespace Explorer

theorem synchronous_prompt_overtaking :
    ∃ it ∈ (fresh Script.overtaking .acceptAll : Explorer Float _ _).run.1.history,
      it.interrupted = true ∧ ∃ w : World Script.Actor String,
        it.Conduct Script.overtaking .prompt .inTurn (w.reset Script.overtaking) := by
  have hx : Reachable Script.overtaking .acceptAll
      (fresh Script.overtaking .acceptAll : Explorer Float _ _) := .new (new_eq_fresh rfl)
  obtain ⟨it, hit, hinterrupted⟩ : ∃ it ∈ (fresh Script.overtaking .acceptAll :
      Explorer Float _ _).run.1.history, it.interrupted = true := by decide +kernel
  exact ⟨it, hit, hinterrupted, synchronous_prompt rfl hx hit⟩

/-- When node 2 has received what it was asked, and has found that it has no operation to run, no task
is eligible any more. In the drain node 1 tells node 0 something, and node 0 checks before the message
arrives. -/
theorem overtakes_interrupted :
    ∃ it ∈ (fresh Script.overtaking .acceptAll : Explorer Float _ _).run.1.history,
      ∃ ids id rest w t, it.executed = ids ++ id :: rest ∧
        Step.advances Script.overtaking ids ((World.new Script.overtaking).reset Script.overtaking) =
          (.ok (), w) ∧
        w.pending.get? id = some t ∧ ¬ Rule.prompt none w.pending.views t.view := by
  obtain ⟨it, hit, hexecuted⟩ : ∃ it ∈ (fresh Script.overtaking .acceptAll :
      Explorer Float _ _).run.1.history,
      it.executed = [⟨0⟩, ⟨3⟩, ⟨2⟩, ⟨1⟩] ++ ⟨4⟩ :: [⟨5⟩] := by decide +kernel
  generalize hrun : Step.advances Script.overtaking [⟨0⟩, ⟨3⟩, ⟨2⟩, ⟨1⟩]
    ((World.new Script.overtaking).reset Script.overtaking) = run
  have hdone : run.1.isOk = true ∧ (run.2.pending.get? ⟨4⟩).map Task.kind = some .operation ∧
      (Tree.deliveries run.2.pending.views).head? = some ⟨1⟩ := by
    rw [← hrun]
    decide +kernel
  obtain ⟨r, w⟩ := run
  obtain ⟨hok, hpending, holdest⟩ := hdone
  obtain ⟨t, hget, hkind⟩ := Option.map_eq_some_iff.mp hpending
  cases r with
  | error e => cases hok
  | ok u =>
    refine ⟨it, hit, _, _, _, w, t, hexecuted, hrun, hget, fun hprompt => ?_⟩
    rcases (hprompt ⟨1⟩ holdest).2 with hreceive | hfault
    · cases hkind.symm.trans hreceive
    · rw [show t.view.kind = .operation from hkind] at hfault
      cases hfault

end Explorer

end Interleave
